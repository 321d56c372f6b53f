import Mathlib.Tactic.TFAE
import GuidedTrack.Proofs.Token.InterpolationNesting

/-! # Emphasis and interpolations

Prose that is scanned for emphasis takes an emphasised span as one text token, whatever is in it.
Prose that is not has an interpolation at the next brace behind every text token. The two have the
same interpolations exactly if no span holds a brace.
-/

namespace GuidedTrack.Token

open Source Text List Position

def holes (tokens : List Token) : List Token :=
  tokens.filter (·.kind ≠ .text)

def starts (tokens : List Token) : List Position :=
  (tokens.filter (·.kind = .interpolationStart)).map (·.span.start)

def Bare (tokens : List Token) : Prop :=
  ∀ token ∈ tokens, token.kind = .text → '{' ∉ token.text.toList

section

variable {tokens others : List Token}

theorem holes_append : holes (tokens ++ others) = holes tokens ++ holes others :=
  filter_append ..

theorem starts_append : starts (tokens ++ others) = starts tokens ++ starts others := by
  simp [starts]

theorem bare_append : Bare (tokens ++ others) ↔ Bare tokens ∧ Bare others :=
  forall_mem_append

theorem bare_of_kind (h : ∀ token ∈ tokens, token.kind ≠ .text) : Bare tokens :=
  fun token htoken hkind => absurd hkind (h token htoken)

theorem starts_of_kind (h : ∀ token ∈ tokens, token.kind ≠ .interpolationStart) :
    starts tokens = [] := by
  rw [starts, filter_eq_nil_iff.mpr (by simpa using h), map_nil]

theorem starts_holes : starts (holes tokens) = starts tokens := by
  rw [starts, holes, filter_filter, starts]
  refine congrArg _ (filter_congr fun token _ => ?_)
  cases token.kind <;> rfl

end

theorem holes_prose (p : Position) (cs : List Char) : holes (prose p cs) = [] :=
  filter_eq_nil_iff.mpr (by simpa using kind_prose)

theorem starts_prose (p : Position) (cs : List Char) : starts (prose p cs) = [] := by
  rw [← starts_holes, holes_prose]
  rfl

theorem bare_prose (p : Position) (cs : List Char) : Bare (prose p cs) ↔ '{' ∉ cs := by
  unfold prose
  split
  · rename_i hblank
    refine iff_of_true (by simp [Bare]) fun hmem => ?_
    exact absurd (all_eq_true.mp hblank _ hmem) (by decide)
  · simp [Bare, spelled, covering]

/-! ## Prose up to the next interpolation -/

theorem not_mem_of_plainLength {emphasis : Bool} {chunk rest : List Char}
    (h : plainLength emphasis (chunk ++ rest) = chunk.length) : '{' ∉ chunk := by
  induction chunk with
  | nil => simp
  | cons c chunk ih =>
    rw [cons_append, plainLength] at h
    split at h
    · cases h
    · rename_i hstop
      have hc : c ≠ '{' := by
        rintro rfl
        exact hstop rfl
      simpa [hc.symm] using ih (by simpa using h)

theorem plainLength_false (cs : List Char) : plainLength false cs = cs.idxOf '{' := by
  induction cs with
  | nil => rfl
  | cons c cs ih =>
    rw [plainLength, idxOf_cons, ih]
    cases c == '{' <;> simp

theorem scanText_bare {cs : List Char} (h : '{' ∉ cs) (p : Position) :
    scanText false p cs = prose p cs :=
  scanText_plain (by rw [plainLength_false, idxOf_of_notMem h]) p

theorem scanText_brace {chunk : List Char} (h : '{' ∉ chunk) (p : Position) (cs : List Char) :
    scanText false p (chunk ++ '{' :: cs) =
      prose p chunk ++ covering .interpolationStart "\x7b" (p.advance chunk.length) 1 ::
        scanHole false 0 (p.advance (chunk.length + 1)) cs := by
  refine scanText_hole ?_ p
  rw [plainLength_false, idxOf_append_of_notMem h, idxOf_cons_self, Nat.add_zero]

theorem holes_scanText_append {front : List Char} (h : '{' ∉ front) (p : Position)
    (cs : List Char) :
    holes (scanText false p (front ++ cs)) =
      holes (scanText false (p.advance front.length) cs) := by
  by_cases hmem : '{' ∈ cs
  · obtain ⟨chunk, rest, rfl, hchunk⟩ := eq_append_cons_of_mem hmem
    have hfront : '{' ∉ front ++ chunk := by simp [h, hchunk]
    rw [← append_assoc, scanText_brace hfront, scanText_brace hchunk, holes_append, holes_append,
      holes_prose, holes_prose, length_append, advance_advance,
      advance_advance, Nat.add_assoc]
  · rw [scanText_bare (by simp [h, hmem]), scanText_bare hmem, holes_prose, holes_prose]

theorem exists_code (p : Position) (cs : List Char) :
    ∃ tokens n more,
      (∀ token ∈ tokens, token.kind ≠ .text ∧ token.kind ≠ .interpolationStart) ∧
      more.length ≤ cs.length ∧
      ∀ emphasis, scanHole emphasis 0 p cs = tokens ++ scanText emphasis (p.advance n) more := by
  obtain ⟨tokens, n, hscan, hcases⟩ := scanHole_cases 0 p cs
  have htokens : ∀ token ∈ tokens, token.kind ≠ .text ∧ token.kind ≠ .interpolationStart := by
    intro token htoken
    obtain ⟨htext, -, hstart, -⟩ := Kind.ne_of_isLexeme (hscan.isLexeme token htoken)
    exact ⟨htext, hstart⟩
  rcases hcases with ⟨-, hhole⟩ | ⟨more, hmore, hhole⟩
  · exact ⟨tokens, 0, [], htokens, Nat.zero_le _, fun emphasis => by
      rw [hhole, scanText_nil, append_nil]⟩
  · refine ⟨tokens ++ [covering .interpolationEnd "\x7d" (p.advance n) 1], n + 1, more, ?_,
      (length_lt_of_drop_eq_cons hmore).le, fun emphasis => by simp [hhole]⟩
    exact forall_mem_append.mpr ⟨htokens, by simp [covering]⟩

/-! ## Interpolations in emphasised spans -/

section

variable {p : Position} {chunk : List Char} {tokens : List Token}

theorem holes_brace :
    holes (prose p chunk ++ covering .interpolationStart "\x7b" (p.advance chunk.length) 1 ::
        tokens) =
      covering .interpolationStart "\x7b" (p.advance chunk.length) 1 :: holes tokens := by
  rw [holes_append, holes_prose]
  rfl

theorem starts_brace :
    starts (prose p chunk ++ covering .interpolationStart "\x7b" (p.advance chunk.length) 1 ::
        tokens) =
      p.advance chunk.length :: starts tokens := by
  rw [starts_append, starts_prose]
  rfl

theorem bare_brace (h : '{' ∉ chunk) :
    Bare (prose p chunk ++ covering .interpolationStart "\x7b" (p.advance chunk.length) 1 ::
        tokens) ↔
      Bare tokens := by
  rw [bare_append, bare_prose, and_iff_right h]
  simp [Bare, covering]

end

theorem bare_scanText_false (p : Position) (cs : List Char) : Bare (scanText false p cs) := by
  induction cs using @prose_induction false generalizing p with
  | plain cs hplain =>
    rw [scanText_plain hplain, bare_prose]
    exact @not_mem_of_plainLength _ cs [] (by simpa using hplain)
  | hole chunk cs hplain ih =>
    obtain ⟨tokens, n, more, htokens, hle, hhole⟩ := exists_code (p.advance (chunk.length + 1)) cs
    rw [scanText_hole hplain, bare_brace (not_mem_of_plainLength hplain), hhole, bare_append]
    exact ⟨bare_of_kind fun token htoken => (htokens token htoken).1, ih more hle _⟩
  | span chunk c piece cs hplain hmarker hpiece ih =>
    -- there are no spans without emphasis
    have hchunk := not_mem_of_plainLength hplain
    rw [plainLength_false, idxOf_append_of_notMem hchunk, idxOf_cons] at hplain
    rcases hmarker with rfl | rfl <;> simp at hplain

/-- Where no span holds a brace, emphasis makes no difference to interpolations. -/
theorem holes_scanText {p : Position} {cs : List Char} (h : Bare (scanText true p cs)) :
    holes (scanText true p cs) = holes (scanText false p cs) := by
  induction cs using @prose_induction true generalizing p with
  | plain cs hplain =>
    rw [scanText_plain hplain] at h ⊢
    rw [scanText_bare ((bare_prose p cs).mp h)]
  | hole chunk cs hplain ih =>
    have hchunk := not_mem_of_plainLength hplain
    obtain ⟨tokens, n, more, -, hle, hhole⟩ := exists_code (p.advance (chunk.length + 1)) cs
    rw [scanText_hole hplain, bare_brace hchunk, hhole, bare_append] at h
    rw [scanText_hole hplain, scanText_brace hchunk, holes_brace, holes_brace, hhole, hhole,
      holes_append, holes_append, ih more hle h.2]
  | span chunk c piece cs hplain hmarker hpiece ih =>
    have hc : c ≠ '{' := by
      rcases hmarker with rfl | rfl <;> decide
    have hcut : chunk ++ c :: (piece ++ cs) = (chunk ++ c :: piece) ++ cs := by simp
    rw [scanText_emphasis hplain hc hpiece, bare_append, bare_append, bare_prose, bare_prose] at h
    obtain ⟨⟨hchunk, hspan⟩, hrest⟩ := h
    have hfront : '{' ∉ chunk ++ c :: piece := mt mem_append.mp (not_or.mpr ⟨hchunk, hspan⟩)
    rw [scanText_emphasis hplain hc hpiece, holes_append, holes_append, holes_prose, holes_prose,
      ih hrest, hcut, holes_scanText_append hfront, length_append, length_cons]
    rfl

theorem advance_of_mem_starts {emphasis : Bool} {p q : Position} {cs : List Char}
    (h : q ∈ starts (scanText emphasis p cs)) : ∃ n, q = p.advance n := by
  obtain ⟨token, htoken, rfl⟩ := mem_map.mp h
  exact (row_scanText emphasis p cs).exists_start (mem_filter.mp htoken).1

/-- A brace in a span is the start of an interpolation that emphasis hides. -/
theorem bare_of_starts {p : Position} {cs : List Char}
    (h : starts (scanText false p cs) ⊆ starts (scanText true p cs)) :
        Bare (scanText true p cs) := by
  have hadvance {p : Position} {m n : Nat} (h : p.advance m = p.advance n) : m = n := by
    have hoffset := congrArg offset h
    simp only [advance] at hoffset
    omega
  induction cs using @prose_induction true generalizing p with
  | plain cs hplain =>
    rw [scanText_plain hplain, bare_prose]
    exact @not_mem_of_plainLength _ cs [] (by simpa using hplain)
  | hole chunk cs hplain ih =>
    have hchunk := not_mem_of_plainLength hplain
    obtain ⟨tokens, n, more, htokens, hle, hhole⟩ := exists_code (p.advance (chunk.length + 1)) cs
    have hstarts := starts_of_kind fun token htoken => (htokens token htoken).2
    rw [scanText_hole hplain, scanText_brace hchunk, starts_brace, starts_brace, hhole, hhole,
      starts_append, starts_append, hstarts, nil_append, nil_append] at h
    rw [scanText_hole hplain, bare_brace hchunk, hhole, bare_append]
    refine ⟨bare_of_kind fun token htoken => (htokens token htoken).1, ih more hle fun q hq => ?_⟩
    refine (mem_cons.mp (h (mem_cons_of_mem _ hq))).resolve_left fun heq => ?_
    obtain ⟨m, rfl⟩ := advance_of_mem_starts hq
    rw [advance_advance, advance_advance] at heq
    have := hadvance heq
    omega
  | span chunk c piece cs hplain hmarker hpiece ih =>
    have hc : c ≠ '{' := by
      rcases hmarker with rfl | rfl <;> decide
    have hcut : chunk ++ c :: (piece ++ cs) = (chunk ++ c :: piece) ++ cs := by simp
    have hlength : (chunk ++ c :: piece).length = chunk.length + (piece.length + 1) := by simp
    rw [scanText_emphasis hplain hc hpiece, starts_append, starts_append, starts_prose,
      starts_prose, hcut] at h
    rw [scanText_emphasis hplain hc hpiece, bare_append, bare_append, bare_prose, bare_prose]
    have hfront : '{' ∉ chunk ++ c :: piece := by
      intro hmem
      obtain ⟨before, behind, hspan, hbefore⟩ := eq_append_cons_of_mem hmem
      rw [hspan, append_assoc, cons_append, scanText_brace hbefore, starts_brace] at h
      obtain ⟨m, hm⟩ := advance_of_mem_starts (h mem_cons_self)
      rw [advance_advance] at hm
      have heq := hadvance hm
      rw [hspan, length_append, length_cons] at hlength
      omega
    obtain ⟨hchunk, hspan⟩ := not_or.mp (mt mem_append.mpr hfront)
    refine ⟨⟨hchunk, hspan⟩, ih ?_⟩
    rwa [← starts_holes, holes_scanText_append hfront, starts_holes, hlength] at h

/-- Emphasis hides no interpolation exactly if no text token holds a brace, and then it leaves all
tokens of the interpolations as they are. -/
theorem scanText_emphasis_tfae (p : Position) (cs : List Char) :
    Bare (scanText false p cs) ∧
      [holes (scanText true p cs) = holes (scanText false p cs),
        starts (scanText false p cs) ⊆ starts (scanText true p cs),
        Bare (scanText true p cs)].TFAE := by
  refine ⟨bare_scanText_false p cs, ?_⟩
  tfae_have 1 → 2 := fun heq => by
    rw [← starts_holes, ← heq, starts_holes]
    exact List.Subset.refl _
  tfae_have 2 → 3 := bare_of_starts
  tfae_have 3 → 1 := holes_scanText
  tfae_finish

theorem scanText_emphasis_hides :
    starts (scanText true .origin "*\x7bx\x7d*".toList) = [] ∧
      starts (scanText false .origin "*\x7bx\x7d*".toList) = [⟨1, 2, 1⟩] := by
  constructor <;> decide +kernel

end GuidedTrack.Token
