import GuidedTrack.Proofs.Layout.SpacingMoves

/-! # Collapsed gaps

Collapsing the gaps of an argument and spacing it without operators cut a text into the same
lexemes. So a run of the writer is also an induction over what collapsing does, and spacing
collapsed code leaves it collapsed.
-/

namespace GuidedTrack.Layout

open Text List

variable {after : After} {c : Char} {g b cs : List Char} {style : Style} {before : Before}
  {rest lex tail : List Char}

def oneGap (g : List Char) : List Char :=
  if g.isEmpty then [] else [' ']

theorem collapseRuns_gaps (hg : Gaps g) (hc : isGap c = false) (rest : List Char) :
    collapseRuns (g ++ c :: rest) = oneGap g ++ collapseRuns (c :: rest) := by
  cases g with
  | nil => rfl
  | cons d g =>
    have hd : isGap d = true := hg d mem_cons_self
    have hrest : (g ++ c :: rest).drop (gapLength (g ++ c :: rest)) = c :: rest := by
      rw [drop_gapLength,
        dropWhile_append_of_pos fun e he => hg e (mem_cons_of_mem d he)]
      simp [hc]
    rw [cons_append, collapseRuns, hrest]
    rcases isGap_iff.mp hd with rfl | rfl <;> simp [Token.isQuote, isGap, oneGap]

theorem collapseRuns_cons (hc : isGap c = false) (hquote : Token.isQuote c = false)
    (hdash : c = '-' → rest.head? ≠ some '-') :
    collapseRuns (c :: rest) = c :: collapseRuns rest := by
  have hcomment : (c == '-' && rest.head? == some '-') = false := by grind
  rw [collapseRuns, hcomment]
  simp [hquote, hc]

theorem Moves.collapse_lexeme (h : Moves style false b before c lex tail after)
    (hc : isGap c = false) :
    collapseRuns (c :: (lex ++ tail)) = c :: (lex ++ collapseRuns tail) := by
  cases h with
  | literal hquote hlength => simp [collapseRuns, hquote, hlength]
  | comment hnext => simp [collapseRuns, Token.isQuote, hnext]
  | arrow hon | tightArrow hon => cases hon
  | comparison hon | sign hon | operator hon => cases hon.1
  | comma => exact collapseRuns_cons hc (by decide) (by simp)
  | opening hmem =>
    simp only [openingBrackets, mem_cons, not_mem_nil, or_false] at hmem
    rcases hmem with rfl | rfl | rfl <;> exact collapseRuns_cons hc (by decide) (by simp)
  | closing hmem =>
    simp only [closingBrackets, mem_cons, not_mem_nil, or_false] at hmem
    rcases hmem with rfl | rfl | rfl <;> exact collapseRuns_cons hc (by decide) (by simp)
  | plain hquote hminus => exact collapseRuns_cons hc hquote fun h => (hminus h).1

theorem collapseRuns_nil : collapseRuns [] = [] := by
  rw [collapseRuns]

theorem collapseRuns_cons_gap (hc : isGap c = true) (rest : List Char) :
    collapseRuns (c :: rest) = ' ' :: collapseRuns (rest.dropWhile isGap) := by
  rw [collapseRuns, drop_gapLength]
  rcases isGap_iff.mp hc with rfl | rfl <;> simp [Token.isQuote, isGap]

theorem head?_collapseRuns (cs : List Char) :
    (collapseRuns cs).head? = cs.head? ∨ ∀ d ∈ (collapseRuns cs).head?, breaks d = true := by
  cases cs with
  | nil => exact .inl (by rw [collapseRuns_nil])
  | cons c rest =>
    by_cases hc : isGap c = true
    · rw [collapseRuns_cons_gap hc]
      exact .inr (by simp [breaks, isGap])
    · rw [collapseRuns]
      simp only [hc]
      left
      split
      · rfl
      split <;> rfl

/-! ## Collapsing along a run -/

theorem collapseRuns_step (gaps : Gaps g) (head : isGap c = false)
    (moves : Moves style false b before c lex tail after) :
    collapseRuns (g ++ c :: (lex ++ tail)) = oneGap g ++ c :: (lex ++ collapseRuns tail) := by
  rw [collapseRuns_gaps gaps head, moves.collapse_lexeme head]

theorem gap_of_mem_oneGap : Gaps (oneGap g) := by
  intro d hd
  unfold oneGap at hd
  split at hd
  · cases hd
  · rw [mem_singleton.mp hd]
    decide

theorem oneGap_oneGap (g : List Char) : oneGap (oneGap g) = oneGap g := by
  unfold oneGap
  split <;> simp

theorem collapseRuns_collapseRuns (h : Trimmed cs) :
    collapseRuns (collapseRuns cs) = collapseRuns cs := by
  refine h.lexemes (motive := fun cs => collapseRuns (collapseRuns cs) = collapseRuns cs)
    (by rw [collapseRuns_nil, collapseRuns_nil]) ?_
  intro b g lex tail c before after gaps head moves ih
  have hmoves : Moves {} false b before c lex (collapseRuns tail) after :=
    moves.congr (by rintro rfl; exact collapseRuns_nil) fun _ => head?_collapseRuns tail
  rw [collapseRuns_step gaps head moves, collapseRuns_step gap_of_mem_oneGap head hmoves,
    oneGap_oneGap, ih]

theorem getLast?_collapseRuns (h : Trimmed cs) : (collapseRuns cs).getLast? = cs.getLast? := by
  refine h.lexemes (motive := fun cs => (collapseRuns cs).getLast? = cs.getLast?)
    (by rw [collapseRuns_nil]) ?_
  intro b g lex tail c before after gaps head moves ih
  rw [collapseRuns_step gaps head moves]
  simp [getLast?_append, getLast?_cons, ih]

theorem oneGap_eq_self (hg : Gaps g) (hc : isGap c = false) {u v : List Char}
    (h : oneGap g ++ c :: u = g ++ c :: v) : oneGap g = g ∧ u = v := by
  cases g with
  | nil => simpa [oneGap] using h
  | cons d g =>
    simp only [oneGap, isEmpty_cons, Bool.false_eq_true, if_false, cons_append,
      nil_append, List.cons.injEq] at h
    obtain ⟨rfl, h⟩ := h
    cases g with
    | nil => simpa [oneGap] using h
    | cons e g =>
      obtain ⟨rfl, -⟩ := List.cons.inj h
      rw [hg c (by simp)] at hc
      cases hc

theorem oneGap_gap (before : Before) (after : After) (first : Bool) (c : Char) (h : oneGap g = g) :
    oneGap (before.gap first (after.gap c g)) = before.gap first (after.gap c g) := by
  have hafter : after.gap c g = [] ∨ after.gap c g = [' '] := by
    cases after with
    | keep =>
      unfold oneGap at h
      split at h
      · exact .inl h.symm
      · exact .inr h.symm
    | drop => exact .inl rfl
    | space => exact .inr rfl
    | comma =>
      simp only [After.gap]
      split
      · exact .inl rfl
      · exact .inr rfl
  rcases hafter with hgap | hgap <;> rw [hgap] <;> cases before <;> cases first <;>
    simp [Before.gap, oneGap]

theorem Spaced.collapsed {t : List Char} (h : Spaced style false after b cs t)
    (hcs : collapseRuns cs = cs) : collapseRuns t = t := by
  induction h with
  | done => exact hcs
  | @lexeme after after' before b g h lex tail t c gaps head moves gap rest ih =>
    have hgaps : Gaps h := gap ▸ gap_of_mem_before (gap_of_mem_gap gaps)
    rw [collapseRuns_step gaps head moves] at hcs
    obtain ⟨hg, htail⟩ := oneGap_eq_self gaps head hcs
    have hone : oneGap h = h := by rw [gap, oneGap_gap _ _ _ _ hg]
    rw [collapseRuns_step hgaps head (moves.output rest (by simp)), hone,
      ih (append_cancel_left htail)]

theorem collapse_eq_collapseRuns (h : Trimmed cs) : collapse cs = collapseRuns cs := by
  refine rdropWhile_eq_self_iff.mpr fun hne => ?_
  have hlast := getLast?_collapseRuns h
  rw [getLast?_eq_getLast_of_ne_nil hne] at hlast
  have hgap := h _ hlast.symm
  simp only [isGap, Bool.or_eq_false_iff] at hgap
  simpa using hgap.1

theorem collapse_trimmed (h : Trimmed cs) : Trimmed (collapse cs) := by
  rw [collapse_eq_collapseRuns h]
  simpa only [Trimmed, getLast?_collapseRuns h] using h

theorem collapse_code_collapse (style : Style) (h : Trimmed cs) :
    collapse (code style false (collapse cs)) = code style false (collapse cs) := by
  have hcollapsed : collapseRuns (collapse cs) = collapse cs := by
    rw [collapse_eq_collapseRuns h, collapseRuns_collapseRuns h]
  obtain ⟨t, ht⟩ := spaced_exists style false .keep [] (collapse cs) (collapse_trimmed h)
  rw [collapse_eq_collapseRuns (code_trimmed style false (collapse_trimmed h)),
    code_of_spaced ht, ht.collapsed hcollapsed]

theorem collapse_cons (hc : isGap c = false) (h : Trimmed (c :: rest)) :
    ∃ t, collapse (c :: rest) = c :: t := by
  rw [collapse_eq_collapseRuns h, collapseRuns]
  simp only [hc]
  split
  · exact ⟨_, rfl⟩
  split <;> exact ⟨_, rfl⟩

theorem solid_collapse (h : Trimmed cs) : solid (collapse cs) = solid cs := by
  rw [collapse_eq_collapseRuns h]
  refine h.lexemes (motive := fun cs => solid (collapseRuns cs) = solid cs)
    (by rw [collapseRuns_nil]) ?_
  intro b g lex tail c before after gaps head moves ih
  rw [collapseRuns_step gaps head moves, ← cons_append, ← cons_append]
  simp only [solid_append, solid_gaps gap_of_mem_oneGap, solid_gaps gaps, ih]

theorem mem_code_collapse (h : Trimmed cs) {d : Char} (hd : d ∈ code style false (collapse cs)) :
    isGap d = true ∨ d ∈ cs :=
  mem_of_solid_eq ((solid_code style false (collapse_trimmed h)).trans (solid_collapse h)) hd

end GuidedTrack.Layout
