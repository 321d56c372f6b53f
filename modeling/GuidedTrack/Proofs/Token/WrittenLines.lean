import GuidedTrack.Proofs.SpanRows
import GuidedTrack.Proofs.Token.PlaceAdvance
import GuidedTrack.Proofs.Token.ScannerRows

/-! # Tokens of one line

The tokens that are written on one line lie in a row over its text. What is scanned again out of a
line, as the inside of a string literal is, is written on that line too.
-/

namespace GuidedTrack.Token

open Source Text List Position

variable {P : Position → Prop} {cs : List Char} {p : Position}

structure Solid (P : Position → Prop) (token : Token) (piece : List Char) : Prop where
  stop : token.span.stop = token.span.start.advance piece.length
  spells : token.Spells piece
  filled : piece ≠ []
  inline : ∀ c ∈ piece, isInline c = true
  places : ∀ k ≤ piece.length, P (token.span.start.advance k)

namespace Solid

variable {token : Token} {piece : List Char}

theorem start_place (h : Solid P token piece) : P token.span.start := by
  simpa using h.places 0 (Nat.zero_le _)

theorem stop_place (h : Solid P token piece) : P token.span.stop := by
  rw [h.stop]
  exact h.places _ (Nat.le_refl _)

end Solid

structure SolidChain (P : Position → Prop) (lo hi : Int) (tokens : List Token) : Prop where
  chained : Chained lo hi (tokens.map Token.span)
  solid : ∀ token ∈ tokens, ∃ piece, token.Solid P piece

namespace SolidChain

variable {lo hi : Int} {token : Token} {tokens others : List Token}

theorem widen {first last : Int} (h : SolidChain P lo hi tokens) (hfirst : first ≤ lo)
    (hlast : hi ≤ last) :
    SolidChain P first last tokens :=
  ⟨h.chained.widen hfirst hlast, h.solid⟩

theorem sublist (h : SolidChain P lo hi tokens) (hsub : others.Sublist tokens) :
    SolidChain P lo hi others :=
  ⟨h.chained.sublist (hsub.map Token.span), fun token htoken => h.solid token (hsub.subset htoken)⟩

theorem split (h : SolidChain P lo hi (tokens ++ others)) :
    ∃ mid, SolidChain P lo mid tokens ∧ SolidChain P mid hi others := by
  have hchained := h.chained
  rw [map_append] at hchained
  obtain ⟨mid, htokens, hothers⟩ := hchained.split
  obtain ⟨hsolid, hrest⟩ := forall_mem_append.mp h.solid
  exact ⟨mid, ⟨htokens, hsolid⟩, ⟨hothers, hrest⟩⟩

theorem cut (h : SolidChain P lo hi (tokens ++ others)) (hlast : tokens.getLast? = some token) :
    SolidChain P lo token.span.stop.offset tokens ∧
        SolidChain P token.span.stop.offset hi others := by
  have hchained := h.chained
  rw [map_append] at hchained
  obtain ⟨htokens, hothers⟩ := hchained.cut (by rw [getLast?_map, hlast]; rfl)
  obtain ⟨hsolid, hrest⟩ := forall_mem_append.mp h.solid
  exact ⟨⟨htokens, hsolid⟩, ⟨hothers, hrest⟩⟩

theorem uncons (h : SolidChain P lo hi (token :: tokens)) :
    (∃ piece, token.Solid P piece) ∧ lo ≤ token.span.start.offset ∧
      token.span.start.offset < token.span.stop.offset ∧
      SolidChain P token.span.stop.offset hi tokens := by
  obtain ⟨hfirst, hrest⟩ := forall_mem_cons.mp h.solid
  cases h.chained with
  | cons after filled rest => exact ⟨hfirst, after, filled, rest, hrest⟩

theorem fitted (h : SolidChain P lo hi (token :: tokens)) :
    SolidChain P token.span.start.offset (tokens.getLastD token).span.stop.offset
        (token :: tokens) := by
  have hlast : (token :: tokens).getLast? = some (tokens.getLastD token) := by
    rw [getLast?_cons, getLastD_eq_getLast?]
  rw [← append_nil (token :: tokens)] at h
  cases (h.cut hlast).1.chained with
  | cons after filled rest => exact ⟨.cons (Int.le_refl _) filled rest, (h.cut hlast).1.solid⟩

end SolidChain

/-! ## Rows -/

theorem Row.split {p : Position} {cs : List Char} {ts us : List Token} (h : Row p cs (ts ++ us)) :
    ∃ as bs, cs = as ++ bs ∧ Row p as ts ∧ Row (p.advance as.length) bs us := by
  generalize hts : ts ++ us = tokens at h
  induction h generalizing ts with
  | nil =>
    obtain ⟨rfl, rfl⟩ := append_eq_nil_iff.mp hts
    exact ⟨[], [], rfl, .nil, .nil⟩
  | @blank p c cs tokens hblank rest ih =>
    obtain ⟨as, bs, rfl, has, hbs⟩ := ih hts
    refine ⟨c :: as, bs, rfl, .blank hblank has, ?_⟩
    simpa [Nat.add_comm] using hbs
  | @token p token piece cs tokens span spells filled kind rest ih =>
    cases ts with
    | nil =>
      subst hts
      exact ⟨[], piece ++ cs, rfl, .nil, by simpa using Row.token span spells filled kind rest⟩
    | cons first ts =>
      obtain ⟨rfl, hrest⟩ := List.cons.inj hts
      obtain ⟨as, bs, rfl, has, hbs⟩ := ih hrest
      refine ⟨piece ++ as, bs, (append_assoc ..).symm, .token span spells filled kind has, ?_⟩
      simpa using hbs
  | @mark p kind cs tokens empty rest ih =>
    cases ts with
    | nil =>
      subst hts
      exact ⟨[], cs, rfl, .nil, by simpa using Row.mark empty rest⟩
    | cons first ts =>
      obtain ⟨rfl, hrest⟩ := List.cons.inj hts
      obtain ⟨as, bs, rfl, has, hbs⟩ := ih hrest
      exact ⟨as, bs, rfl, .mark empty has, hbs⟩

theorem Row.exists_start {tokens : List Token} (h : Row p cs tokens) {token : Token}
    (htoken : token ∈ tokens) : ∃ n, token.span.start = p.advance n := by
  induction h with
  | nil => cases htoken
  | blank hblank rest ih =>
    obtain ⟨n, hn⟩ := ih htoken
    exact ⟨1 + n, by rw [hn, advance_advance]⟩
  | @token p other piece cs tokens span spells filled kind rest ih =>
    rcases mem_cons.mp htoken with rfl | htoken
    · exact ⟨0, by rw [span, advance_zero]⟩
    · obtain ⟨n, hn⟩ := ih htoken
      exact ⟨piece.length + n, by rw [hn, advance_advance]⟩
  | @mark p kind cs tokens empty rest ih =>
    rcases mem_cons.mp htoken with rfl | htoken
    · exact ⟨0, p.advance_zero.symm⟩
    · exact ih htoken

theorem Row.line_eq {tokens : List Token} (h : Row p cs tokens) {token : Token}
    (htoken : token ∈ tokens) : token.span.start.line = p.line := by
  obtain ⟨n, hn⟩ := h.exists_start htoken
  rw [hn, advance]

/-- Tokens with content over the text of a line, or over a part of it. The places of the text
satisfy `P`. -/
structure Written (P : Position → Prop) (p : Position) (text : List Char) (tokens : List Token) :
    Prop where
  row : Row p text tokens
  inline : ∀ c ∈ text, isInline c = true
  places : ∀ k ≤ text.length, P (p.advance k)
  content : ∀ token ∈ tokens, token.kind.isStructural = false

namespace Written

variable {p : Position} {text : List Char} {tokens others : List Token}

theorem split (h : Written P p text (tokens ++ others)) :
    ∃ as bs, text = as ++ bs ∧ Written P p as tokens ∧
      Written P (p.advance as.length) bs others := by
  obtain ⟨as, bs, rfl, has, hbs⟩ := h.row.split
  obtain ⟨hinline, hinline'⟩ := forall_mem_append.mp h.inline
  obtain ⟨hcontent, hcontent'⟩ := forall_mem_append.mp h.content
  have hplaces := h.places
  rw [length_append] at hplaces
  refine ⟨as, bs, rfl, ⟨has, hinline, fun k hk => hplaces k (by omega), hcontent⟩,
    ⟨hbs, hinline', fun k hk => ?_, hcontent'⟩⟩
  rw [advance_advance]
  exact hplaces _ (by omega)

theorem solidChain (h : Written P p text tokens) :
    SolidChain P p.offset (p.offset + text.length) tokens := by
  obtain ⟨hrow, hinline, hplaces, hcontent⟩ := h
  induction hrow with
  | nil => exact ⟨.nil (by simp), by simp⟩
  | @blank p c cs tokens hblank rest ih =>
    have hchain := ih (fun d hd => hinline d (mem_cons_of_mem c hd)) (fun k hk => ?_) hcontent
    · refine ⟨hchain.chained.widen ?_ ?_, hchain.solid⟩ <;>
        simp only [advance, length_cons] <;> omega
    · rw [advance_advance]
      exact hplaces _ (by rw [length_cons]; omega)
  | @token p token piece cs tokens span spells filled kind rest ih =>
    obtain ⟨hpiece, hcs⟩ := forall_mem_append.mp hinline
    rw [length_append] at hplaces
    have hchain := ih hcs (fun k hk => ?_) (forall_mem_cons.mp hcontent).2
    · have hlength := length_pos_iff.mpr filled
      refine ⟨.cons ?_ ?_ (hchain.chained.widen ?_ ?_),
        forall_mem_cons.mpr ⟨⟨piece, ?_⟩, hchain.solid⟩⟩
      · exact Int.le_of_eq (by rw [span])
      · simp only [span, advance]
        omega
      · exact Int.le_of_eq (by rw [span])
      · simp only [advance, length_append]
        omega
      · refine ⟨by rw [span], spells, filled, hpiece, fun k hk => ?_⟩
        rw [span]
        exact hplaces k (by omega)
    · rw [advance_advance]
      exact hplaces _ (by omega)
  | @mark p kind cs tokens empty rest ih =>
    have hkind := (forall_mem_cons.mp hcontent).1
    rcases empty with rfl | rfl <;> cases hkind

theorem onLine (h : Written P p text tokens) : Written (fun q => q.line = p.line) p text tokens :=
  ⟨h.row, h.inline, fun _ _ => rfl, h.content⟩

end Written

/-! ## Scanning a part of a line again -/

theorem ofExpression_of_inline (hinline : Inline cs) (origin : Position) :
    ofExpression (String.ofList cs) origin =
      (scanExpression none origin cs).1 ++ [mark .endOfInput (origin.advance cs.length)] := by
  rw [ofExpression, String.toList_ofList]
  by_cases hnil : cs = []
  · subst hnil
    simp [Source.lines, scanExpressionLines, scanExpression]
  · have hlines := lines_single hnil hinline (.inl rfl)
    rw [append_nil] at hlines
    simp [hlines, scanExpressionLines, lineBreak, Line.after]

theorem dropLast_ofExpression (hinline : Inline cs) (origin : Position) :
    (ofExpression (String.ofList cs) origin).dropLast = (scanExpression none origin cs).1 := by
  rw [ofExpression_of_inline hinline, dropLast_concat]

theorem written_scanExpression (hinline : Inline cs)
    (hplaces : ∀ k ≤ cs.length, P (p.advance k)) :
    Written P p cs (scanExpression none p cs).1 where
  row := row_scanExpression p cs
  inline := hinline
  places := hplaces
  content _ htoken := (isStructural_of_mem_scanExpression htoken).1

end GuidedTrack.Token
