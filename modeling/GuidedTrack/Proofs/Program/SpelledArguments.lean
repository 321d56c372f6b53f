import GuidedTrack.Program
import GuidedTrack.Proofs.Token.LineTokens
import GuidedTrack.Proofs.WordCharacters

/-! # Spelled anew

The text that some tokens of a line are spelled with has the length of the stretch they were scanned
from, and stays on the line. So what is scanned out of it stands where those tokens do.
-/

namespace GuidedTrack

open List Program

variable {cs piece : List Char} {token : Token}

namespace Text

theorem length_lowerAux {before : List Char} (h : ∀ c ∈ cs, c.isAlpha = true) :
    (lowerAux before cs).length = cs.length := by
  induction cs generalizing before with
  | nil => rfl
  | cons c cs ih =>
    obtain ⟨hc, hcs⟩ := forall_mem_cons.mp h
    have hne : c ≠ 'İ' := by
      rintro rfl
      exact absurd hc (by decide)
    rw [lowerAux, if_neg hne, length_append, ih hcs, length_cons, Nat.add_comm]
    split <;> rfl

end Text

namespace Token

open Source Text

variable {P : Position → Prop} {lo hi : Int} {tokens : List Token}

def respelled (token : Token) : List Char :=
  (if token.kind = .comment then "--" ++ token.text else token.text).toList

theorem spelling_cons (cursor : Int) (token : Token) (tokens : List Token) :
    (spelling cursor (token :: tokens)).toList =
      replicate (token.span.start.offset - cursor).toNat ' ' ++ token.respelled ++
        (spelling token.span.stop.offset tokens).toList := by
  simp [spelling, gap, Token.respelled]

/-- A token is spelled anew as it stands, or is an operator spelled as a word, put in lower case. -/
theorem respelled_eq (hspells : token.Spells piece) (hkind : token.kind.isDirective = false) :
    token.respelled = piece ∨
      isWordOperator piece = true ∧ token.respelled = (lower (String.ofList piece)).toList := by
  unfold Spells at hspells
  unfold Token.respelled
  split at hspells
  · rename_i heq
    rw [heq] at hkind
    cases hkind
  · rename_i heq
    rw [heq] at hkind
    cases hkind
  · rename_i heq
    rw [if_pos heq, hspells, String.toList_append]
    exact .inl rfl
  · rename_i heq
    rw [if_neg (by rw [heq]; decide)]
    split at hspells
    · rename_i hword
      rw [isWordOperator, hspells]
      exact .inr ⟨contains_iff_mem.mpr hword, rfl⟩
    · exact .inl hspells.symm
  · rename_i hcomment _
    rw [if_neg hcomment]
    exact .inl hspells.symm

theorem Solid.respelled (h : token.Solid P piece) (hkind : token.kind.isDirective = false) :
    token.respelled.length = piece.length ∧ Inline token.respelled := by
  rcases respelled_eq h.spells hkind with heq | ⟨hword, heq⟩
  · rw [heq]
    exact ⟨rfl, h.inline⟩
  · have hall : ∀ word ∈ Vocabulary.wordOperators, word.toList.all isInline = true := by decide
    rw [heq]
    refine ⟨?_, all_eq_true.mp (hall _ (contains_iff_mem.mp hword))⟩
    rw [lower, String.toList_ofList, String.toList_ofList,
      length_lowerAux (isAlpha_of_isWordOperator hword)]

/-- What some tokens of a line are spelled with fits between the two ends of their row. -/
theorem SolidChain.spelling (h : SolidChain P lo hi tokens)
    (hkinds : ∀ token ∈ tokens, token.kind.isDirective = false) :
    lo + (spelling lo tokens).toList.length ≤ hi ∧
      Inline ((spelling lo tokens).toList) := by
  induction tokens generalizing lo with
  | nil =>
    have := h.chained.le
    simpa [spelling] using this
  | cons token tokens ih =>
    obtain ⟨htoken, htokens⟩ := forall_mem_cons.mp hkinds
    obtain ⟨⟨piece, hsolid⟩, hstart, hfilled, hrest⟩ := h.uncons
    obtain ⟨hlength, hinline⟩ := hsolid.respelled htoken
    obtain ⟨hbound, hmore⟩ := ih hrest htokens
    have hstop : token.span.stop.offset = token.span.start.offset + piece.length := by
      rw [hsolid.stop]
      rfl
    rw [spelling_cons]
    refine ⟨?_, ?_⟩
    · simp only [length_append, length_replicate, hlength]
      omega
    · simp only [forall_mem_append]
      refine ⟨⟨fun c hc => ?_, hinline⟩, hmore⟩
      rw [eq_of_mem_replicate hc]
      rfl

/-! ## Kept texts -/

/-- A text that is the same when its tokens are spelled anew: its blanks are spaces, and what spells
an operator as a word is in lower case. -/
structure Kept (cs : List Char) : Prop where
  blanks : ∀ c ∈ cs, isBlank c = true → c = ' '
  words : ∀ word, word <:+: cs → isWordOperator word = true →
    lower (String.ofList word) = String.ofList word

theorem Kept.within {part : List Char} (h : Kept cs) (hpart : part <:+: cs) : Kept part where
  blanks c hc := h.blanks c (hpart.subset hc)
  words word hword := h.words word (hword.trans hpart)

theorem lower_of_isLower (h : ∀ c ∈ cs, c.isLower = true) (before : List Char) :
    lowerAux before cs = cs := by
  have hletters : ∀ n ∈ range 26, lowerSimple (Char.ofNat (n + 97)) = Char.ofNat (n + 97) := by
    decide +kernel
  induction cs generalizing before with
  | nil => rfl
  | cons c cs ih =>
    obtain ⟨hc, hcs⟩ := forall_mem_cons.mp h
    have hrange := isLower_iff_toNat.mp hc
    have hsimple := hletters (c.toNat - 97) (by rw [mem_range]; omega)
    rw [Nat.sub_add_cancel hrange.1, Char.ofNat_toNat] at hsimple
    have hsigma : c ≠ 'Σ' := by
      rintro rfl
      exact absurd hrange (by decide)
    have hdotted : c ≠ 'İ' := by
      rintro rfl
      exact absurd hrange (by decide)
    rw [lowerAux, if_neg hsigma, if_neg hdotted, hsimple, ih hcs]
    rfl

/-- A text without capitals is kept if its blanks are spaces. -/
theorem kept_of_not_isUpper (blanks : ∀ c ∈ cs, isBlank c = true → c = ' ')
    (h : ∀ c ∈ cs, c.isUpper = false) : Kept cs where
  blanks := blanks
  words word hword hoperator := by
    have hlower : ∀ c ∈ word, c.isLower = true := by
      intro c hc
      have halpha := isAlpha_of_isWordOperator hoperator c hc
      rwa [isAlpha_eq, h c (hword.subset hc), Bool.false_or] at halpha
    rw [lower, String.toList_ofList, lower_of_isLower hlower]

theorem respelled_of_kept (hspells : token.Spells piece) (hkind : token.kind.isDirective = false)
    (h : Kept piece) : token.respelled = piece := by
  rcases respelled_eq hspells hkind with heq | ⟨hword, heq⟩
  · exact heq
  · rw [heq, h.words piece (infix_refl _) hword, String.toList_ofList]

/-- A kept text is spelled as it is, up to the blanks at its end. -/
theorem Row.spelling_eq {p : Position} (h : Row p cs tokens) (hkept : Kept cs)
    (hkinds : ∀ token ∈ tokens, token.kind.isInner = true) :
    ∃ n, cs = (spelling p.offset tokens).toList ++ replicate n ' ' := by
  induction h with
  | nil => exact ⟨0, rfl⟩
  | @blank p c cs tokens hblank rest ih =>
    obtain ⟨n, hn⟩ := ih (hkept.within (suffix_cons c cs).isInfix) hkinds
    obtain rfl := hkept.blanks c mem_cons_self hblank
    cases tokens with
    | nil => exact ⟨n + 1, by rw [hn]; rfl⟩
    | cons token tokens =>
      obtain ⟨k, hk⟩ := rest.exists_start mem_cons_self
      have hstart : token.span.start.offset = p.offset + 1 + k := by
        rw [hk]
        rfl
      have hgap : (token.span.start.offset - p.offset).toNat =
          (token.span.start.offset - (p.advance 1).offset).toNat + 1 := by
        simp only [hstart, Position.advance]
        omega
      refine ⟨n, ?_⟩
      rw [spelling_cons, hgap, replicate_succ]
      rw [spelling_cons] at hn
      exact congrArg (' ' :: ·) hn
  | @token p token piece cs tokens span spells filled kind rest ih =>
    obtain ⟨htoken, htokens⟩ := forall_mem_cons.mp hkinds
    obtain ⟨n, hn⟩ := ih (hkept.within (suffix_append piece cs).isInfix) htokens
    have hinner : token.kind.isDirective = false := by
      simp only [Kind.isInner, Bool.and_eq_true, Bool.not_eq_true'] at htoken
      exact htoken.2
    have hpiece := respelled_of_kept spells hinner (hkept.within (prefix_append piece cs).isInfix)
    refine ⟨n, ?_⟩
    rw [spelling_cons, hpiece, span, Int.sub_self, append_assoc, hn]
    rfl
  | @mark p kind cs tokens empty rest ih =>
    have hkind := hkinds _ mem_cons_self
    rcases empty with rfl | rfl <;> cases hkind

/-- The tokens of an expression argument stand where its first scan found them. -/
theorem SolidChain.expressionTokens {p : Position} {text : List Char} {first : Token}
    {rest : List Token}
    (h : SolidChain P lo hi (first :: rest)) (hwritten : Written P p text (first :: rest))
    (hkinds : ∀ token ∈ first :: rest, token.kind.isDirective = false) :
    SolidChain P lo hi (expressionTokens first rest) := by
  unfold Program.expressionTokens
  dsimp only
  split
  · obtain ⟨n, hn⟩ := hwritten.row.exists_start mem_cons_self
    obtain ⟨hlength, hinline⟩ := h.fitted.spelling hkinds
    generalize hspelled : Program.spelling first.span.start.offset (first :: rest) = spelled
      at hlength hinline ⊢
    have hmem : rest.getLastD first ∈ first :: rest := getLastD_mem_cons
    have hlast := (hwritten.solidChain.chained.bounds (mem_map_of_mem hmem)).2.2
    have hbounds := h.chained.bounds (mem_map_of_mem hmem)
    obtain ⟨-, hlo, -, -⟩ := h.uncons
    have hstart : first.span.start.offset = p.offset + n := by
      rw [hn]
      rfl
    have hwritten' : Written P first.span.start spelled.toList
        (scanExpression none first.span.start spelled.toList).1 := by
      refine written_scanExpression hinline fun k hk => ?_
      rw [hn, Position.advance_advance]
      exact hwritten.places _ (by omega)
    rw [← String.ofList_toList (s := spelled), dropLast_ofExpression hinline]
    have hchain := hwritten'.solidChain
    exact ⟨hchain.chained.widen hlo (by omega), hchain.solid⟩
  · exact h

end Token
end GuidedTrack
