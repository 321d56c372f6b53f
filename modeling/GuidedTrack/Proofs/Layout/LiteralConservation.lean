import GuidedTrack.Proofs.Layout.LexemeBoundaries
import GuidedTrack.Proofs.Layout.LineSteps
import GuidedTrack.Proofs.Token.LiteralPlaces

/-! # String literals and comments in code

Which stretches of code are string literals and which is its comment can be told without the other
lexemes: no other lexeme holds a quote, or a dash before another. So the scanner and the layout of
code see the same ones, and spacing code keeps them all.
-/

namespace GuidedTrack.Layout

open Text Token List

variable {c : Char} {rest lex : List Char} {after : After} {g tail b cs : List Char}

/-- What counts of a literal: its kind and its text, for a comment without the gaps at its end. -/
def fragment (token : Token) : Kind × List Char :=
  (token.kind, if token.kind = .comment then dropRightWhile isGap token.text.toList
    else token.text.toList)

/-- The string literals of a stretch of code and the comment behind them. -/
def fragments : List Char → List (Kind × List Char)
  | [] => []
  | c :: rest =>
    if isQuote c then
      match rest.findIdx? (· == c) with
      | none => []
      | some i => (.string, c :: rest.take (i + 1)) :: fragments (rest.drop (i + 1))
    else if c = '-' ∧ rest.head? = some '-' then
      [(.comment, dropRightWhile isGap (rest.drop 1))]
    else fragments rest
  termination_by cs => cs.length
  decreasing_by all_goals simp only [length_cons, length_drop]; omega

theorem fragments_nil : fragments [] = [] := by
  rw [fragments]

theorem fragments_cons (hquote : isQuote c = false) (hdashes : c = '-' → rest.head? ≠ some '-') :
    fragments (c :: rest) = fragments rest := by
  rw [fragments, if_neg (by simp [hquote]), if_neg fun h => hdashes h.1 h.2]

theorem fragments_comment (rest : List Char) :
    fragments ('-' :: '-' :: rest) = [(.comment, dropRightWhile isGap rest)] := by
  rw [fragments]
  rfl

theorem fragments_closed (hquote : isQuote c = true) {inner : List Char} (hinner : c ∉ inner)
    (tail : List Char) :
    fragments (c :: (inner ++ [c] ++ tail)) = (.string, c :: (inner ++ [c])) :: fragments tail := by
  have hfind : (inner ++ [c] ++ tail).findIdx? (· == c) = some inner.length := by
    have hnone : inner.findIdx? (· == c) = none :=
      findIdx?_eq_none_iff.mpr fun d hd => by simpa using ne_of_mem_of_not_mem hd hinner
    simp [findIdx?_append, hnone, findIdx?_cons]
  have hlength : inner.length + 1 = (inner ++ [c]).length := by simp
  rw [fragments, if_pos hquote, hfind]
  simp only [hlength, take_left, drop_left]

theorem fragments_unclosed (hquote : isQuote c = true) (hrest : c ∉ rest) :
    fragments (c :: rest) = [] := by
  have hfind : rest.findIdx? (· == c) = none :=
    findIdx?_eq_none_iff.mpr fun d hd => by simpa using ne_of_mem_of_not_mem hd hrest
  rw [fragments, if_pos hquote, hfind]

theorem fragments_plain (h : ∀ d ∈ lex, isQuote d = false ∧ d ≠ '-') (tail : List Char) :
    fragments (lex ++ tail) = fragments tail := by
  induction lex with
  | nil => rfl
  | cons d lex ih =>
    obtain ⟨⟨hquote, hdash⟩, hlex⟩ := forall_mem_cons.mp h
    rw [cons_append, fragments_cons hquote fun hd => absurd hd hdash, ih hlex]

theorem plain_of_isGap {d : Char} (h : isGap d = true) : isQuote d = false ∧ d ≠ '-' := by
  rcases isGap_iff.mp h with rfl | rfl <;> decide

theorem fragments_gaps (hg : Gaps g) (cs : List Char) :
    fragments (g ++ cs) = fragments cs :=
  fragments_plain (fun d hd => plain_of_isGap (hg d hd)) cs

/-! ## Literals as they are scanned -/

/-- A lexeme that is no literal holds none, and the others are literals as a whole. -/
theorem fragments_lexeme {kind : Kind} (h : Lexes c lex tail kind)
    (hdashes : c = '-' → (lex ++ tail).head? ≠ some '-') :
    fragments (c :: (lex ++ tail)) =
      (if kind = .string then [(.string, c :: lex)] else []) ++ fragments tail := by
  cases hquote : isQuote c with
  | true =>
    have hlexeme := h.lexeme_eq
    simp only [lexeme, isDigit_of_isQuote hquote, ne_minus_of_isQuote hquote, hquote,
      Bool.false_and, Bool.false_eq_true, if_false, if_true, quotedLexeme] at hlexeme
    rw [fragments, if_pos hquote]
    cases hfind : (lex ++ tail).findIdx? (· == c) with
    | none =>
      -- a quote that is not closed takes all that stands behind it
      rw [hfind] at hlexeme
      obtain ⟨rfl, hlength⟩ := Prod.mk.inj hlexeme
      obtain rfl : tail = [] := eq_nil_of_length_eq_zero (by
        rw [length_append] at hlength
        omega)
      simp [fragments_nil]
    | some i =>
      rw [hfind] at hlexeme
      obtain ⟨rfl, hlength⟩ := Prod.mk.inj hlexeme
      simp [hlength]
  | false =>
    have hkind : kind ≠ .string := by
      rintro rfl
      rw [show isQuote c = true from h.of_kind] at hquote
      cases hquote
    have hplain : ∀ d ∈ lex, isQuote d = false ∧ d ≠ '-' := by
      rcases lexes_inner h hquote with hinner | ⟨-, rfl⟩ | ⟨-, rfl⟩
      · exact fun d hd => ⟨(hinner d hd).quote, (hinner d hd).ne_minus⟩
      · simp [isQuote]
      · simp [isQuote]
    rw [fragments_cons hquote hdashes, fragments_plain hplain, if_neg hkind, nil_append]

theorem fragments_scanExpression (p : Position) (cs : List Char) :
    ((scanExpression none p cs).1.filter isLiteral).map fragment = fragments cs := by
  induction cs using lexemes_induction generalizing p with
  | nil => simp [scanExpression, fragments_nil]
  | gap c cs hgap ih =>
    have hplain := plain_of_isGap hgap
    rw [scanExpression_gap hgap, fragments_cons hplain.1 fun hc => absurd hc hplain.2, ih]
  | comment cs =>
    rw [scanExpression_comment, fragments_comment]
    simp [isLiteral, fragment, comment, covering]
  | lexeme c lex tail kind hgap hdashes hlexes ih =>
    rw [scanExpression_lexeme hgap hdashes hlexes, fragments_lexeme hlexes hdashes,
      ← ih (p.advance (lex.length + 1)), filter_cons]
    have hcomment : kind ≠ .comment := by
      rintro rfl
      cases hlexes.isLexeme
    by_cases hkind : kind = .string
    · subst hkind
      simp [isLiteral, fragment, covering, lexemeText]
    · simp [isLiteral, covering, hkind, hcomment]

/-! ## Literals as they are laid out -/

section

variable {style : Style} {operators : Bool}

theorem Moves.fragments_eq {before : Before} (h : Moves style operators b before c lex tail after) :
    fragments (c :: (lex ++ tail)) = fragments (c :: lex) ++ fragments tail := by
  -- symbols have one or two characters, none of them a quote or the start of a comment
  have hone {c : Char} (hquote : isQuote c = false) (tail : List Char)
      (hdashes : c = '-' → tail.head? ≠ some '-') :
      fragments (c :: ([] ++ tail)) = fragments [c] ++ fragments tail := by
    have hself : fragments [c] = [] := (fragments_cons hquote (by simp)).trans fragments_nil
    rw [nil_append, fragments_cons hquote hdashes, hself, nil_append]
  have htwo {c d : Char} (hquotes : isQuote c = false ∧ isQuote d = false) (hd : d ≠ '-')
      (tail : List Char) : fragments (c :: ([d] ++ tail)) = fragments [c, d] ++ fragments tail := by
    rw [fragments_cons hquotes.1 (by simp [hd]), fragments_cons hquotes.1 (by simp [hd]),
      singleton_append]
    exact hone hquotes.2 tail fun heq => absurd heq hd
  cases h with
  | literal quote length =>
    by_cases htail : tail = []
    · rw [htail, append_nil, fragments_nil, append_nil]
    · obtain ⟨inner, rfl, hinner⟩ := literal_closed length htail
      have hclosed := fragments_closed quote hinner []
      rw [append_nil, fragments_nil] at hclosed
      rw [fragments_closed quote hinner, hclosed, singleton_append]
  | comment next => rw [append_nil, fragments_nil, append_nil]
  | arrow | tightArrow => exact htwo (by decide) (by decide) tail
  | comparison on angle => rcases angle with rfl | rfl <;> exact htwo (by decide) (by decide) tail
  | sign on position next => exact hone (by decide) tail fun _ => next.1
  | operator on mem minus angle =>
    refine hone ?_ tail fun hc => (minus hc).2.1
    simp only [operatorChars, mem_cons, not_mem_nil, or_false] at mem
    rcases mem with rfl | rfl | rfl | rfl | rfl | rfl | rfl | rfl <;> decide
  | comma => exact hone (by decide) tail (by simp)
  | opening mem | closing mem =>
    simp only [openingBrackets, closingBrackets, mem_cons, not_mem_nil, or_false] at mem
    rcases mem with rfl | rfl | rfl <;> exact hone (by decide) tail (by simp)
  | plain quote minus symbol comma bracket => exact hone quote tail fun hc => (minus hc).1

theorem Spaced.fragments_eq {t : List Char} (h : Spaced style operators after b cs t) :
    fragments t = fragments cs := by
  induction h with
  | done => rfl
  | @lexeme after after' before b g h lex tail t c gaps head moves gap rest ih =>
    have hgaps : Gaps h := gap ▸ gap_of_mem_before (gap_of_mem_gap gaps)
    rw [fragments_gaps hgaps, fragments_gaps gaps, (moves.output rest (by simp)).fragments_eq,
      moves.fragments_eq, ih]

end

theorem fragments_code (style : Style) (operators : Bool) (h : Trimmed cs) :
    fragments (code style operators cs) = fragments cs := by
  obtain ⟨t, ht⟩ := spaced_exists style operators .keep [] cs h
  rw [code_of_spaced ht, ht.fragments_eq]

theorem fragments_afterSpace {f : List Char → List Char} (h : Trimmed rest)
    (hf : ∀ {cs : List Char}, Trimmed cs → fragments (f cs) = fragments cs) :
    fragments (afterSpace f rest) = fragments rest := by
  have hlead : fragments rest = fragments (rest.dropWhile isGap) := by
    conv_lhs => rw [← takeWhile_append_dropWhile (p := isGap) (l := rest)]
    exact fragments_gaps (fun d hd => mem_takeWhile_imp hd) _
  simp only [afterSpace, hlead]
  split
  · rename_i hempty
    rw [List.isEmpty_iff.mp hempty]
  · rw [fragments_cons (by decide) (by simp), hf h.dropWhile]

/-- Gaps at the end of code are in no literal, but for those at the end of a comment. -/
theorem fragments_trailing (hg : Gaps g) (cs : List Char) :
    fragments (cs ++ g) = fragments cs := by
  fun_induction fragments cs with
  | case1 => rw [nil_append, ← append_nil g, fragments_gaps hg, fragments_nil]
  | case2 c rest hquote hfind =>
    have hrest : c ∉ rest := fun hmem => by
      simpa using findIdx?_eq_none_iff.mp hfind c hmem
    refine fragments_unclosed hquote fun hmem => ?_
    rcases mem_append.mp hmem with hmem | hmem
    · exact hrest hmem
    · rw [(plain_of_isGap (hg c hmem)).1] at hquote
      cases hquote
  | case3 c rest hquote i hfind ih =>
    have hi : i + 1 ≤ rest.length := (findIdx?_eq_some_iff_getElem.mp hfind).choose
    have hfind' : (rest ++ g).findIdx? (· == c) = some i := by
      rw [findIdx?_append, hfind]
      rfl
    rw [cons_append, fragments, if_pos hquote, hfind']
    simp only [take_append_of_le_length hi, drop_append_of_le_length hi, ih]
  | case4 c rest hquote hdashes =>
    obtain ⟨rfl, hnext⟩ := hdashes
    obtain ⟨tail, rfl⟩ := eq_cons_of_head? hnext
    rw [cons_append, cons_append, fragments_comment]
    exact congrArg (fun text => [(Kind.comment, text)]) (rdropWhile_append_of_forall tail hg)
  | case5 c rest hquote hdashes ih =>
    rw [cons_append, fragments_cons (by simpa using hquote), ih]
    intro hc hnext
    cases rest with
    | nil => exact absurd rfl (plain_of_isGap (hg '-' (mem_of_head? hnext))).2
    | cons d rest => exact hdashes ⟨hc, hnext⟩

end GuidedTrack.Layout
