import GuidedTrack.Proofs.Token.LineEndings
import GuidedTrack.Proofs.Token.LineLocality

/-! # Fragments of expressions

A fragment is scanned alike wherever its first character stands, so that the tokens of a text inside
a string can be read as if they had been scanned in place. And the scan of a line can be cut around
a string literal: nothing in front of a quote looks past it, and nothing behind one looks back.
-/

namespace GuidedTrack.Token

open Source Text List

/-! ## Other origins -/

theorem covers_scanExpressionLines {cs : List Char} (lines : List Line) {i : Nat}
    (hlines : Source.lines (cs.drop i) = lines) (hi : i ≤ cs.length) (hbetween : Between cs i) :
    Covers cs i cs.length (scanExpressionLines (place cs i) lines) := by
  induction lines generalizing i with
  | nil =>
    have hend := drop_eq_nil_iff.mp (lines_eq_nil hlines)
    obtain rfl : i = cs.length := by omega
    exact .token (laid_mark (.inr rfl) hi) .nil
  | cons line more ih =>
    obtain ⟨tail, hopens, hmore⟩ := opens_of_lines hlines
    obtain ⟨hafter, hnext⟩ := hopens.after_eq hbetween
    have hend := add_le_of_drop hopens.drop_ending (add_le_of_drop hopens.text hi)
    rw [Nat.add_assoc] at hend
    rw [scanExpressionLines, hafter]
    refine Covers.append (Covers.append ?_ (covers_lineBreak hopens hbetween hi))
      (ih (hopens.drop_after ▸ hmore) hend hnext)
    exact (row_scanExpression _ _).covers rfl hopens.text hi hopens.inline

theorem line_of_mem_ofExpression {text : String} {token : Token}
    (h : token ∈ ofExpression text .origin) :
    token.span.start.line = 1 + breaksBefore text.toList token.span.start.offset.toNat := by
  have hcovers : Covers text.toList 0 text.toList.length (ofExpression text .origin) :=
    covers_scanExpressionLines _ (by rw [drop_zero]) (Nat.zero_le _) (between_zero _)
  obtain ⟨i, j, hlaid, -⟩ := hcovers.mem h
  rw [hlaid.start]
  rfl

/-- A token of a fragment that starts where a source does, as it stands when the fragment starts at
`origin`. Its column counts on only if no line break of the text comes before the token. -/
def rebase (text : String) (origin : Position) (token : Token) : Token :=
  token.shift (origin.line - 1)
    (if breaksBefore text.toList token.span.start.offset.toNat = 0 then origin.column - 1 else 0)
    origin.offset

/-- Another origin moves the tokens of a fragment and changes nothing else in them: lines and
offsets count on from it everywhere, columns on the first line of the text. -/
theorem ofExpression_rebase (text : String) (line column offset : Int) :
    ofExpression text ⟨line, column, offset⟩ =
      (ofExpression text .origin).map (rebase text ⟨line, column, offset⟩) := by
  have horigin : (⟨line, column, offset⟩ : Position) =
      Position.origin.shift (line - 1) (column - 1) offset := by
    simp only [Position.origin, Position.shift, Position.mk.injEq]
    omega
  have hshift := scanExpressionLines_shift (line - 1) (column - 1) offset .origin
    (Source.lines text.toList)
  rw [← horigin] at hshift
  rw [ofExpression, hshift]
  refine map_congr_left fun token htoken => ?_
  have hline := line_of_mem_ofExpression htoken
  have hfirst : token.span.start.line = Position.origin.line ↔
      breaksBefore text.toList token.span.start.offset.toNat = 0 := by
    simp only [Position.origin]
    omega
  simp only [rebase, hfirst]

/-! ## String literals -/

/-- What a line is cut in front of by a gap, a closing bracket or a quote is scanned on its own, if
it ends neither in a comment nor in an open string. -/
theorem scanExpression_append {front back : List Char} (hback : back.head?.any isStop = true)
    {p : Position} (h : ∀ token ∈ (scanExpression none p front).1,
      token.kind ≠ .comment ∧ token.isOpenString = false) :
    (scanExpression none p (front ++ back)).1 =
      (scanExpression none p front).1 ++ (scanExpression none (p.advance front.length) back).1 := by
  induction front using lexemes_induction generalizing p with
  | nil => simp [scanExpression]
  | gap c cs hgap ih =>
    rw [scanExpression_gap hgap] at h ⊢
    rw [cons_append, scanExpression_gap hgap, ih h, Position.advance_advance,
      length_cons, Nat.add_comm 1]
  | comment cs =>
    rw [scanExpression_comment] at h
    exact absurd rfl (h _ mem_cons_self).1
  | lexeme c lex tail kind hgap hdashes hlexes ih =>
    rw [scanExpression_lexeme hgap hdashes hlexes] at h ⊢
    obtain ⟨⟨-, hclosed⟩, hrest⟩ := forall_mem_cons.mp h
    have hopen : ¬(isQuote c = true ∧ kind = .error) := by
      rintro ⟨hquote, rfl⟩
      simp [isOpenString, covering, lexemeText, hquote] at hclosed
    have hlexes' : Lexes c lex (tail ++ []) kind := by rwa [append_nil]
    have hdashes' : c = '-' → (lex ++ (tail ++ back)).head? ≠ some '-' := by
      intro hc
      have hold : (lex ++ tail ++ []).head? ≠ some '-' := by
        rw [append_nil]
        exact hdashes hc
      rw [← append_assoc]
      exact (meets_exchange _ _ hback).ne (by decide) hold
    rw [cons_append, append_assoc,
      scanExpression_lexeme hgap hdashes' (hlexes'.exchange hopen hback), ih hrest,
      Position.advance_advance, length_cons, length_append, cons_append,
      Nat.add_right_comm]

theorem scanExpression_string {quote : Char} (hquote : isQuote quote = true) {inner : List Char}
    (hinner : quote ∉ inner) (p : Position) (back : List Char) :
    (scanExpression none p (quote :: (inner ++ [quote] ++ back))).1 =
      spelled .string p (quote :: (inner ++ [quote])) ::
        (scanExpression none (p.advance (inner.length + 2)) back).1 := by
  obtain ⟨hgap, -, hdash⟩ := quote_facts hquote
  rw [scanExpression_lexeme hgap (fun hc => absurd hc hdash)
    (.quoted hquote (quotedLexeme_closed hinner back))]
  simp [spelled, lexemeText]

def enquote (quote : Char) (inner : String) : String :=
  String.ofList (quote :: (inner.toList ++ [quote]))

theorem toList_enquote (quote : Char) (inner : String) :
    (enquote quote inner).toList = quote :: (inner.toList ++ [quote]) :=
  String.toList_ofList

structure IsInner (quote : Char) (inner : String) : Prop where
  unquoted : quote ∉ inner.toList
  inline : ∀ c ∈ inner.toList, isInline c = true

theorem advance_eq_shift (p : Position) (n : Nat) : p.advance n = p.shift 0 n n := by
  simp [Position.advance, Position.shift]

theorem filter_ofExpression {text : String} (h : Inline text.toList)
    (origin : Position) :
    (ofExpression text origin).filter (·.kind ≠ .endOfInput) =
      (scanExpression none origin text.toList).1 := by
  rw [← String.ofList_toList (s := text), ofExpression_of_inline h, filter_append,
    String.toList_ofList]
  have hscan : ∀ token ∈ (scanExpression none origin text.toList).1,
      decide (token.kind ≠ .endOfInput) = true := by
    intro token htoken
    have hcontent := (isStructural_of_mem_scanExpression htoken).1
    rw [decide_eq_true_eq]
    rintro hkind
    rw [hkind] at hcontent
    cases hcontent
  rw [filter_eq_self.mpr hscan]
  exact append_nil _

section

variable {quote : Char} {before after : String} {origin : Position}

theorem ofExpression_enquote (hquote : isQuote quote = true) {inner : String}
    (hinner : IsInner quote inner) (hbefore : Inline before.toList)
    (hafter : Inline after.toList)
    (hclosed : ∀ token ∈ ofExpression before origin,
      token.kind ≠ .comment ∧ token.isOpenString = false) :
    let width := (before ++ enquote quote inner).length
    ofExpression (before ++ enquote quote inner ++ after) origin =
      (ofExpression before origin).filter (·.kind ≠ .endOfInput) ++
        spelled .string (origin.advance before.length) (enquote quote inner).toList ::
          (ofExpression after origin).map (shift 0 width width) := by
  intro width
  have hwidth : width = before.toList.length + (inner.toList.length + 2) := by
    simp only [width, ← String.length_toList, String.toList_append, toList_enquote,
      length_append, length_cons, length_nil]
  have htext : before ++ enquote quote inner ++ after = String.ofList
      (before.toList ++ quote :: (inner.toList ++ [quote] ++ after.toList)) := by
    simp [← String.toList_inj, toList_enquote]
  have hinline : ∀ c ∈ before.toList ++ quote :: (inner.toList ++ [quote] ++ after.toList),
      isInline c = true := by
    have hmark : isInline quote = true := isInline_of_pos rfl rfl hquote
    simp only [forall_mem_append, forall_mem_cons]
    exact ⟨hbefore, hmark, ⟨hinner.inline, hmark, by simp⟩, hafter⟩
  have hfront : ∀ token ∈ (scanExpression none origin before.toList).1,
      token.kind ≠ .comment ∧ token.isOpenString = false := by
    intro token htoken
    rw [← filter_ofExpression hbefore] at htoken
    exact hclosed token (mem_of_mem_filter htoken)
  have hstop : (quote :: (inner.toList ++ [quote] ++ after.toList)).head?.any isStop = true := by
    simp [isStop, hquote]
  have hshift : (origin.advance before.toList.length).advance (inner.toList.length + 2) =
      origin.shift 0 width width := by
    rw [Position.advance_advance, ← hwidth, advance_eq_shift]
  have hend : origin.advance
      (before.toList ++ quote :: (inner.toList ++ [quote] ++ after.toList)).length =
        (origin.advance after.toList.length).shift 0 width width := by
    rw [← advance_eq_shift, Position.advance_advance, hwidth]
    refine congrArg origin.advance ?_
    simp only [length_append, length_cons, length_nil]
    omega
  have hrest := ofExpression_of_inline hafter origin
  rw [String.ofList_toList] at hrest
  rw [htext, ofExpression_of_inline hinline, scanExpression_append hstop hfront,
    scanExpression_string hquote hinner.unquoted, hshift, scanExpression_shift, hend, hrest,
    filter_ofExpression hbefore, toList_enquote, map_append, map_singleton, mark, mark,
    covering_shift, String.length_toList, append_assoc, cons_append]

/-- String literals are opaque to the scan of a line and the line around them is scanned as if they
were not there: what is before a literal and what is behind it keep the tokens that they have on
their own, the literal is one token, and no other token tells which text it holds. -/
theorem ofExpression_string (hquote : isQuote quote = true) {inner : String}
    (hinner : IsInner quote inner) (hbefore : ∀ c ∈ before.toList, isInline c = true)
    (hafter : ∀ c ∈ after.toList, isInline c = true)
    (hclosed : ∀ token ∈ ofExpression before origin,
      token.kind ≠ .comment ∧ token.isOpenString = false) :
    let width := (before ++ enquote quote inner).length
    let front := (ofExpression before origin).filter (·.kind ≠ .endOfInput)
    ofExpression (before ++ enquote quote inner ++ after) origin =
        front ++ spelled .string (origin.advance before.length) (enquote quote inner).toList ::
          (ofExpression after origin).map (shift 0 width width) ∧
      ∀ other, IsInner quote other → ∀ i ≠ front.length,
        (ofExpression (before ++ enquote quote other ++ after) origin)[i]?.map shape =
          (ofExpression (before ++ enquote quote inner ++ after) origin)[i]?.map shape := by
  intro width front
  have hscan := ofExpression_enquote hquote hinner hbefore hafter hclosed
  refine ⟨hscan, fun other hother i hi => ?_⟩
  rw [hscan, ofExpression_enquote hquote hother hbefore hafter hclosed, ← getElem?_map,
    ← getElem?_map]
  simp only [map_append, map_cons, map_map]
  rcases Nat.lt_or_gt_of_ne hi with hlt | hgt
  · have hfront : i < (front.map shape).length := by rwa [length_map]
    rw [getElem?_append_left hfront, getElem?_append_left hfront]
  · obtain ⟨k, rfl⟩ := Nat.exists_eq_add_of_lt hgt
    have hindex : front.length + k + 1 = (front.map shape).length + (k + 1) := by
      rw [length_map, Nat.add_assoc]
    rw [hindex, getElem?_append_right (Nat.le_add_right _ _),
      getElem?_append_right (Nat.le_add_right _ _), Nat.add_sub_cancel_left,
      getElem?_cons_succ, getElem?_cons_succ]
    rfl

end

/-- Dashes, a brace and the other quote in a literal that stands between two signs. -/
theorem ofExpression_string_dashes :
    (isQuote '"' = true ∧ IsInner '"' "-- it's \x7b" ∧
      (∀ c ∈ "-1 -".toList, isInline c = true) ∧ (∀ c ∈ "-2".toList, isInline c = true) ∧
      ∀ token ∈ ofExpression "-1 -" .origin,
        token.kind ≠ .comment ∧ token.isOpenString = false) ∧
    ofExpression "-1 -\"-- it's \x7b\"-2" .origin =
      [⟨.number, "-1", ⟨⟨1, 1, 0⟩, ⟨1, 3, 2⟩⟩⟩, ⟨.operator, "-", ⟨⟨1, 4, 3⟩, ⟨1, 5, 4⟩⟩⟩,
        ⟨.string, "\"-- it's \x7b\"", ⟨⟨1, 5, 4⟩, ⟨1, 16, 15⟩⟩⟩,
        ⟨.number, "-2", ⟨⟨1, 16, 15⟩, ⟨1, 18, 17⟩⟩⟩,
        ⟨.endOfInput, "", ⟨⟨1, 18, 17⟩, ⟨1, 18, 17⟩⟩⟩] := by
  have hinner : IsInner '"' "-- it's \x7b" := ⟨by decide, List.all_eq_true.mp (by decide)⟩
  have hbefore : ∀ c ∈ "-1 -".toList, isInline c = true := all_eq_true.mp (by decide)
  have hafter : ∀ c ∈ "-2".toList, isInline c = true := all_eq_true.mp (by decide)
  have hfront : ofExpression "-1 -" .origin =
      [⟨.number, "-1", ⟨⟨1, 1, 0⟩, ⟨1, 3, 2⟩⟩⟩, ⟨.operator, "-", ⟨⟨1, 4, 3⟩, ⟨1, 5, 4⟩⟩⟩,
        ⟨.endOfInput, "", ⟨⟨1, 5, 4⟩, ⟨1, 5, 4⟩⟩⟩] := by
    decide +kernel
  have hback : ofExpression "-2" .origin =
      [⟨.number, "-2", ⟨⟨1, 1, 0⟩, ⟨1, 3, 2⟩⟩⟩, ⟨.endOfInput, "", ⟨⟨1, 3, 2⟩, ⟨1, 3, 2⟩⟩⟩] := by
    decide +kernel
  have hclosed : ∀ token ∈ ofExpression "-1 -" .origin,
      token.kind ≠ .comment ∧ token.isOpenString = false := by
    rw [hfront]
    decide
  have htext : "-1 -" ++ enquote '"' "-- it's \x7b" ++ "-2" = "-1 -\"-- it's \x7b\"-2" := by decide
  have hscan := (ofExpression_string rfl hinner hbefore hafter hclosed).1
  rw [htext, hfront, hback] at hscan
  exact ⟨⟨rfl, hinner, hbefore, hafter, hclosed⟩, hscan.trans (by decide)⟩

end GuidedTrack.Token
