import GuidedTrack.Proofs.Node.RelocatedTours
import GuidedTrack.Proofs.Rule.MendedLines
import GuidedTrack.Proofs.Rule.SimilarDocuments
import GuidedTrack.Proofs.Token.LineLocality

/-! # Rules on documents behind a remark

A line of comment in front of a document is no concern of any rule. What the rules report on the
document they report one line further down, with all fixes as many characters further on as the line
is long.
-/

namespace GuidedTrack

open List Position

variable {m : Position → Position} {visit other : Visit}

def Fix.shift (chars : Int) (fix : Fix) : Fix :=
  { fix with start := fix.start + chars, stop := fix.stop + chars }

def Report.shift (lines chars : Int) (report : Report) : Report :=
  { report with
    line := report.line + lines
    endLine := report.endLine.map (· + lines)
    fix := report.fix.map (Fix.shift chars) }

theorem Report.ofPosition_shift (lines chars : Int) (position : Position) (text : String) :
    ofPosition (position.shift lines 0 chars) text =
        (ofPosition position text).shift lines chars := by
  simp only [ofPosition, shift, Position.shift, Int.add_zero, Option.map_none]

namespace Rule

/-! ## Names of loops -/

theorem namesAlike_relocate (seenIn afterDot : Bool) (tokens : List Token) :
    NamesAlike (Moves m) (splitAtIn seenIn afterDot tokens)
      (splitAtIn seenIn afterDot (tokens.map (Token.relocate m))) := by
  induction tokens generalizing seenIn afterDot with
  | nil => exact ⟨.nil, .nil⟩
  | cons token tokens ih =>
    have hkind : (token.relocate m).kind = token.kind := rfl
    have htext : (token.relocate m).text = token.text := rfl
    have huse : Use.Alike (Moves m) ⟨token.text, token.span.start⟩
        ⟨token.text, (token.relocate m).span.start⟩ := ⟨rfl, rfl⟩
    rw [map_cons, splitAtIn, splitAtIn, hkind, htext]
    split
    · exact ih true false
    · obtain ⟨hbound, hread⟩ := ih seenIn (token.kind = .dot)
      dsimp only
      split
      · split
        · exact ⟨hbound, .cons huse hread⟩
        · exact ⟨.cons huse hbound, hread⟩
      · exact ⟨hbound, hread⟩

/-! ## Lines -/

theorem spaceIndents_shift (number offset chars : Nat) (lines : List Source.Line) :
    spaceIndents (number + 1) (offset + chars) lines =
      (spaceIndents number offset lines).map (Report.shift 1 chars) := by
  induction lines generalizing number offset with
  | nil => rfl
  | cons line lines ih =>
    rw [spaceIndents, spaceIndents, map_append, ← ih, Nat.add_right_comm offset]
    congr 1
    split
    · simp only [map_singleton, Report.shift, Fix.shift, Option.map_some, Int.natCast_add,
        Int.add_right_comm]
      rfl
    · rfl

theorem unclosedString?_relocate (token : Token) :
    unclosedString? (token.relocate (shift lines 0 chars)) =
      (unclosedString? token).map (Report.shift lines chars) := by
  unfold unclosedString?
  dsimp only [Token.relocate]
  split
  · split
    · simp only [Option.map_some, Report.shift, Fix.shift, Span.relocate, shift,
        Int.add_zero]
    · rfl
  · rfl

theorem unclosedReports_relocate (openers : List Token) (lineEnd : Int) :
    unclosedReports (openers.map (Token.relocate (shift lines 0 chars))) (lineEnd + chars) =
      (unclosedReports openers lineEnd).map (Report.shift lines chars) := by
  have hawaited : (openers.map (Token.relocate (shift lines 0 chars))).reverse.map awaited =
      openers.reverse.map awaited := by
    rw [← map_reverse, map_map]
    rfl
  unfold unclosedReports
  rw [hawaited, zipIdx_map, map_map, map_map]
  refine map_congr_left fun opener _ => ?_
  obtain ⟨opener, i⟩ := opener
  simp only [Function.comp_apply, Prod.map, id_eq, Token.relocate, Span.relocate,
    Report.ofPosition_shift]
  split <;> rfl

theorem closerReports_relocate (openers : List Token) (token : Token) :
    closerReports (openers.map (Token.relocate (shift lines 0 chars)))
        (token.relocate (shift lines 0 chars)) =
      (closerReports openers token).map (Report.shift lines chars) := by
  have hkind (token : Token) :
      (token.relocate (shift lines 0 chars)).kind = token.kind := rfl
  unfold closerReports
  rw [hkind]
  split
  · cases openers with
    | nil => exact congrArg ([·]) (Report.ofPosition_shift ..)
    | cons opener outer =>
      rw [map_cons]
      dsimp only
      rw [hkind]
      split
      · rfl
      · exact congrArg ([·]) (Report.ofPosition_shift ..)
  · rfl

theorem afterToken_relocate (m : Position → Position) (openers : List Token) (token : Token) :
    afterToken (openers.map (Token.relocate m)) (token.relocate m) =
      (afterToken openers token).map (Token.relocate m) := by
  unfold afterToken
  change (if (closerOf? token.kind).isSome then _ else if (closerSpelling? token.kind).isSome
    then _ else _) = _
  split
  · rfl
  split
  · exact map_tail.symm
  · rfl

theorem bracketReports_relocate (openers : List Token) (lineEnd : Int) (tokens : List Token) :
    bracketReports (openers.map (Token.relocate (shift lines 0 chars))) (lineEnd + chars)
        (tokens.map (Token.relocate (shift lines 0 chars))) =
      (bracketReports openers lineEnd tokens).map (Report.shift lines chars) := by
  induction tokens generalizing openers lineEnd with
  | nil => rfl
  | cons token tokens ih =>
    have hmoved : (token.relocate (shift lines 0 chars)).kind.isStructural =
      token.kind.isStructural := rfl
    have hend : endAfter (lineEnd + chars) (token.relocate (shift lines 0 chars)) =
        endAfter lineEnd token + chars := (apply_ite (· + chars) ..).symm
    rw [map_cons]
    cases hkind : token.kind.isStructural with
    | true =>
      rw [bracketReports_stop (hmoved.trans hkind), bracketReports_stop hkind, map_append,
        ← ih [], ← unclosedReports_relocate, map_reverse]
      rfl
    | false =>
      rw [bracketReports_cons (hmoved.trans hkind), bracketReports_cons hkind, map_append,
        closerReports_relocate, afterToken_relocate, hend, ih]

/-- Where no bracket is open, it does not matter how far the line has come. -/
theorem bracketReports_lineEnd (lineEnd lineEnd' : Int) (tokens : List Token) :
    bracketReports [] lineEnd tokens = bracketReports [] lineEnd' tokens := by
  induction tokens generalizing lineEnd lineEnd' with
  | nil => rfl
  | cons token tokens ih =>
    cases hkind : token.kind.isStructural with
    | true =>
      rw [bracketReports_stop hkind, bracketReports_stop hkind, ih lineEnd lineEnd']
      rfl
    | false =>
      rw [bracketReports_cons hkind, bracketReports_cons hkind]
      by_cases hcomment : token.kind = .comment
      · rw [afterToken, hcomment]
        exact congrArg (_ ++ ·) (ih _ _)
      · rw [endAfter, endAfter, if_neg hcomment, if_neg hcomment]

/-! ## Documents behind a remark -/

theorem check_remark (document : Document) (h : isRemark visit.node = true) :
    ∀ rule ∈ all, rule.check document visit = [] := by
  obtain ⟨phase, node, ancestors, place⟩ := visit
  obtain ⟨span, text, rfl⟩ := exists_of_isRemark h
  simp only [all, forall_mem_cons]
  cases phase <;> exact ⟨rfl, rfl, rfl, rfl, rfl, rfl, rfl, rfl, rfl, rfl, rfl, rfl, rfl, by simp⟩

abbrev Lower (front : Source.Line) : Position → Position → Prop :=
  Moves (shift 1 0 front.length)

def LoopLower (front : Source.Line) (x y : Int) : Prop :=
  0 ≤ x ∧ y = x + front.length

/-- A document, and the document that a remark on a line of its own stands in front of. -/
structure Behind (front : Source.Line) (a b : Document) : Prop where
  remark : front.content.head? = some '-'
  lines : Source.lines b.source.toList = front :: Source.lines a.source.toList
  tokens : ∃ comment feed : Token, comment.kind = .comment ∧ feed.kind = .newline ∧
    comment.span.start.offset < front.length ∧ feed.span.start.offset < front.length ∧
    b.tokens = comment :: feed :: a.tokens.map (Token.relocate (shift 1 0 front.length))
  steps : Forall₂ (Visit.Twin (Lower front) (Lower front) (LoopLower front)) (steps a) (steps b)

theorem keepsOrder_lower (front : Source.Line) : Program.KeepsOrder (Lower front) := by
  rintro p q _ _ rfl rfl
  exact (Int.add_le_add_iff_right _).symm

namespace Behind

variable {front : Source.Line} {a b : Document} (h : Behind front a b)
include h

theorem forNames {x y : Int} (hloop : LoopLower front x y) :
    NamesAlike (Lower front) (forNames a.tokens x) (forNames b.tokens y) := by
  obtain ⟨hstart, rfl⟩ := hloop
  obtain ⟨comment, feed, -, -, hcomment, hfeed, htokens⟩ := h.tokens
  have hline (token : Token) : decide (x + front.length ≤
        (token.relocate (shift 1 0 front.length)).span.start.offset) =
      decide (x ≤ token.span.start.offset) :=
    decide_eq_decide.mpr (Int.add_le_add_iff_right _)
  rw [Rule.forNames, Rule.forNames, htokens, filter_cons_of_neg (by simp; omega),
    filter_cons_of_neg (by simp; omega), filter_map, takeWhile_map]
  simp only [Function.comp_def, hline]
  exact namesAlike_relocate false false _

theorem alike : Alike (Lower front) (Lower front) (LoopLower front) a b where
  le := id
  order := keepsOrder_lower front
  steps := h.steps
  loops := h.forNames

theorem spaceIndents : spaceIndents 1 0 (Source.lines b.source.toList) =
    (spaceIndents 1 0 (Source.lines a.source.toList)).map (Report.shift 1 front.length) := by
  have hlead : front.content.takeWhile Text.isGap = [] := by
    have hremark := h.remark
    cases hcontent : front.content with
    | nil => rfl
    | cons c rest =>
      rw [hcontent] at hremark
      cases hremark
      rfl
  rw [h.lines, Rule.spaceIndents, hlead, ← spaceIndents_shift 1 0 front.length]
  exact congrArg (· ++ _) (if_neg (by simp))

theorem unclosedStrings : b.tokens.filterMap unclosedString? =
    (a.tokens.filterMap unclosedString?).map (Report.shift 1 front.length) := by
  obtain ⟨comment, feed, hcomment, hfeed, -, -, htokens⟩ := h.tokens
  have hnone {token : Token} (hkind : token.kind = .comment ∨ token.kind = .newline) :
      unclosedString? token = none := by
    unfold unclosedString?
    split
    · rename_i herror _
      rcases hkind with hkind | hkind <;> rw [hkind] at herror <;> cases herror
    · rfl
  rw [htokens, filterMap_cons_none (hnone (.inl hcomment)),
    filterMap_cons_none (hnone (.inr hfeed)), filterMap_map, map_filterMap]
  exact filterMap_congr fun token _ => unclosedString?_relocate token

theorem brackets : bracketReports [] 0 b.tokens =
    (bracketReports [] 0 a.tokens).map (Report.shift 1 front.length) := by
  obtain ⟨comment, feed, hcomment, hfeed, -, -, htokens⟩ := h.tokens
  have hfirst (rest : List Token) :
      bracketReports [] 0 (comment :: rest) = bracketReports [] 0 rest := by
    rw [bracketReports, hcomment]
    rfl
  have hsecond (rest : List Token) :
      bracketReports [] 0 (feed :: rest) = bracketReports [] 0 rest := by
    rw [bracketReports, hfeed]
    rfl
  rw [htokens, hfirst, hsecond, bracketReports_lineEnd 0 (0 + front.length)]
  exact bracketReports_relocate [] 0 a.tokens

theorem check (hvisit : visit.Twin (Lower front) (Lower front) (LoopLower front) other) :
    ∀ rule ∈ all, rule.check b other = (rule.check a visit).map (Report.shift 1 front.length) := by
  refine h.alike.check (S := fun xs ys => ys = xs.map (Report.shift 1 front.length)) ?_
    h.spaceIndents h.unclosedStrings h.brackets hvisit
  intro xs ys hreports
  induction hreports with
  | nil => rfl
  | cons first rest ih =>
    obtain ⟨rfl, text⟩ := first
    rw [map_cons, ih, Report.ofPosition_shift]

end Behind

end Rule
end GuidedTrack
