import GuidedTrack.Proofs.Token.LineLocality

/-! # Literals by their places

A line's string literals and comments are those that start in it: the tokens of a document stand in
the order of its lines, and each line gives those that its content gives.
-/

namespace GuidedTrack.Token

open Source Text List

variable {cs carriage rest a : List Char} {tokens : List Token} {start stop : Nat} {source : String}

def isLiteral (token : Token) : Bool :=
  token.kind == .string || token.kind == .comment

/-- A literal that starts at index `start` or later, and before index `stop`. -/
def startsIn (start stop : Nat) (token : Token) : Bool :=
  token.isLiteral && decide (start ≤ token.span.start.offset ∧ token.span.start.offset < stop)

/-- The literals of a document that start at index `start` or later, and before index `stop`. -/
def literalsIn (source : String) (start stop : Nat) : List Token :=
  (ofSource source).filter (startsIn start stop)

/-! ## Places of literals -/

def Spans (first last : Int) (tokens : List Token) : Prop :=
  ∀ token ∈ tokens, token.isLiteral = true →
    first ≤ token.span.start.offset ∧ token.span.start.offset < last

section

variable {first middle last : Int} {tokens others : List Token}

theorem Spans.of_kind (h : ∀ token ∈ tokens, token.isLiteral = false) :
    Spans first last tokens := by
  intro token htoken hliteral
  rw [h token htoken] at hliteral
  cases hliteral

theorem Spans.append (h : Spans first middle tokens) (hothers : Spans middle last others)
    (hfirst : first ≤ middle) (hlast : middle ≤ last) : Spans first last (tokens ++ others) := by
  intro token htoken hliteral
  rcases mem_append.mp htoken with htoken | htoken
  · exact (h token htoken hliteral).imp_right fun hlt => Int.lt_of_lt_of_le hlt hlast
  · exact (hothers token htoken hliteral).imp_left (Int.le_trans hfirst)

theorem Spans.widen (h : Spans first middle tokens) (hlast : middle ≤ last) :
    Spans first last tokens :=
  fun token htoken hliteral =>
    (h token htoken hliteral).imp_right fun hlt => Int.lt_of_lt_of_le hlt hlast

end

theorem Row.spans {p : Position} (h : Row p cs tokens) :
    Spans p.offset (p.offset + cs.length) tokens := by
  induction h with
  | nil => exact .of_kind (by simp)
  | @blank p c cs tokens blank rest ih =>
    intro token htoken hliteral
    have hbounds := ih token htoken hliteral
    simp only [Position.advance, length_cons] at hbounds ⊢
    omega
  | @token p first piece cs tokens span spells filled kind rest ih =>
    have hpiece := length_pos_iff.mpr filled
    intro token htoken hliteral
    rw [length_append]
    rcases mem_cons.mp htoken with rfl | htoken
    · rw [span]
      constructor <;> dsimp only <;> omega
    · have hbounds := ih token htoken hliteral
      simp only [Position.advance] at hbounds
      omega
  | @mark p kind cs tokens empty rest ih =>
    intro token htoken hliteral
    rcases mem_cons.mp htoken with rfl | htoken
    · rcases empty with rfl | rfl <;> cases hliteral
    · exact ih token htoken hliteral

theorem isLiteral_indentation (opened : List Nat) (width : Nat) (lead : List Char) (p : Position) :
    ∀ token ∈ (indentation opened width lead p).1, token.isLiteral = false := by
  intro token htoken
  rcases indentation_kinds opened width lead p token htoken with hkind | hkind <;>
    simp [isLiteral, hkind]

theorem isLiteral_lineBreak (line : Line) (p : Position) :
    ∀ token ∈ lineBreak line p, token.isLiteral = false := by
  intro token htoken
  rw [isLiteral, kinds_lineBreak line p token htoken]
  rfl

theorem filter_lineTokens (opened : List Nat) (p : Position) (line : Line) :
    ∃ depth q, (lineTokens opened p line).filter isLiteral =
      (scanContent depth q line.body).filter isLiteral := by
  refine ⟨currentDepth (blocksAfter opened line), p.advance line.lead.length, ?_⟩
  unfold lineTokens
  split
  · rename_i hempty
    rw [List.isEmpty_iff.mp hempty]
    rfl
  · have hblocks := filter_eq_nil_iff.mpr fun token htoken => by
      simpa using isLiteral_indentation opened line.width line.lead p token htoken
    have hbreak := filter_eq_nil_iff.mpr fun token htoken => by
      simpa using isLiteral_lineBreak line p token htoken
    rw [filter_append, filter_append, hblocks, hbreak, nil_append, append_nil]

theorem spans_lineTokens (opened : List Nat) (p : Position) (line : Line) :
    Spans p.offset (p.offset + line.content.length) (lineTokens opened p line) := by
  unfold lineTokens
  split
  · exact .of_kind (by simp)
  · have hrow := row_line opened p line.content
      (row_scanContent (currentDepth (blocksAfter opened line)) _ (line.content.dropWhile isGap))
    exact hrow.spans.append (.of_kind (isLiteral_lineBreak line p)) (by omega) (Int.le_refl _)

theorem spans_linesTokens (opened : List Nat) (p : Position) (lines : List Line) :
    p.offset ≤ (afterLines p lines).offset ∧
      Spans p.offset (afterLines p lines).offset (linesTokens opened p lines) := by
  induction lines generalizing opened p with
  | nil => exact ⟨Int.le_refl _, .of_kind (by simp [linesTokens])⟩
  | cons line lines ih =>
    obtain ⟨hle, hspans⟩ := ih (blocksAfter opened line) (line.after p)
    have hafter :
        (line.after p).offset = p.offset + line.content.length + line.ending.length := by
      rw [offset_after, Line.length, Int.natCast_add, Int.add_assoc]
    have hline := (spans_lineTokens opened p line).widen (show _ ≤ (line.after p).offset by omega)
    exact ⟨Int.le_trans (by omega) hle, hline.append hspans (by omega) hle⟩

theorem le_start_scanLines (opened : List Nat) (p : Position) (lines : List Line) :
    ∀ token ∈ scanLines opened p lines, token.isLiteral = true →
      p.offset ≤ token.span.start.offset := by
  intro token htoken hliteral
  have hscan := scanLines_append opened p lines []
  rw [append_nil] at hscan
  rw [hscan, mem_append] at htoken
  rcases htoken with htoken | htoken
  · exact ((spans_linesTokens opened p lines).2 token htoken hliteral).1
  · rcases mem_append.mp htoken with htoken | htoken
    · obtain ⟨_, -, rfl⟩ := mem_map.mp htoken
      cases hliteral
    · rw [mem_singleton.mp htoken] at hliteral
      cases hliteral

/-! ## Literals of a line -/

/-- What stands behind a line of a text that is cut at its line feeds: a carriage return at its end
and the line feed, if they are there, end it. -/
theorem exists_ends (hcarriage : carriage = [] ∨ carriage = ['\r'])
    (hrest : rest = [] ∨ rest.head? = some '\n') :
    ∃ ending tail, carriage ++ rest = ending ++ tail ∧ Ends ending tail ∧
      carriage.length ≤ ending.length := by
  rcases hrest with rfl | hfeed
  · rcases hcarriage with rfl | rfl
    · exact ⟨[], [], rfl, .source, Nat.le_refl _⟩
    · exact ⟨['\r'], [], rfl, .carriage (by simp), Nat.le_refl _⟩
  · obtain ⟨tail, rfl⟩ : ∃ tail, rest = '\n' :: tail :=
      ⟨rest.tail, (cons_head?_tail hfeed).symm⟩
    rcases hcarriage with rfl | rfl
    · exact ⟨['\n'], tail, rfl, .feed, by simp⟩
    · exact ⟨['\r', '\n'], tail, rfl, .both, by simp⟩

theorem filter_startsIn (h : Spans start stop tokens) :
    tokens.filter (startsIn start stop) = tokens.filter isLiteral := by
  refine filter_congr fun token htoken => ?_
  cases hliteral : token.isLiteral with
  | false => simp [startsIn, hliteral]
  | true => simpa [startsIn, hliteral] using h token htoken hliteral

theorem filter_startsIn_eq_nil (h : ∀ token ∈ tokens, token.isLiteral = true →
      token.span.start.offset < start ∨ stop ≤ token.span.start.offset) :
    tokens.filter (startsIn start stop) = [] := by
  refine filter_eq_nil_iff.mpr fun token htoken hkept => ?_
  simp only [startsIn, Bool.and_eq_true, decide_eq_true_eq] at hkept
  have hout := h token htoken hkept.1
  omega

/-- The scan of a document in three parts: before a line, the line, and what follows it. -/
theorem exists_ofSource_eq {tail : List Char} {line : Line} (htext : source.toList = a ++ cs)
    (ha : EndsLine a) (hcs : cs ≠ []) (hopens : line.Opens cs tail) :
    ∃ front opened p, ofSource source = front ++ (lineTokens opened p line ++
        scanLines (blocksAfter opened line) (line.after p) (Source.lines tail)) ∧
      Spans 0 a.length front ∧ p.offset = a.length := by
  have hplace : (afterLines .origin (Source.lines a)).offset = a.length := by
    have hafter : afterLines .origin (Source.lines a) = place a a.length :=
      afterLines_place _ (by rw [drop_zero]) (Nat.zero_le _) (between_zero _)
    rw [hafter, ha.place_eq]
    simp [Position.shift, Position.origin]
  have hspans := (spans_linesTokens [] .origin (Source.lines a)).2
  rw [hplace] at hspans
  refine ⟨_, openBlocks (Source.lines a), _, ?_, hspans, hplace⟩
  rw [ofSource, htext, lines_append ha, lines_of_opens hopens hcs, scanLines_append, scanLines_cons]
  rfl

/-- The literals that start in a line are those of its content, whatever stands before and behind
it. -/
theorem literalsIn_line {line : List Char} (htext : source.toList = a ++ (line ++ carriage ++ rest))
    (ha : EndsLine a) (hline : line ≠ []) (hinline : Inline line)
    (hcarriage : carriage = [] ∨ carriage = ['\r']) (hrest : rest = [] ∨ rest.head? = some '\n') :
    ∃ depth q, literalsIn source a.length (a.length + (line ++ carriage).length) =
      (scanContent depth q (line.dropWhile isGap)).filter isLiteral := by
  obtain ⟨ending, tail, hending, hends, hlength⟩ := exists_ends hcarriage hrest
  have hopens : Line.Opens ⟨line, ending⟩ (line ++ carriage ++ rest) tail :=
    ⟨by rw [append_assoc, hending], hinline, hends⟩
  obtain ⟨front, opened, p, hscan, hfront, hp⟩ :=
    exists_ofSource_eq htext ha (by simp [hline]) hopens
  obtain ⟨depth, q, hfilter⟩ := filter_lineTokens opened p ⟨line, ending⟩
  refine ⟨depth, q, ?_⟩
  -- tokens before the line start too early, and those behind it too late
  rw [literalsIn, hscan, filter_append, filter_append, filter_startsIn_eq_nil,
    filter_startsIn, filter_startsIn_eq_nil, nil_append, append_nil, hfilter]
  · rfl
  · intro token htoken hliteral
    have hle := le_start_scanLines _ _ _ token htoken hliteral
    simp only [offset_after, hp, Line.length] at hle
    rw [length_append]
    omega
  · have hspans := spans_lineTokens opened p ⟨line, ending⟩
    rw [hp] at hspans
    exact hspans.widen (by rw [length_append]; dsimp only; omega)
  · exact fun token htoken hliteral => .inl (hfront token htoken hliteral).2

end GuidedTrack.Token
