import GuidedTrack.Proofs.Token.BlockBalance

/-! # Scanning line by line

A document is scanned without looking past the end of a line. What follows a line feed is scanned as
a document of its own: only the blocks left open before it count, and all tokens are as many lines
and characters further on as stand before it.
-/

namespace GuidedTrack

open List Position Source

def Position.shift (lines columns chars : Int) (p : Position) : Position :=
  ⟨p.line + lines, p.column + columns, p.offset + chars⟩

def Token.shift (lines columns chars : Int) (token : Token) : Token :=
  { token with span := ⟨token.span.start.shift lines columns chars,
      token.span.stop.shift lines columns chars⟩ }

namespace Position

variable (lines columns chars : Int)

theorem shift_advance (p : Position) (n : Nat) :
    (p.shift lines columns chars).advance n = (p.advance n).shift lines columns chars := by
  simp only [shift, advance, Int.add_right_comm]

end Position

namespace Token

open Source Text

section

variable (lines columns chars : Int)

theorem covering_shift (kind : Kind) (text : String) (p : Position) (n : Nat) :
    covering kind text (p.shift lines columns chars) n =
      (covering kind text p n).shift lines columns chars := by
  simp only [covering, shift, shift_advance]

theorem prose_shift (p : Position) (cs : List Char) :
    prose (p.shift lines columns chars) cs = (prose p cs).map (shift lines columns chars) := by
  unfold prose
  split
  · rfl
  · rw [map_singleton, spelled, covering_shift, ← spelled]

theorem scanExpression_shift (depth : Option Nat) (p : Position) (cs : List Char) :
    scanExpression depth (p.shift lines columns chars) cs =
      ((scanExpression depth p cs).1.map (shift lines columns chars),
        (scanExpression depth p cs).2) := by
  induction hn : cs.length using Nat.strong_induction_on generalizing depth p cs with
  | _ n ih =>
    cases cs with
    | nil =>
      rw [scanExpression, scanExpression]
      rfl
    | cons c rest =>
      rw [length_cons] at hn
      rw [scanExpression, scanExpression]
      split
      · rw [shift_advance, ih rest.length (by omega) depth (p.advance 1) rest rfl]
      split
      · rfl
      split
      · simp only [comment, covering_shift, map_singleton]
      · dsimp only
        rw [shift_advance, ih _ (by rw [length_drop]; omega) _ _ _ rfl,
          covering_shift, map_cons]

theorem scanText_shift (emphasis : Bool) (p : Position) (cs : List Char) :
    scanText emphasis (p.shift lines columns chars) cs =
      (scanText emphasis p cs).map (shift lines columns chars) := by
  induction cs using @prose_induction emphasis generalizing p with
  | plain cs hplain => rw [scanText_plain hplain, scanText_plain hplain, prose_shift]
  | hole chunk cs hplain ih =>
    rw [scanText_hole hplain, scanText_hole hplain]
    simp only [prose_shift, shift_advance, covering_shift, map_append, map_cons,
      scanHole, scanExpression_shift]
    cases hdrop : cs.drop (scanExpression (some 0) (p.advance (chunk.length + 1)) cs).2 with
    | nil => rfl
    | cons d more => simp only [ih more (length_lt_of_drop_eq_cons hdrop).le, map_cons]
  | span chunk c piece cs hplain hmarker hpiece ih =>
    have hc : c ≠ '{' := by
      rcases hmarker with rfl | rfl <;> decide
    simp only [scanText_emphasis hplain hc hpiece, prose_shift, shift_advance, ih,
      map_append]

theorem scanArgument_shift (kind : Kind) (name : String) (p : Position) (cs : List Char) :
    scanArgument kind name (p.shift lines columns chars) cs =
      (scanArgument kind name p cs).map (shift lines columns chars) := by
  simp only [scanArgument, shift_advance]
  split
  · rw [scanExpression_shift]
  · rw [scanText_shift]

theorem scanContent_shift (depth : Nat) (p : Position) (cs : List Char) :
    scanContent depth (p.shift lines columns chars) cs =
      (scanContent depth p cs).map (shift lines columns chars) := by
  unfold scanContent
  split
  · rw [comment, covering_shift]
    rfl
  · rw [covering_shift, shift_advance, scanExpression_shift, map_cons]
  · split
    · simp only [scanDirective, shift_advance, covering_shift, map_cons]
      refine congrArg (_ :: ·) ?_
      split
      · rw [scanArgument_shift, map_cons]
      · rw [scanText_shift]
    · split
      · rw [scanQuoted, scanQuoted]
        dsimp only
        rw [spelled, covering_shift, shift_advance, scanText_shift, map_cons, spelled]
      · rw [scanText_shift]
  · rfl

theorem indentation_shift (opened : List Nat) (width : Nat) (lead : List Char) (p : Position) :
    (indentation opened width lead (p.shift lines columns chars)).1 =
      (indentation opened width lead p).1.map (shift lines columns chars) := by
  unfold indentation
  split
  · rw [map_singleton, spelled, covering_shift, spelled]
  · simp only [map_map, shift_advance]
    refine map_congr_left fun _ _ => ?_
    rw [Function.comp_apply, mark, covering_shift, mark]

theorem lineBreak_shift (line : Line) (p : Position) :
    lineBreak line (p.shift lines columns chars) =
      (lineBreak line p).map (shift lines columns chars) := by
  unfold lineBreak
  split
  · rfl
  · rw [map_singleton, shift_advance, spelled, covering_shift, spelled]

theorem lineTokens_shift (opened : List Nat) (p : Position) (line : Line) :
    lineTokens opened (p.shift lines columns chars) line =
      (lineTokens opened p line).map (shift lines columns chars) := by
  unfold lineTokens
  split
  · rfl
  · rw [indentation_shift, shift_advance, scanContent_shift, lineBreak_shift,
      map_append, map_append]

theorem after_shift (line : Line) (p : Position) :
    line.after (p.shift lines 0 chars) = (line.after p).shift lines 0 chars := by
  unfold Line.after
  split
  · exact shift_advance lines 0 chars p _
  · simp only [Position.shift, Position.mk.injEq]
    omega

theorem scanLines_shift (opened : List Nat) (p : Position) (rest : List Line) :
    scanLines opened (p.shift lines 0 chars) rest =
      (scanLines opened p rest).map (shift lines 0 chars) := by
  induction rest generalizing opened p with
  | nil =>
    simp only [scanLines, mark, covering_shift, map_append, map_map, map_singleton]
    rfl
  | cons line rest ih =>
    rw [scanLines_cons, scanLines_cons, lineTokens_shift, after_shift, ih, map_append]

theorem line_lineBreak (line : Line) (p : Position) :
    ∀ token ∈ lineBreak line p, token.span.start.line = p.line := by
  unfold lineBreak
  split
  · simp
  · simp [spelled, covering, advance]

theorem line_le_scanExpressionLines (p : Position) (rest : List Line) :
    ∀ token ∈ scanExpressionLines p rest, p.line ≤ token.span.start.line := by
  induction rest generalizing p with
  | nil => simp [scanExpressionLines, mark, covering]
  | cons line rest ih =>
    intro token htoken
    have hafter : p.line ≤ (line.after p).line := by
      unfold Line.after
      split <;> simp only [advance] <;> omega
    rw [scanExpressionLines, mem_append, mem_append] at htoken
    rcases htoken with (htoken | htoken) | htoken
    · exact Int.le_of_eq ((row_scanExpression p line.content).line_eq htoken).symm
    · exact Int.le_of_eq (line_lineBreak line p token htoken).symm
    · exact Int.le_trans hafter (ih _ token htoken)

/-- Lines of expressions are scanned alike at any place. Columns count from the margin once a line
break has passed, so only the line they start on keeps a shift of columns. -/
theorem scanExpressionLines_shift (p : Position) (rest : List Line) :
    scanExpressionLines (p.shift lines columns chars) rest =
      (scanExpressionLines p rest).map fun token =>
        token.shift lines (if token.span.start.line = p.line then columns else 0) chars := by
  induction rest generalizing columns p with
  | nil =>
    rw [scanExpressionLines, scanExpressionLines, mark, covering_shift, map_singleton]
    exact congrArg (fun columns => [shift lines columns chars (mark .endOfInput p)])
      (if_pos rfl).symm
  | cons line rest ih =>
    have hline : ∀ token ∈ (scanExpression none p line.content).1 ++ lineBreak line p,
        token.span.start.line = p.line :=
      forall_mem_append.mpr
        ⟨fun token => (row_scanExpression p line.content).line_eq, line_lineBreak line p⟩
    rw [scanExpressionLines, scanExpressionLines, scanExpression_shift, lineBreak_shift,
      map_append, ← @List.map_append _ _ (shift lines columns chars)]
    refine congrArg₂ List.append (map_congr_left fun token htoken => ?_) ?_
    · rw [if_pos (hline token htoken)]
    · by_cases hending : line.ending.isEmpty = true
      · have hafter : line.after (p.shift lines columns chars) =
            (line.after p).shift lines columns chars := by
          rw [Line.after, Line.after, if_pos hending, if_pos hending, shift_advance]
        have hsame : (line.after p).line = p.line := by
          rw [Line.after, if_pos hending]
          rfl
        rw [hafter, ih, hsame]
      · have hafter : line.after (p.shift lines columns chars) =
            (line.after p).shift lines 0 chars := by
          simp only [Line.after, if_neg hending, Position.shift, Position.mk.injEq]
          omega
        have hnext : (line.after p).line = p.line + 1 := by rw [Line.after, if_neg hending]
        rw [hafter, ih]
        refine map_congr_left fun token htoken => ?_
        have hle := line_le_scanExpressionLines _ _ token htoken
        rw [ite_self, if_neg (by omega)]

end

/-! ## Lines that end -/

/-- A text that the next line can follow: it is empty or ends with a line feed. -/
def EndsLine (cs : List Char) : Prop :=
  cs = [] ∨ cs.getLast? = some '\n'

theorem EndsLine.tail {c : Char} {rest : List Char} (h : EndsLine (c :: rest)) : EndsLine rest := by
  cases rest with
  | nil => exact .inl rfl
  | cons d rest =>
    rcases h with hnil | hlast
    · cases hnil
    · exact .inr (by rwa [getLast?_cons_cons] at hlast)

theorem EndsLine.eq_feed {c : Char} (h : EndsLine [c]) : c = '\n' := by
  rcases h with hnil | hlast
  · cases hnil
  · exact Option.some.inj hlast

theorem lines_append {a : List Char} (h : EndsLine a) (b : List Char) :
    lines (a ++ b) = lines a ++ lines b := by
  fun_induction lines a with
  | case1 => rfl
  | case2 rest ih => simp only [cons_append, lines, ih h.tail.tail]
  | case3 rest hrest ih =>
    -- a lone carriage return ends no such text, so the character behind it is at hand
    have hhead : ∀ more, rest ++ b ≠ '\n' :: more := by
      intro more heq
      cases rest with
      | nil => exact absurd h.eq_feed (by decide)
      | cons d rest =>
        obtain ⟨rfl, -⟩ := List.cons.inj heq
        exact hrest rest rfl
    rw [cons_append, lines, ih h.tail]
    · rfl
    · exact hhead
  | case4 rest ih => simp only [cons_append, lines, ih h.tail]
  | case5 c rest hboth hcarriage hfeed hnil ih =>
    rw [lines_eq_nil hnil] at h
    exact absurd h.eq_feed hfeed
  | case6 c rest hboth hcarriage hfeed line more hlines ih =>
    have hrest := ih h.tail
    rw [hlines] at hrest
    have hc : isInline c = true := by simpa [isInline] using ⟨hfeed, hcarriage⟩
    exact lines_cons_inline hc hrest

theorem ending_of_endsLine {a : List Char} (h : EndsLine a) :
    ∀ line ∈ lines a, line.ending ≠ [] := by
  fun_induction lines a with
  | case1 => simp
  | case2 rest ih => exact forall_mem_cons.mpr ⟨by simp, ih h.tail.tail⟩
  | case3 rest hrest ih | case4 rest ih => exact forall_mem_cons.mpr ⟨by simp, ih h.tail⟩
  | case5 c rest hboth hcarriage hfeed hnil ih =>
    rw [lines_eq_nil hnil] at h
    exact absurd h.eq_feed hfeed
  | case6 c rest hboth hcarriage hfeed line more hlines ih =>
    have hrest := ih h.tail
    rw [hlines] at hrest
    exact forall_mem_cons.mpr (forall_mem_cons.mp hrest)

/-- The place behind all lines of a source is its end. The run carries that the next line starts
between line breaks. -/
theorem afterLines_place {cs : List Char} (rest : List Line) {i : Nat}
    (hlines : lines (cs.drop i) = rest) (hi : i ≤ cs.length) (hbetween : Between cs i) :
    afterLines (place cs i) rest = place cs cs.length := by
  induction rest generalizing i with
  | nil =>
    have hend := drop_eq_nil_iff.mp (lines_eq_nil hlines)
    obtain rfl : i = cs.length := by omega
    rfl
  | cons line rest ih =>
    obtain ⟨tail, hopens, hmore⟩ := opens_of_lines hlines
    obtain ⟨hafter, hnext⟩ := hopens.after_eq hbetween
    have hend := add_le_of_drop hopens.drop_ending (add_le_of_drop hopens.text hi)
    rw [Nat.add_assoc] at hend
    rw [afterLines, foldl_cons, hafter]
    exact ih (hopens.drop_after ▸ hmore) hend hnext

def breaks (cs : List Char) : Nat :=
  breaksBefore cs cs.length

theorem EndsLine.place_eq {a : List Char} (h : EndsLine a) :
    place a a.length = Position.shift (breaks a) 0 a.length .origin := by
  have hmargin : lineStart a a.length = a.length := by
    rcases h with rfl | hlast
    · rfl
    · rw [getLast?_eq_getElem?] at hlast
      obtain ⟨n, hn⟩ : ∃ n, a.length = n + 1 := by
        cases hlength : a.length with
        | zero =>
          rw [length_eq_zero_iff.mp hlength] at hlast
          cases hlast
        | succ n => exact ⟨n, rfl⟩
      rw [hn, Nat.add_sub_cancel] at hlast
      have hbreak : breakEnds a n = true := by simp [breakEnds, hlast]
      rw [hn, lineStart, if_pos hbreak]
  simp only [place, hmargin, breaks, Position.shift, Position.origin, Position.mk.injEq]
  refine ⟨trivial, ?_, ?_⟩ <;> omega

/-! ## Documents in two parts -/

def settled (tokens : List Token) : List Token :=
  tokens.rdropWhile fun token => token.kind = .dedent || token.kind = .endOfInput

def resume (opened : List Nat) (text : String) : List Token :=
  scanLines opened .origin (lines text.toList)

theorem settled_append {front marks : List Token}
    (hfront : ∀ token ∈ front.getLast?, token.kind = .newline)
    (hmarks : ∀ token ∈ marks, token.kind = .dedent ∨ token.kind = .endOfInput) :
    settled (front ++ marks) = front := by
  have hdropped : settled (front ++ marks) = settled front := by
    unfold settled
    rw [List.rdropWhile, reverse_append, dropWhile_append_of_pos (by simpa using hmarks),
      ← List.rdropWhile]
  rw [hdropped, settled, rdropWhile_eq_self_iff]
  intro hfilled
  simp [hfront _ (getLast_mem_getLast? hfilled)]

theorem settled_scanLines {lines : List Line} (hendings : ∀ line ∈ lines, line.ending ≠ [])
    (opened : List Nat) (p : Position) :
    settled (scanLines opened p lines) = linesTokens opened p lines := by
  have happend := scanLines_append opened p lines []
  rw [append_nil] at happend
  rw [happend]
  refine settled_append (getLast?_linesTokens hendings opened p) ?_
  intro token htoken
  rcases mem_append.mp htoken with hdedent | hstop
  · obtain ⟨_, -, rfl⟩ := mem_map.mp hdedent
    exact .inl rfl
  · rw [mem_singleton.mp hstop]
    exact .inr rfl

/-- Scanning is local to lines: what follows a line feed adds to the tokens before it those that it
makes on its own with the blocks that are open, as many lines and characters further on as stand
before it. -/
theorem ofSource_append {a : String} (h : EndsLine a.toList) (b : String) :
    ofSource (a ++ b) = settled (ofSource a) ++
        (resume (openBlocks (Source.lines a.toList)) b).map
          (shift (breaks a.toList) 0 a.toList.length) ∧
      (openBlocks (Source.lines a.toList) = [] →
        ofSource (a ++ b) = settled (ofSource a) ++
          (ofSource b).map (shift (breaks a.toList) 0 a.toList.length)) := by
  have hplace : afterLines .origin (Source.lines a.toList) =
      Position.shift (breaks a.toList) 0 a.toList.length .origin := by
    rw [← h.place_eq]
    exact afterLines_place _ (by rw [drop_zero]) (Nat.zero_le _) (between_zero _)
  have hsplit : ofSource (a ++ b) = settled (ofSource a) ++
      (resume (openBlocks (Source.lines a.toList)) b).map
        (shift (breaks a.toList) 0 a.toList.length) := by
    rw [ofSource, String.toList_append, lines_append h, scanLines_append, hplace, ofSource,
      settled_scanLines (ending_of_endsLine h), resume, scanLines_shift, openBlocks]
  refine ⟨hsplit, fun hclosed => ?_⟩
  rw [hsplit, hclosed]
  rfl

/-- A text that leaves a block open in front of a sub-keyword, and one that leaves none open. -/
theorem ofSource_append_cuts :
    (EndsLine "*page\n\tA\n".toList ∧ openBlocks (Source.lines "*page\n\tA\n".toList) = [1] ∧
      ofSource ("*page\n\tA\n" ++ "\t*save: x") = settled (ofSource "*page\n\tA\n") ++
        (resume [1] "\t*save: x").map (shift 2 0 9)) ∧
    EndsLine "*page\n\tA\nB\n".toList ∧
      ofSource ("*page\n\tA\nB\n" ++ "C") = settled (ofSource "*page\n\tA\nB\n") ++
        (ofSource "C").map (shift 3 0 11) := by
  have hopen : EndsLine "*page\n\tA\n".toList := .inr (by decide)
  have hclosed : EndsLine "*page\n\tA\nB\n".toList := .inr (by decide)
  have hblocks : openBlocks (Source.lines "*page\n\tA\n".toList) = [1] := by decide
  have hfirst := (ofSource_append hopen "\t*save: x").1
  rw [hblocks] at hfirst
  exact ⟨⟨hopen, hblocks, hfirst⟩, hclosed, (ofSource_append hclosed "C").2 (by decide)⟩

end Token
end GuidedTrack
