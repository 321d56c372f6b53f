import GuidedTrack.Proofs.Program.LineAccounting
import GuidedTrack.Proofs.Token.BlockBalance

/-! # Blocks of a program

The blocks of a source are in order, so reading it never finds a dedent that closes nothing. Lines
of one width that follow each other are siblings in the tree. The exception is a line that closed
blocks down to a width that no open block has: its own width is forgotten, and the next line of that
width opens a block.
-/

namespace GuidedTrack

open List Outline Token

namespace Fault

theorem Cause.eq_unexpectedDedent {cause : Cause} (h : cause.message = "Unexpected dedent") :
    cause = .unexpectedDedent := by
  -- the other messages have another first letter, or end as those of expressions do
  have hfirst : cause.message.toList.head? = some 'U' := by rw [h]; rfl
  have hlast : cause.message.toList.getLast? = some 't' := by rw [h]; rfl
  cases cause with
  | unexpectedDedent => rfl
  | unexpectedIndentation | unclosedInterpolation | missingExpression => exact absurd h (by decide)
  | strayDirective name =>
    change ("Sub-keyword '*" ++ name ++ _).toList.head? = _ at hfirst
    simp at hfirst
  | missingColon name =>
    change ("Expected ':' after '*" ++ name ++ _).toList.head? = _ at hfirst
    simp at hfirst
  | expected kind found =>
    change ("Expected '" ++ kind.name ++ "', got " ++ _).toList.head? = _ at hfirst
    simp at hfirst
  | leftover text =>
    change ("Unexpected token " ++ _ ++ " in expression").toList.getLast? = _ at hlast
    rw [String.toList_append, getLast?_append] at hlast
    simp at hlast
  | unexpected found =>
    change ("Unexpected " ++ _ ++ " in expression").toList.getLast? = _ at hlast
    rw [String.toList_append, getLast?_append] at hlast
    simp at hlast
end Fault

namespace Program

open Outline (Item linesOf Adjoin)
open Source (Line)
open Token (Blocked openBlocks linesTokens afterLines blockTokens contentTokens countKind)

/-- The blocks of every source are in order, and reading it never finds a dedent that closes
nothing. -/
theorem ofSource_blocked (source : String) :
    Blocked source (Token.ofSource source) ∧
      ∀ program faults, ofSource source = .ok (program, faults) →
        ∀ fault ∈ faults, fault.cause.message ≠ "Unexpected dedent" := by
  refine ⟨blocked_ofSource source, fun program faults h fault hfault hmessage => ?_⟩
  obtain ⟨nodes, hreads, -⟩ := reads_of_ofTokens h (strays_ofSource source)
  obtain ⟨found, hfaults, hcauses⟩ := hreads.adds
  rw [nil_append] at hfaults
  exact hcauses fault (hfaults ▸ hfault) (Fault.Cause.eq_unexpectedDedent hmessage)

/-- A line that steps back to a width that no line before it has. -/
theorem ofSource_blocked_step :
    ∃ program faults, ofSource "a\n\t\tb\n\tc\n\t\td\n" = .ok (program, faults) ∧
      faults.length = 2 ∧
      Blocked "a\n\t\tb\n\tc\n\t\td\n" (Token.ofSource "a\n\t\tb\n\tc\n\t\td\n") ∧
      ∀ fault ∈ faults, fault.cause.message ≠ "Unexpected dedent" := by
  have hblocked := ofSource_blocked "a\n\t\tb\n\tc\n\t\td\n"
  obtain ⟨⟨program, faults⟩, hread, hcount⟩ := exists_ok_of_any
    (ofSource "a\n\t\tb\n\tc\n\t\td\n") (·.2.length == 2) (by decide +kernel)
  exact ⟨program, faults, hread, beq_iff_eq.mp hcount, hblocked.1,
    hblocked.2 program faults hread⟩

/-! ## Siblings -/

def Beside (faults : List Fault) (a b : List Token) (nodes : List Node) : Prop :=
  ∃ left these those right, nodes = left ++ (these ++ (those ++ right)) ∧
    Accounts faults [a] these ∧ Accounts faults [b] those

/-- What two lines make, side by side among some nodes or directly inside a node below them. -/
def Siblings (faults : List Fault) (a b : List Token) (nodes : List Node) : Prop :=
  Beside faults a b nodes ∨ ∃ parent ∈ nodes.flatMap Node.walk, Beside faults a b parent.children

section

variable {faults : List Fault} {a b : List Token} {nodes others : List Node}

theorem Beside.append_left (h : Beside faults a b nodes) (front : List Node) :
    Beside faults a b (front ++ nodes) := by
  obtain ⟨left, these, those, right, rfl, ha, hb⟩ := h
  exact ⟨front ++ left, these, those, right, (append_assoc _ _ _).symm, ha, hb⟩

theorem Beside.append_right (h : Beside faults a b nodes) (back : List Node) :
    Beside faults a b (nodes ++ back) := by
  obtain ⟨left, these, those, right, rfl, ha, hb⟩ := h
  exact ⟨left, these, those, right ++ back, by simp only [append_assoc], ha, hb⟩

theorem Siblings.append_left (h : Siblings faults a b nodes) (front : List Node) :
    Siblings faults a b (front ++ nodes) := by
  rcases h with hbeside | ⟨parent, hparent, hbeside⟩
  · exact .inl (hbeside.append_left front)
  · rw [Siblings, flatMap_append]
    exact .inr ⟨parent, mem_append_right _ hparent, hbeside⟩

theorem Siblings.append_right (h : Siblings faults a b nodes) (back : List Node) :
    Siblings faults a b (nodes ++ back) := by
  rcases h with hbeside | ⟨parent, hparent, hbeside⟩
  · exact .inl (hbeside.append_right back)
  · rw [Siblings, flatMap_append]
    exact .inr ⟨parent, mem_append_left _ hparent, hbeside⟩

theorem Siblings.exists_parent {root : Node} (h : Siblings faults a b root.children) :
    ∃ parent ∈ root.walk, Beside faults a b parent.children := by
  rw [Node.walk_eq]
  rcases h with hbeside | ⟨parent, hparent, hbeside⟩
  · exact ⟨root, mem_cons_self, hbeside⟩
  · exact ⟨parent, mem_cons_of_mem _ hparent, hbeside⟩

end

theorem Makes.single {P : Position → Prop} {first : Token} {line : List Token}
    {before after faults : List Fault} {inner nodes : List Node} {p : Position} {text : List Char}
    (h : Makes first line before after inner nodes) (hlined : Lined P p text (first :: line))
    (hfaults : after ⊆ faults) : Accounts faults [first :: line] nodes := by
  cases h with
  | node opens made children inline => exact .node opens .nil
  | lost kind unread recorded =>
    obtain ⟨fault, hfault, hmessage⟩ := exists_reported hlined unread
    exact .lost kind ⟨fault, hfaults (recorded ▸ mem_append_right _ hfault), hmessage⟩ .nil

/-- Siblings in the block of a line stand below the node of the line. -/
theorem Makes.siblings {first : Token} {line a b : List Token} {before after faults : List Fault}
    {inner nodes : List Node} (h : Makes first line before after inner nodes)
    (hkind : first.kind ≠ .expressionStart) (hinner : Siblings faults a b inner) :
    Siblings faults a b nodes := by
  cases h with
  | @node node within opens made children inline =>
    have hchildren : Siblings faults a b node.children := by
      rw [children]
      exact hinner.append_left within
    refine .inr ?_
    rw [flatMap_singleton]
    exact hchildren.exists_parent
  | lost kind unread recorded => exact absurd kind hkind

/-- The first line of a block makes the first of its nodes. -/
theorem Reads.leads {P : Position → Prop} {parent : Option String} {first : Token}
    {line : List Token} {items : List Item} {before after faults : List Fault} {nodes : List Node}
    (h : Reads parent (.line first line :: items) before nodes after)
    (hlaid : Laid P (.line first line :: items)) (hfaults : after ⊆ faults) :
    ∃ these right, nodes = these ++ right ∧ Accounts faults [first :: line] these := by
  obtain ⟨⟨p, text, hlined⟩, hrest⟩ := hlaid.line
  cases h with
  | line owns taken heads inner rest =>
    obtain ⟨hinside, -⟩ := hrest.owned owns
    have hmid := List.Subset.trans inner.subset (List.Subset.trans rest.subset hfaults)
    exact ⟨_, _, rfl, (inner.makes owns heads hinside _).1.single hlined hmid⟩

theorem Reads.siblings {P : Position → Prop} {parent : Option String} {items : List Item}
    {before after faults : List Fault} {nodes : List Node} {a b : Token} {as bs : List Token}
    (h : Reads parent items before nodes after) (hlaid : Laid P items) (hfaults : after ⊆ faults)
    (hadjoin : Adjoin (.line a as) (.line b bs) items) :
    Siblings faults (a :: as) (b :: bs) nodes := by
  induction h with
  | nil => cases hadjoin
  | newline rest ih =>
    cases hadjoin with
    | later hlater => exact ih ⟨hlaid.lined, hlaid.solidChain⟩ hfaults hlater
  | block inner rest ihInner ih =>
    obtain ⟨hinside, hothers⟩ := hlaid.block
    cases hadjoin with
    | later hlater => exact (ih hothers hfaults hlater).append_left _
    | inside hinner =>
      exact (ihInner hinside (List.Subset.trans rest.subset hfaults) hinner).append_right _
  | @line parent first line owned items others heading before mid late after nodes more owns taken
      heads inner rest ihInner ih =>
    obtain ⟨⟨p, text, hlined⟩, hrest⟩ := hlaid.line
    obtain ⟨hinside, hothers⟩ := hrest.owned owns
    have hlate := List.Subset.trans rest.subset hfaults
    have hmakes := (inner.makes owns heads hinside
      (lastToken (line.getLastD first) items).span.stop).1
    rcases owns with ⟨rfl, rfl⟩ | ⟨howns, indent, rfl⟩
    · cases hadjoin with
      | here =>
        obtain ⟨those, right, rfl, hthose⟩ := rest.leads hothers hfaults
        have hthese := hmakes.single hlined (List.Subset.trans inner.subset hlate)
        exact .inl ⟨[], _, those, right, rfl, hthese, hthose⟩
      | later hlater => exact (ih hothers hfaults hlater).append_left _
    · cases hadjoin with
      | later hlater =>
        cases hlater with
        | later hlater => exact (ih hothers hfaults hlater).append_left _
        | inside hinner =>
          refine Siblings.append_right ?_ more
          refine hmakes.siblings (fun hkind => ?_) (ihInner hinside hlate hinner)
          simp [Role.of, hkind, Role.ownsBlock] at howns

/-! ## Lines of one width -/

theorem contains_scanLines {a b : Item} {before rest : List Line}
    (hendings : ∀ line ∈ before, line.ending ≠ []) {opened : List Nat} {p : Position}
    (h : Contains a b (Outline.ofTokens
      (scanLines (before.foldl blocksAfter opened) (afterLines p before) rest))) :
    Contains a b (Outline.ofTokens (scanLines opened p (before ++ rest))) := by
  induction before generalizing opened p with
  | nil => exact h
  | cons line before ih =>
    obtain ⟨hending, hendings⟩ := forall_mem_cons.mp hendings
    have hbehind := ih hendings h
    by_cases hbody : line.body = []
    · have hempty : line.body.isEmpty = true := isEmpty_iff.mpr hbody
      rw [cons_append, scanLines_cons, lineTokens, if_pos hempty, nil_append]
      exact hbehind
    · rw [cons_append, ofTokens_scanLines_cons hbody rfl fun hnil => absurd hnil hending]
      refine Contains.marks (indentation_kinds _ _ _ _) (hbehind.imp_left fun hadjoin => ?_)
      cases scanContent (currentDepth (blocksAfter opened line)) (p.advance line.lead.length)
          line.body <;> exact .later hadjoin

/-- Two lines of a source that are not blank, with only blank lines between them. -/
structure Consecutive (source : String) (before : List Line) (first : Line) (blanks : List Line)
    (second : Line) (after : List Line) : Prop where
  lines : Source.lines source.toList = before ++ first :: (blanks ++ second :: after)
  first : first.body ≠ []
  blanks : ∀ line ∈ blanks, line.body = []
  second : second.body ≠ []

namespace Consecutive

variable {source : String} {before blanks after : List Line} {first second : Line}

def front (before : List Line) (first : Line) : List Token :=
  linesTokens [] .origin before ++ blockTokens before first

def between (before : List Line) (first : Line) (blanks : List Line) (second : Line) : List Token :=
  lineBreak first (afterLines .origin before) ++ blockTokens (before ++ first :: blanks) second

theorem tokens (h : Consecutive source before first blanks second after) :
    Token.ofSource source = front before first ++ (contentTokens before first ++
      (between before first blanks second ++ (contentTokens (before ++ first :: blanks) second ++
        (lineBreak second (afterLines .origin (before ++ first :: blanks)) ++
          scanLines (openBlocks (before ++ first :: blanks ++ [second]))
            (afterLines .origin (before ++ first :: blanks ++ [second])) after)))) := by
  have hfirst := scanLines_split h.first before (blanks ++ second :: after)
  have hsecond := scanLines_split h.second (before ++ first :: blanks) after
  have hblanks := scanLines_append (openBlocks (before ++ [first]))
    (afterLines .origin (before ++ [first])) blanks (second :: after)
  rw [openBlocks, ← foldl_append, afterLines, afterLines, ← foldl_append,
    linesTokens_blanks h.blanks, nil_append, ← append_cons] at hblanks
  rw [Token.ofSource, h.lines, Token.scanLines_append]
  refine (congrArg (linesTokens [] .origin before ++ ·) (hfirst.trans ?_)).trans
    (append_assoc _ _ _).symm
  rw [between, append_assoc (lineBreak first _)]
  exact congrArg _ (congrArg _ (congrArg _ (hblanks.trans hsecond)))

/-- Where the second line opens and closes no block, the lines are neighbours in the outline. -/
theorem adjoin (h : Consecutive source before first blanks second after)
    (hlevel : blockTokens (before ++ first :: blanks) second = []) {a b : Token}
    {as bs : List Token} (hfirst : contentTokens before first = a :: as)
    (hsecond : contentTokens (before ++ first :: blanks) second = b :: bs) :
    Adjoin (.line a as) (.line b bs) (Outline.ofTokens (Token.ofSource source)).items := by
  have hlines := h.lines
  rw [append_cons, ← append_assoc] at hlines
  have hendings := ending_of_lines hlines
  have hlast : second.ending = [] → after = [] ∧ b :: bs ≠ [] := by
    refine fun hending => ⟨?_, cons_ne_nil _ _⟩
    cases after with
    | nil => rfl
    | cons next after =>
      rw [append_cons] at hlines
      exact absurd hending (ending_of_lines hlines second (by simp))
  have hsecond' := @ofTokens_scanLines_cons second (openBlocks (before ++ first :: blanks)) after
    (b :: bs) (afterLines .origin (before ++ first :: blanks)) h.second
    (by rw [← openBlocks_concat]; exact hsecond) hlast
  rw [← blockTokens, hlevel] at hsecond'
  have hblanks : scanLines (blocksAfter (openBlocks before) first)
      (first.after (afterLines .origin before)) (blanks ++ second :: after) =
        scanLines (openBlocks (before ++ first :: blanks))
          (afterLines .origin (before ++ first :: blanks)) (second :: after) := by
    rw [scanLines_append, linesTokens_blanks h.blanks, openBlocks, openBlocks, afterLines,
      afterLines,
      afterLines, foldl_append, foldl_append]
    rfl
  have hcontains : Contains (.line a as) (.line b bs)
      (Outline.ofTokens (Token.ofSource source)) := by
    rw [Token.ofSource, h.lines]
    refine contains_scanLines (fun line hline => hendings line (by simp [hline])) ?_
    change Contains _ _ (Outline.ofTokens (scanLines (openBlocks before) _ _))
    rw [@ofTokens_scanLines_cons first (openBlocks before) _ (a :: as) _ h.first
      (by rw [← openBlocks_concat]; exact hfirst) fun hnil =>
        absurd hnil (hendings first (by simp))]
    refine Contains.marks (indentation_kinds _ _ _ _) (.inl ?_)
    rw [hblanks, hsecond']
    exact .here
  rcases hcontains with hitems | ⟨stray, hstray, -⟩
  · exact hitems
  · rw [strays_ofSource] at hstray
    cases hstray

end Consecutive

open Consecutive in
/-- Lines of one width that follow each other stand in one block: no block is opened or closed
between them, and they make siblings. This takes a block of their width that is open behind the
first, the margin counted as one. Where the first line closed blocks down to a width that none has,
the second opens one. -/
theorem ofSource_level {source : String} {before blanks after : List Line} {first second : Line}
    (h : Consecutive source before first blanks second after)
    (hwidth : first.width = second.width) :
    (∃ rest, Token.ofSource source = front before first ++ (contentTokens before first ++
      (between before first blanks second ++
        (contentTokens (before ++ first :: blanks) second ++ rest)))) ∧
    (first.width ∈ openBlocks (before ++ [first]) ++ [0] →
      (∀ token ∈ between before first blanks second, token.kind = .newline) ∧
      ∀ program faults, ofSource source = .ok (program, faults) →
        contentTokens before first ≠ [] → contentTokens (before ++ first :: blanks) second ≠ [] →
          ∃ parent ∈ (Node.program program).walk, Beside faults (contentTokens before first)
            (contentTokens (before ++ first :: blanks) second) parent.children) ∧
    (first.width ∉ openBlocks (before ++ [first]) ++ [0] →
      first.width < currentDepth (openBlocks before) ∧
      countKind .indent (between before first blanks second) = 1 ∧
      countKind .dedent (between before first blanks second) = 0) := by
  have hblocks : openBlocks (before ++ first :: blanks) = openBlocks (before ++ [first]) := by
    rw [append_cons, openBlocks_blanks h.blanks]
  have hdepth := currentDepth_eq_width h.first before
  have hfeeds := kinds_lineBreak first (afterLines .origin before)
  refine ⟨⟨_, h.tokens⟩, fun hopen => ?_, fun hclosed => ?_⟩
  · have hlevel : blockTokens (before ++ first :: blanks) second = [] :=
      blockTokens_eq_nil (by rw [hblocks, hdepth.mpr hopen, hwidth])
    refine ⟨?_, fun program faults hread hfirst hsecond => ?_⟩
    · rw [between, hlevel, append_nil]
      exact hfeeds
    · obtain ⟨a, as, ha⟩ := exists_cons_of_ne_nil hfirst
      obtain ⟨b, bs, hb⟩ := exists_cons_of_ne_nil hsecond
      obtain ⟨items, stop, hreading⟩ := reading_ofSource hread
      have hadjoin := h.adjoin hlevel ha hb
      rw [← hreading.outline] at hadjoin
      rw [ha, hb]
      exact (hreading.reads.siblings ⟨hreading.lined, _, _, hreading.solidChain⟩
        (List.Subset.refl faults) hadjoin).exists_parent
  · have hle := currentDepth_le_width h.first (openBlocks before)
    rw [← openBlocks_concat] at hle
    have hlt : currentDepth (openBlocks (before ++ first :: blanks)) < second.width := by
      rw [hblocks, ← hwidth]
      exact Nat.lt_of_le_of_ne hle fun heq => hclosed (hdepth.mp heq)
    have hnone (kind : Kind) (hkind : kind ≠ .newline) :
        countKind kind (lineBreak first (afterLines .origin before)) = 0 := by
      refine countP_eq_zero.mpr fun token htoken => ?_
      simpa [hfeeds token htoken] using hkind.symm
    refine ⟨width_lt_currentDepth h.first hclosed, ?_, ?_⟩
    all_goals
      rw [between, blockTokens, indentation, if_pos hlt, countKind_append, hnone _ (by decide)]
    all_goals rfl

/-- Two answers with a blank line between them. -/
theorem ofSource_level_answers :
    ∃ before first blank second,
      Consecutive "*if: 1\n\tA\n\n\tB\n" before first [blank] second [] ∧
      first.width = 1 ∧ second.width = 1 ∧ openBlocks (before ++ [first]) = [1] ∧
      (∀ token ∈ Consecutive.between before first [blank] second, token.kind = .newline) ∧
      ∃ program faults, ofSource "*if: 1\n\tA\n\n\tB\n" = .ok (program, faults) ∧
        ∃ parent ∈ (Node.program program).walk, Beside faults (contentTokens before first)
          (contentTokens (before ++ [first, blank]) second) parent.children := by
  have hfirst : (contentTokens [⟨"*if: 1".toList, ['\n']⟩] ⟨['\t', 'A'], ['\n']⟩).isEmpty =
      false := by
    decide +kernel
  have hsecond : (contentTokens [⟨"*if: 1".toList, ['\n']⟩, ⟨['\t', 'A'], ['\n']⟩, ⟨[], ['\n']⟩]
      ⟨['\t', 'B'], ['\n']⟩).isEmpty = false := by decide +kernel
  have hlines : Consecutive "*if: 1\n\tA\n\n\tB\n" [⟨"*if: 1".toList, ['\n']⟩]
      ⟨['\t', 'A'], ['\n']⟩ [⟨[], ['\n']⟩] ⟨['\t', 'B'], ['\n']⟩ [] :=
    ⟨by decide, by decide, by simp [Line.body], by decide⟩
  obtain ⟨-, hlevel, -⟩ := ofSource_level hlines (by decide)
  obtain ⟨hbetween, hsiblings⟩ := hlevel (by decide)
  refine ⟨_, _, _, _, hlines, by decide, by decide, by decide, hbetween, ?_⟩
  obtain ⟨⟨program, faults⟩, hread, -⟩ := exists_ok_of_any (ofSource "*if: 1\n\tA\n\n\tB\n")
    (fun _ => true) (by decide +kernel)
  exact ⟨program, faults, hread, hsiblings program faults hread
    (isEmpty_eq_false_iff.mp hfirst) (isEmpty_eq_false_iff.mp hsecond)⟩

/-- The third line closes a block of three tabs and has two. The fourth, with two tabs as well,
opens a block behind it. -/
theorem ofSource_level_forgotten :
    (Source.lines "a\n\t\t\tb\n\t\tc\n\t\td\n".toList).map Line.width = [0, 3, 2, 2] ∧
      (Token.ofSource "a\n\t\t\tb\n\t\tc\n\t\td\n").map (fun token => (token.kind, token.text)) =
        [(.text, "a"), (.newline, "\n"), (.indent, "\t\t\t"), (.text, "b"), (.newline, "\n"),
          (.dedent, ""), (.text, "c"), (.newline, "\n"), (.indent, "\t\t"), (.text, "d"),
          (.newline, "\n"), (.dedent, ""), (.endOfInput, "")] := by
  constructor
  · decide
  · decide +kernel

end Program
end GuidedTrack
