import Mathlib.Data.List.Nodup
import GuidedTrack.Proofs.Program.BlockStructure
import GuidedTrack.Proofs.Program.CodeLocality

/-! # Code that cannot be read stays on its line

A document around a line of code has the same tree and the same faults whatever the code is, but for
the one expression and for the faults of that line.
-/

namespace GuidedTrack

open List Token

variable {line : Int} {faults : List Fault} {program : Program}

/-! ## Tokens -/

namespace Token

open Source Text

def codeLine (tabs : Nat) (code : List Char) : Line :=
  ⟨replicate tabs '\t' ++ '>' :: '>' :: code, ['\n']⟩

section

variable (tabs : Nat) (code : List Char)

theorem body_codeLine : (codeLine tabs code).body = '>' :: '>' :: code := by
  rw [Line.body, codeLine, dropWhile_append_of_pos fun c hc => by
    rw [eq_of_mem_replicate hc]; rfl]
  rfl

theorem lead_codeLine : (codeLine tabs code).lead = replicate tabs '\t' := by
  rw [Line.lead, codeLine, takeWhile_append_of_pos fun c hc => by
    rw [eq_of_mem_replicate hc]; rfl]
  exact append_nil _

theorem width_codeLine : (codeLine tabs code).width = tabs := by
  rw [Line.width, codeLine, takeWhile_append_of_pos fun c hc => by
    rw [eq_of_mem_replicate hc]; rfl]
  exact (congrArg List.length (append_nil _)).trans length_replicate

theorem blocksAfter_codeLine (opened : List Nat) (other : List Char) :
    blocksAfter opened (codeLine tabs code) = blocksAfter opened (codeLine tabs other) := by
  rw [blocksAfter, blocksAfter, body_codeLine, body_codeLine, width_codeLine, width_codeLine]
  rfl

theorem after_codeLine (p : Position) (other : List Char) :
    (codeLine tabs other).after p = Position.shift 0 0 (other.length - code.length)
      ((codeLine tabs code).after p) := by
  simp only [Line.after, codeLine, Line.length, Position.shift, isEmpty_cons, Bool.false_eq_true,
    if_false, length_append, length_cons, Position.mk.injEq]
  omega

theorem lines_around {a : List Char} (ha : EndsLine a) (hcode : Inline code)
    (b : List Char) :
    Source.lines (a ++ (replicate tabs '\t' ++ '>' :: '>' :: code ++ '\n' :: b)) =
      Source.lines a ++ codeLine tabs code :: Source.lines b := by
  rw [lines_append ha, Source.lines_feed]
  · rfl
  · intro c hc
    rcases mem_append.mp hc with htab | hrest
    · rw [eq_of_mem_replicate htab]
      rfl
    · simp only [mem_cons] at hrest
      rcases hrest with rfl | rfl | hrest
      · rfl
      · rfl
      · exact hcode c hrest

end

end Token

/-! ## Outlines -/

namespace Program

open Source Text
open GuidedTrack.Expr (exists_of_bind_eq_ok)
open Outline (Twin twin_map CodeRow RowPair Level)
open Token (afterLines scanLines codeLine)

variable {code other : List Char}

theorem codeRow_codeLine (depth : Nat) (p : Position) (hcode : Inline code) :
    CodeRow p.line (scanContent depth p ('>' :: '>' :: code)) := by
  have hinline : Inline ('>' :: '>' :: code) :=
    forall_mem_cons.mpr ⟨rfl, forall_mem_cons.mpr ⟨rfl, hcode⟩⟩
  refine ⟨fun token htoken => ?_, (lined_scanContent _ hinline fun _ _ => rfl).solidChain.solid⟩
  obtain rfl := Option.some.inj htoken
  rfl

/-- The outlines of documents that differ in the code of one line. -/
theorem twin_codeLine (tabs : Nat) (hcode : Inline code) (hother : Inline other)
    {before : List Line}
    (hendings : ∀ line ∈ before, line.ending ≠ []) (rest : List Line) (opened : List Nat)
    (p : Position) :
    Twin (RowPair (afterLines p before).line) Level
      (Outline.ofTokens (scanLines opened p (before ++ codeLine tabs code :: rest)))
      (Outline.ofTokens (scanLines opened p (before ++ codeLine tabs other :: rest))) := by
  have hmarks (opened : List Nat) (width : Nat) (lead : List Char) (p : Position) :
      Forall₂ (fun t u => Level t u ∧ u.kind = t.kind ∧ (t.kind = .indent ∨ t.kind = .dedent))
        (indentation opened width lead p).1 (indentation opened width lead p).1 :=
    forall₂_same.mpr fun t ht => ⟨⟨rfl, rfl⟩, rfl, indentation_kinds _ _ _ _ t ht⟩
  induction before generalizing opened p with
  | nil =>
    have hbody (code : List Char) : (codeLine tabs code).body ≠ [] := by simp [body_codeLine]
    have hending (code : List Char) {P : Prop} (hnil : (codeLine tabs code).ending = []) : P := by
      cases hnil
    have hbehind := (twin_map (f := Token.shift 0 0 (other.length - code.length)) (fun _ => rfl)
      (scanLines (blocksAfter opened (codeLine tabs code)) ((codeLine tabs code).after p) rest)).imp
      (S := RowPair p.line) (N := Level)
      (fun _ _ hrow => .inl ⟨_, hrow⟩) (by rintro t _ rfl; exact ⟨Int.add_zero _, Int.add_zero _⟩)
    rw [← scanLines_shift, ← after_codeLine, blocksAfter_codeLine tabs code opened other] at hbehind
    rw [nil_append, nil_append, ofTokens_scanLines_cons (hbody code) rfl (hending code),
      ofTokens_scanLines_cons (hbody other) rfl (hending other),
          blocksAfter_codeLine tabs code opened other,
      body_codeLine, body_codeLine, lead_codeLine, lead_codeLine, width_codeLine, width_codeLine]
    refine Twin.marks ?_ (hmarks _ _ _ _)
    refine ⟨.line (.inr ⟨?_, ?_⟩) hbehind.items, hbehind.strays⟩
    · exact codeRow_codeLine 0 (p.advance (replicate tabs '\t').length) hcode
    · exact codeRow_codeLine 0 (p.advance (replicate tabs '\t').length) hother
  | cons line before ih =>
    obtain ⟨hending, hendings⟩ := forall_mem_cons.mp hendings
    have hbehind := ih hendings (blocksAfter opened line) (line.after p)
    by_cases hbody : line.body = []
    · have hempty : line.body.isEmpty = true := isEmpty_iff.mpr hbody
      rw [cons_append, cons_append, scanLines_cons, scanLines_cons, lineTokens, if_pos hempty]
      exact hbehind
    · rw [cons_append, cons_append,
        ofTokens_scanLines_cons hbody rfl fun hnil => absurd hnil hending,
        ofTokens_scanLines_cons hbody rfl fun hnil => absurd hnil hending]
      refine Twin.marks ?_ (hmarks _ _ _ _)
      refine ⟨?_, hbehind.strays⟩
      cases scanContent (currentDepth (blocksAfter opened line)) (p.advance line.lead.length)
        line.body with
      | nil => exact .newline hbehind.items
      | cons first row => exact .line (.refl _ _) hbehind.items

/-! ## Expressions of a line -/

theorem Opens.line_eq {first : Token} {node : Node} (h : Opens first node)
    (hnode : node.isExpressionOn line = true) : first.span.start.line = line := by
  cases h with
  | expression kind start =>
    rw [← start]
    exact of_decide_eq_true hnode
  | comment | keyword | subKeyword | answer | prose => cases hnode

theorem Accounts.countP_le {lines : List (List Token)} {nodes : List Node}
    (h : Accounts faults lines nodes) (line : Int) :
    nodes.countP (·.isExpressionOn line) ≤
      ((lines.filterMap List.head?).map fun first => first.span.start.line).count line := by
  induction h with
  | nil => exact Nat.le_refl 0
  | @node first row lines node nodes opens rest ih =>
    rw [countP_cons, filterMap_cons, head?_cons, map_cons, count_cons]
    split
    · rename_i hnode
      rw [if_pos (beq_iff_eq.mpr (opens.line_eq hnode))]
      exact Nat.succ_le_succ ih
    · exact Nat.le_add_right_of_le ih
  | lost kind reported rest ih =>
    rw [filterMap_cons, head?_cons, map_cons]
    exact Nat.le_trans ih count_le_count_cons

theorem nodup_contentLines (source : String) :
    (((Token.contentLines (Token.ofSource source)).filterMap List.head?).map fun first =>
      first.span.start.line).Nodup := by
  obtain ⟨rows, hdocument, -⟩ := linedDocument_ofSource source
  rw [hdocument.contentLines_eq, Nodup, pairwise_map, pairwise_filterMap]
  refine (hdocument.ascending.sublist filter_sublist).imp fun hlt t ht u hu => ?_
  exact Int.ne_of_lt (hlt t (mem_of_mem_head? ht) u (mem_of_mem_head? hu))

theorem countP_walk_le_one {source : String} (h : ofSource source = .ok (program, faults))
    (line : Int) : (Node.program program).walk.countP (·.isExpressionOn line) ≤ 1 := by
  obtain ⟨items, stop, hreading⟩ := reading_ofSource h
  have haccounts := hreading.reads.accounts ⟨hreading.lined, _, _, hreading.solidChain⟩
    (List.Subset.refl faults)
  have hlines : (Node.program program).children.flatMap Node.lineNodes =
      (Node.program program).lineNodes := by
    rw [Node.lineNodes_eq (.program program)]
    rfl
  have hwalk : (Node.program program).walk.countP (·.isExpressionOn line) =
      (Node.program program).lineNodes.countP (·.isExpressionOn line) := by
    rw [Node.lineNodes, countP_filter]
    refine countP_congr fun node _ => ?_
    cases node <;> simp [Node.isExpressionOn, Node.isLine]
  rw [hreading.lines, hlines] at haccounts
  rw [hwalk]
  exact Nat.le_trans (haccounts.countP_le line)
    (nodup_iff_count_le_one.mp (nodup_contentLines source) line)

/-! ## Documents -/

theorem elsewhere_of_twin {tokens others : List Token} {other : Program} {faults' : List Fault}
    (htwin : Twin (RowPair line) Level (Outline.ofTokens tokens) (Outline.ofTokens others))
    (hstrays : (Outline.ofTokens tokens).strays = []) (h : ofTokens tokens = .ok (program, faults))
    (h' : ofTokens others = .ok (other, faults')) :
    (program.without line).erase = (other.without line).erase ∧
      Fault.elsewhere line faults = Fault.elsewhere line faults' := by
  obtain ⟨⟨body, after⟩, hread, hprogram⟩ := exists_of_bind_eq_ok h
  obtain ⟨⟨body', after'⟩, hread', hprogram'⟩ := exists_of_bind_eq_ok h'
  cases hprogram
  cases hprogram'
  rw [readOutline_eq hstrays] at hread
  rw [readOutline_eq (htwin.strays_eq_nil hstrays)] at hread'
  obtain ⟨block, mid, hitems, hrest⟩ := exists_of_run_bind hread
  obtain ⟨block', mid', hitems', hrest'⟩ := exists_of_run_bind hread'
  cases hrest
  cases hrest'
  obtain ⟨⟨hblock, -⟩, found, found', rfl, rfl, hfaults⟩ :=
    (parallel_elsewhere line).readItems htwin.items none _ _ _ _ _ _ hitems hitems'
  refine ⟨?_, hfaults⟩
  simp only [Program.without, Program.erase]
  rw [(Prod.mk.inj hblock).1]

end Program

namespace Source

def around (before : String) (tabs : Nat) (code after : String) : String :=
  before ++ String.ofList (replicate tabs '\t') ++ ">>" ++ code ++ "\n" ++ after

end Source

namespace Program

open Source (isInline)
open Token (EndsLine breaks)

/-- Code bears on its own line only. Two documents that differ in the code of one line have the same
tree but for the one expression that this line may make, and the same faults on all other lines. -/
theorem ofSource_isolated {before : String} (hbefore : EndsLine before.toList) (tabs : Nat)
    {code other : String} (hcode : ∀ c ∈ code.toList, isInline c = true)
    (hother : ∀ c ∈ other.toList, isInline c = true) (after : String) {program program' : Program}
    {faults faults' : List Fault}
    (h : ofSource (Source.around before tabs code after) = .ok (program, faults))
    (h' : ofSource (Source.around before tabs other after) = .ok (program', faults'))
    {line : Int} (hline : line = breaks before.toList + 1) :
    (program.without line).erase = (program'.without line).erase ∧
      (Node.program program).walk.countP (·.isExpressionOn line) ≤ 1 ∧
      (Node.program program').walk.countP (·.isExpressionOn line) ≤ 1 ∧
      Fault.elsewhere line faults = Fault.elsewhere line faults' := by
  have hlines {code : String} (hcode : ∀ c ∈ code.toList, isInline c = true) :
      Source.lines (Source.around before tabs code after).toList =
        Source.lines before.toList ++
          Token.codeLine tabs code.toList :: Source.lines after.toList := by
    rw [← Token.lines_around _ _ hbefore hcode]
    simp [Source.around]
  have hplace : (Token.afterLines .origin (Source.lines before.toList)).line = line := by
    have hafter := Token.afterLines_place (Source.lines before.toList)
      (show Source.lines (before.toList.drop 0) = _ from rfl) (Nat.zero_le _)
      (Source.between_zero _)
    rw [hbefore.place_eq] at hafter
    refine (congrArg Position.line hafter).trans ?_
    rw [hline, Int.add_comm]
    rfl
  have htwin := twin_codeLine tabs hcode hother (Token.ending_of_endsLine hbefore)
    (Source.lines after.toList) [] .origin
  rw [← hlines hcode, ← hlines hother, hplace] at htwin
  obtain ⟨htree, hfaults⟩ := elsewhere_of_twin htwin (Token.strays_ofSource _) h h'
  exact ⟨htree, countP_walk_le_one h line, countP_walk_le_one h' line, hfaults⟩

/-- A sum, and a literal that nothing ends behind an open bracket, as the code of a block. A deeper
block and a line of code that cannot be read follow. -/
theorem ofSource_isolated_bracket :
    ∃ program faults program' faults',
      ofSource (Source.around "*if: x\n" 1 " 1 + 2" "\t\tA\n>> )") = .ok (program, faults) ∧
      ofSource (Source.around "*if: x\n" 1 "(\"" "\t\tA\n>> )") = .ok (program', faults') ∧
      faults.length = 2 ∧ faults'.length = 3 ∧
      (program.without 2).erase = (program'.without 2).erase ∧
      (Node.program program).walk.countP (·.isExpressionOn 2) ≤ 1 ∧
      (Node.program program').walk.countP (·.isExpressionOn 2) ≤ 1 ∧
      Fault.elsewhere 2 faults = Fault.elsewhere 2 faults' := by
  obtain ⟨result, hread, hcount⟩ := exists_ok_of_any
    (ofSource (Source.around "*if: x\n" 1 " 1 + 2" "\t\tA\n>> )")) (·.2.length == 2)
    (by decide +kernel)
  obtain ⟨other, hread', hcount'⟩ := exists_ok_of_any
    (ofSource (Source.around "*if: x\n" 1 "(\"" "\t\tA\n>> )")) (·.2.length == 3)
    (by decide +kernel)
  have hinline : ∀ c ∈ " 1 + 2".toList, Source.isInline c = true :=
    all_eq_true.mp (by decide)
  have hinline' : ∀ c ∈ "(\"".toList, Source.isInline c = true :=
    all_eq_true.mp (by decide)
  exact ⟨result.1, result.2, other.1, other.2, hread, hread', beq_iff_eq.mp hcount,
    beq_iff_eq.mp hcount', ofSource_isolated (.inr (by decide)) 1 hinline hinline' _ hread
      hread' (by decide)⟩

end Program
end GuidedTrack
