import GuidedTrack.Proofs.Node.SimilarTours
import GuidedTrack.Proofs.TreeRelocation

/-! # Tours at other places

A tour of a tree that stands elsewhere takes the steps of the tour of that tree: it enters and
leaves the same nodes, elsewhere, in the same order and below the same nodes.
-/

namespace GuidedTrack

open List

/-! ## Nodes -/

namespace Node

def relocate (m : Position → Position) : Node → Node
  | program value => program (value.relocate m)
  | statement value => statement (value.relocate m)
  | subKeyword value => subKeyword (value.relocate m)
  | prose value => prose (value.relocate m)
  | expr value => expr (value.relocate m)
  | entry value => entry (value.relocate m)

variable {m : Position → Position}

theorem span_relocate (node : Node) : (node.relocate m).span = node.span.relocate m := by
  cases node with
  | program value => rfl
  | statement value | subKeyword value | expr value | entry value => exact value.span_relocate
  | prose value => rfl

theorem ofParts_relocate (parts : List Part) :
    ofParts (parts.map (Part.relocate m)) = (ofParts parts).map (relocate m) := by
  induction parts with
  | nil => rfl
  | cons part parts ih =>
    cases part with
    | text value => exact ih
    | expr value => exact congrArg (Node.expr (value.relocate m) :: ·) ih

theorem ofArgument_relocate (argument : Option Argument) :
    (argument.map (Argument.relocate m)).toList.map ofArgument =
      (argument.toList.map ofArgument).map (relocate m) := by
  rcases argument with - | (value | value) <;> rfl

theorem map_statement_relocate (body : List Statement) :
    (body.map (Statement.relocate m)).map statement = (body.map statement).map (relocate m) := by
  rw [map_map, map_map]
  rfl

theorem map_subKeyword_relocate (subKeywords : List SubKeyword) :
    (subKeywords.map (SubKeyword.relocate m)).map subKeyword =
      (subKeywords.map subKeyword).map (relocate m) := by
  rw [map_map, map_map]
  rfl

theorem startsBefore_relocate (hm : Program.KeepsOrder (Moves m)) (a b : Node) :
    (a.relocate m).startsBefore (b.relocate m) = a.startsBefore b := by
  rw [startsBefore, startsBefore, span_relocate, span_relocate]
  exact decide_eq_decide.mpr (hm rfl rfl).symm

theorem children_relocate (hm : Program.KeepsOrder (Moves m)) (node : Node) :
    (node.relocate m).children = node.children.map (relocate m) := by
  cases node with
  | program value => exact map_statement_relocate value.body
  | statement value =>
    cases value with
    | keyword span name argument subKeywords body =>
      simp only [relocate, Statement.relocate, children, Statement.relocateList_eq,
        SubKeyword.relocateList_eq, ofArgument_relocate, map_statement_relocate,
        map_subKeyword_relocate, map_append]
      rw [map_mergeSort fun a _ b _ => (startsBefore_relocate hm a b).symm,
        map_append]
    | answer span text body =>
      simp only [relocate, Statement.relocate, children, Statement.relocateList_eq,
        map_statement_relocate, map_cons]
    | prose text => exact ofParts_relocate text.parts
    | expression span value => rfl
    | comment span text => rfl
  | subKeyword value =>
    obtain ⟨span, name, argument, body⟩ := value
    simp only [relocate, SubKeyword.relocate, children, Statement.relocateList_eq,
      ofArgument_relocate, map_statement_relocate, map_append]
  | prose value => exact ofParts_relocate value.parts
  | expr value =>
    cases value with
    | identifier | literal | binary | unary | member | index => rfl
    | call | array | object =>
      simp only [relocate, Expr.relocate, children, Expr.relocateList_eq, Entry.relocateList_eq,
        map_cons, map_map]
      rfl
    | interpolated span parts =>
      simp only [relocate, Expr.relocate, children, Part.relocateList_eq, ofParts_relocate]
  | entry value =>
    obtain ⟨span, key, value⟩ := value
    rfl

end Node

/-! ## Tours -/

section

variable {m : Position → Position} {N : Int → Int → Prop}

theorem Argument.like_relocate (argument : Option Argument) :
    Argument.Like (Moves m) (Moves m) argument (argument.map (Argument.relocate m)) := by
  rcases argument with - | value | ⟨span, parts⟩
  · exact .none
  · exact .expr value.like_relocate
  · refine .prose rfl ?_
    induction parts with
    | nil => exact .nil
    | cons part parts ih =>
      cases part with
      | text value => exact .text ih
      | expr value => exact .expr value.like_relocate ih

namespace Node

theorem alike_relocate {node : Node} (h : N node.span.start.offset (m node.span.start).offset) :
    node.Alike (Moves m) (Moves m) N (node.relocate m) := by
  cases node with
  | program value => exact .program
  | statement value =>
    cases value with
    | keyword span name argument subKeywords body =>
      refine .keyword rfl (Argument.like_relocate argument) ?_ fun _ => h
      rw [SubKeyword.relocateList_eq, map_map]
      refine map_congr_left fun sub _ => ?_
      cases sub
      rfl
    | answer span text body => exact .answer
    | prose text => exact .text
    | expression span value => exact .expression value.like_relocate
    | comment span text => exact .comment
  | subKeyword value =>
    obtain ⟨span, name, argument, body⟩ := value
    exact .subKeyword rfl (Argument.like_relocate argument)
  | prose value => exact .prose
  | expr value => exact .expr value.like_relocate
  | entry value => exact .entry

theorem tours_relocate (hm : Program.KeepsOrder (Moves m)) {node : Node}
    (h : ∀ inner ∈ node.walk, N inner.span.start.offset (m inner.span.start).offset) :
    Tours (Moves m) (Moves m) N node (node.relocate m) := by
  induction node using inductionOnChildren with
  | step node ih =>
    rw [walk_eq, forall_mem_cons, forall_mem_flatMap] at h
    refine tours_of_children (alike_relocate h.1) ?_
    rw [children_relocate hm, forall₂_map_right_iff]
    exact forall₂_same.mpr fun child hchild => ih _ hchild (h.2 child hchild)

end Node

end

end GuidedTrack
