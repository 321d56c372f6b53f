import GuidedTrack.Node
import GuidedTrack.Proofs.SpanRows
import Mathlib.Data.List.Pairwise

/-! # Nested nodes

A node is nested well if the nodes directly inside it stand in a row within its span and are nested
well in turn. The order of the document is the order in which a tour enters the nodes; where they
are nested well, it never goes back in the text.
-/

namespace GuidedTrack

open List

variable {node root : Node} {P : Position → Prop}

def Visit.entered? (visit : Visit) : Option Node :=
  match visit.phase with
  | .enter => some visit.node
  | .leave => none

namespace Node

/-! ## The order of the document -/

def walk (node : Node) : List Node :=
  (node.tour [] 0).filterMap Visit.entered?

@[elab_as_elim]
theorem inductionOnChildren {motive : Node → Prop} (node : Node)
    (step : ∀ node, (∀ child ∈ node.children, motive child) → motive node) : motive node := by
  induction hn : sizeOf node using Nat.strongRecOn generalizing node with
  | _ n ih =>
    exact step node fun child hchild => ih _ (hn ▸ sizeOf_lt_of_mem_children hchild) child rfl

theorem tour_eq (ancestors : List Node) (place : Nat) (node : Node) :
    node.tour ancestors place = ⟨.enter, node, ancestors, place⟩ ::
      (node.children.zipIdx.flatMap fun child => child.1.tour (node :: ancestors) child.2) ++
        [⟨.leave, node, ancestors, place⟩] := by
  rw [tour]
  conv => rhs; rw [← attach_map_subtype_val node.children, zipIdx_map, flatMap_map]
  rfl

theorem entered_tour (node : Node) (ancestors : List Node) (place : Nat) :
    (node.tour ancestors place).filterMap Visit.entered? = node :: node.children.flatMap walk := by
  induction node using inductionOnChildren generalizing ancestors place with
  | step node ih =>
    have hbelow {children : List Node} (hchildren : ∀ child ∈ children, child ∈ node.children)
        (k : Nat) : ((children.zipIdx k).flatMap fun child =>
          child.1.tour (node :: ancestors) child.2).filterMap Visit.entered? =
            children.flatMap walk := by
      induction children generalizing k with
      | nil => rfl
      | cons child children ihChildren =>
        obtain ⟨hchild, hrest⟩ := forall_mem_cons.mp hchildren
        rw [zipIdx_cons, flatMap_cons, filterMap_append, ihChildren hrest, flatMap_cons, walk,
          ih _ hchild, ih _ hchild]
    rw [tour_eq]
    simp only [cons_append, filterMap_cons, filterMap_append, Visit.entered?, filterMap_nil,
      append_nil, hbelow fun _ => id]

theorem walk_eq (node : Node) : node.walk = node :: node.children.flatMap walk :=
  entered_tour node [] 0

theorem forall_mem_walk {Q : Node → Prop} {root : Node} :
    (∀ node ∈ root.walk, Q node) ↔
      Q root ∧ ∀ child ∈ root.children, ∀ node ∈ child.walk, Q node := by
  rw [walk_eq, forall_mem_cons]
  refine and_congr_right fun _ => ⟨fun h child hchild node hnode => ?_, fun h node hnode => ?_⟩
  · exact h node (mem_flatMap.mpr ⟨child, hchild, hnode⟩)
  · obtain ⟨child, hchild, hnode⟩ := mem_flatMap.mp hnode
    exact h child hchild node hnode

/-- What passes on to the children of a node holds in the whole tree. -/
theorem forall_mem_walk_of_children {Q : Node → Prop} {root : Node}
    (hchildren : ∀ {node child : Node}, Q node → child ∈ node.children → Q child) (h : Q root) :
    ∀ node ∈ root.walk, Q node := by
  induction root using inductionOnChildren with
  | step root ih =>
    exact forall_mem_walk.mpr ⟨h, fun child hchild => ih _ hchild (hchildren h hchild)⟩

theorem self_mem_walk (node : Node) : node ∈ node.walk := by
  rw [walk_eq]
  exact mem_cons_self

theorem mem_walk_of_mem_tour {ancestors : List Node} {place : Nat} {visit : Visit}
    (h : visit ∈ root.tour ancestors place) : visit.node ∈ root.walk := by
  induction root using inductionOnChildren generalizing ancestors place with
  | step root ih =>
    rw [tour_eq] at h
    rw [walk_eq]
    simp only [mem_append, mem_cons, mem_flatMap, not_mem_nil, or_false] at h
    rcases h with (rfl | ⟨⟨child, i⟩, hchild, hvisit⟩) | rfl
    · exact mem_cons_self
    · have hmem : child ∈ root.children := fst_mem_of_mem_zipIdx hchild
      exact mem_cons_of_mem _ (mem_flatMap.mpr ⟨child, hmem, ih _ hmem hvisit⟩)
    · exact mem_cons_self

/-! ## What a node holds -/

def held : Node → List Node
  | program value => value.body.map statement
  | statement (.keyword _ _ argument subKeywords body) =>
    argument.toList.map ofArgument ++ subKeywords.map subKeyword ++ body.map statement
  | statement (.answer _ text body) => prose text :: body.map statement
  | statement (.prose text) => ofParts text.parts
  | statement (.expression _ value) => [expr value]
  | statement (.comment ..) => []
  | subKeyword (.mk _ _ argument body) => argument.toList.map ofArgument ++ body.map statement
  | prose value => ofParts value.parts
  | expr (.identifier _) => []
  | expr (.literal ..) => []
  | expr (.binary _ _ left right) => [expr left, expr right]
  | expr (.unary _ _ argument) => [expr argument]
  | expr (.member _ object property) => [expr object, expr (.identifier property)]
  | expr (.call _ callee arguments) => expr callee :: arguments.map expr
  | expr (.index _ object index) => [expr object, expr index]
  | expr (.array _ elements) => elements.map expr
  | expr (.object _ entries) => entries.map entry
  | expr (.interpolated _ parts) => ofParts parts
  | entry (.mk _ key value) => [expr key, expr value]

/-- In the order of the document, nothing that a node holds is lost or doubled. -/
theorem children_perm_held (node : Node) : node.children.Perm node.held := by
  cases node with
  | statement value =>
    cases value with
    | keyword span name argument subKeywords body =>
      rw [children, held, append_assoc]
      exact (mergeSort_perm _ _).append_left _
    | _ => exact .refl _
  | program value => exact .refl _
  | subKeyword value | entry value => cases value; exact .refl _
  | prose value => exact .refl _
  | expr value => cases value <;> exact .refl _

/-! ## Nodes within a line -/

section

variable {child : Node}

def isWithinLine : Node → Bool
  | expr _ | entry _ | prose _ => true
  | _ => false

def isCode : Node → Bool
  | expr _ | entry _ => true
  | _ => false

theorem isWithinLine_of_isCode (h : node.isCode = true) : node.isWithinLine = true := by
  cases node <;> first | rfl | cases h

theorem isCode_of_mem_ofParts {parts : List Part} (h : child ∈ ofParts parts) :
    child.isCode = true := by
  obtain ⟨part, -, hchild⟩ := mem_filterMap.mp h
  cases part with
  | text value => cases hchild
  | expr value =>
    cases hchild
    rfl

theorem isWithinLine_of_mem_argument (argument : Option Argument) :
    ∀ child ∈ argument.toList.map ofArgument, child.isWithinLine = true := by
  intro child hchild
  obtain ⟨value, -, rfl⟩ := mem_map.mp hchild
  cases value <;> rfl

theorem isCode_children (h : node.isWithinLine = true) (hchild : child ∈ node.children) :
    child.isCode = true := by
  cases node with
  | program value => cases h
  | statement value => cases h
  | subKeyword value => cases h
  | prose value => exact isCode_of_mem_ofParts hchild
  | entry value =>
    cases value
    simp only [children, mem_cons, not_mem_nil, or_false] at hchild
    rcases hchild with rfl | rfl <;> rfl
  | expr value =>
    cases value with
    | interpolated span parts => exact isCode_of_mem_ofParts hchild
    | call span callee arguments =>
      rcases mem_cons.mp hchild with rfl | hchild
      · rfl
      · obtain ⟨value, -, rfl⟩ := mem_map.mp hchild
        rfl
    | array span elements | object span entries =>
      obtain ⟨value, -, rfl⟩ := mem_map.mp hchild
      rfl
    | identifier name | literal span value raw => exact absurd hchild not_mem_nil
    | unary span op argument =>
      rw [mem_singleton.mp hchild]
      rfl
    | _ =>
      simp only [children, mem_cons, not_mem_nil, or_false] at hchild
      rcases hchild with rfl | rfl <;> rfl

theorem isWithinLine_of_mem_walk {root : Node} (h : root.isWithinLine = true) :
    ∀ node ∈ root.walk, node.isWithinLine = true :=
  forall_mem_walk_of_children
    (fun hnode hchild => isWithinLine_of_isCode (isCode_children hnode hchild)) h

end

/-! ## Nesting -/

/-- Nodes inside nodes, each in its place: the positions of every node satisfy `P`, and the nodes
directly inside it stand in a row within its span. -/
inductive Nested (P : Position → Prop) : Node → Prop where
  | mk {node : Node} (start : P node.span.start) (stop : P node.span.stop)
      (chained : Chained node.span.start.offset node.span.stop.offset (node.children.map span))
      (below : ∀ child ∈ node.children, Nested P child) : Nested P node

/-- Nodes in a row between two offsets, each nested well. -/
structure Strung (P : Position → Prop) (lo hi : Int) (nodes : List Node) : Prop where
  chained : Chained lo hi (nodes.map span)
  nested : ∀ node ∈ nodes, node.Nested P

namespace Strung

variable {P : Position → Prop} {lo mid hi : Int} {nodes others : List Node}

theorem nil (h : lo ≤ hi) : Strung P lo hi [] :=
  ⟨.nil h, by simp⟩

theorem widen {first last : Int} (h : Strung P lo hi nodes) (hfirst : first ≤ lo)
    (hlast : hi ≤ last) : Strung P first last nodes :=
  ⟨h.chained.widen hfirst hlast, h.nested⟩

theorem append (h : Strung P lo mid nodes) (hothers : Strung P mid hi others) :
    Strung P lo hi (nodes ++ others) := by
  refine ⟨?_, forall_mem_append.mpr ⟨h.nested, hothers.nested⟩⟩
  rw [map_append]
  exact h.chained.append hothers.chained

theorem wrap {start stop : Position} (hspan : node.span = ⟨start, stop⟩)
    (h : Strung P start.offset stop.offset node.children) (hstart : P start) (hstop : P stop)
    (hfilled : start.offset < stop.offset) (hlo : lo ≤ start.offset) (hhi : stop.offset ≤ hi) :
    Strung P lo hi [node] := by
  refine ⟨Chained.singleton_iff.mpr (by rw [hspan]; exact ⟨hlo, hfilled, hhi⟩), ?_⟩
  intro other hother
  obtain rfl := mem_singleton.mp hother
  refine .mk ?_ ?_ ?_ h.nested <;> rw [hspan]
  · exact hstart
  · exact hstop
  · exact h.chained

theorem single (h : Strung P lo hi [node]) :
    node.Nested P ∧ lo ≤ node.span.start.offset ∧
      node.span.start.offset < node.span.stop.offset ∧ node.span.stop.offset ≤ hi :=
  ⟨h.nested node mem_cons_self, Chained.singleton_iff.mp h.chained⟩

theorem tight (h : Strung P lo hi [node]) :
    Strung P node.span.start.offset node.span.stop.offset [node] :=
  ⟨Chained.singleton_iff.mpr ⟨Int.le_refl _, h.single.2.2.1, Int.le_refl _⟩, h.nested⟩

end Strung

theorem Nested.start (h : node.Nested P) : P node.span.start := by
  cases h
  assumption

theorem Nested.stop {P : Position → Prop} {node : Node} (h : node.Nested P) : P node.span.stop := by
  cases h
  assumption

theorem Nested.strung (h : node.Nested P) :
    Strung P node.span.start.offset node.span.stop.offset node.children := by
  cases h with
  | mk start stop chained below => exact ⟨chained, below⟩

/-- Whatever is nested well is made of nodes that are nested well. -/
theorem Nested.of_mem_walk (h : root.Nested P) (hnode : node ∈ root.walk) : node.Nested P := by
  induction h with
  | @mk root start stop chained below ih =>
    rw [walk_eq] at hnode
    rcases mem_cons.mp hnode with rfl | hnode
    · exact .mk start stop chained below
    · obtain ⟨child, hchild, hnode⟩ := mem_flatMap.mp hnode
      exact ih child hchild hnode

theorem Nested.bounds_of_mem_walk (h : root.Nested P) (hnode : node ∈ root.walk) :
    root.span.start.offset ≤ node.span.start.offset ∧
      node.span.start.offset ≤ root.span.stop.offset := by
  induction h with
  | @mk root start stop chained below ih =>
    have hle := chained.le
    rw [walk_eq] at hnode
    rcases mem_cons.mp hnode with rfl | hnode
    · exact ⟨Int.le_refl _, hle⟩
    · obtain ⟨child, hchild, hnode⟩ := mem_flatMap.mp hnode
      have hbounds := chained.bounds (mem_map_of_mem hchild)
      have hinside := ih child hchild hnode
      omega

theorem Nested.pairwise_walk (h : root.Nested P) :
    root.walk.Pairwise fun a b => a.span.start.offset ≤ b.span.start.offset := by
  induction h with
  | @mk root start stop chained below ih =>
    rw [walk_eq]
    refine .cons (fun node hnode => ?_) (pairwise_flatMap.mpr ⟨ih, ?_⟩)
    · have hroot : root.Nested P := .mk start stop chained below
      refine (hroot.bounds_of_mem_walk ?_).1
      rw [walk_eq]
      exact mem_cons_of_mem root hnode
    · refine (pairwise_map.mp chained.pairwise).imp_of_mem ?_
      intro left right hleft hright hle a ha b hb
      have hbefore := (below left hleft).bounds_of_mem_walk ha
      have hafter := (below right hright).bounds_of_mem_walk hb
      omega

/-! ## Sorted siblings -/

theorem startsBefore_trans (a b c : Node) (hab : a.startsBefore b = true)
    (hbc : b.startsBefore c = true) : a.startsBefore c = true := by
  simp only [startsBefore, decide_eq_true_eq] at *
  omega

theorem startsBefore_total (a b : Node) : (a.startsBefore b || b.startsBefore a) = true := by
  simp only [startsBefore, Bool.or_eq_true, decide_eq_true_eq]
  omega

theorem mergeSort_eq_of_chained {lo hi : Int} {nodes others : List Node} (hperm : others.Perm nodes)
    (h : Chained lo hi (nodes.map span)) : others.mergeSort startsBefore = nodes := by
  have hordered := pairwise_map.mp h.pairwise
  have hfilled : ∀ node ∈ nodes, node.span.start.offset < node.span.stop.offset :=
    fun node hnode => (h.bounds (mem_map_of_mem hnode)).2.1
  have hstarts : nodes.Pairwise fun a b => a.span.start.offset < b.span.start.offset :=
    hordered.imp_of_mem fun ha _ hle => Int.lt_of_lt_of_le (hfilled _ ha) hle
  have hsorted : nodes.Pairwise fun a b => a.startsBefore b = true :=
    hstarts.imp fun hlt => by simpa [startsBefore] using Int.le_of_lt hlt
  refine Perm.eq_of_pairwise ?_
    (pairwise_mergeSort startsBefore_trans startsBefore_total others) hsorted
    ((mergeSort_perm others startsBefore).trans hperm)
  intro a b ha hb hab hba
  -- two nodes of the row that start at one place are the same node
  have ha : a ∈ nodes := hperm.mem_iff.mp (mem_mergeSort.mp ha)
  simp only [startsBefore, decide_eq_true_eq] at hab hba
  have : Std.Symm fun a b : Node => a.span.start.offset ≠ b.span.start.offset :=
    ⟨fun _ _ => Ne.symm⟩
  have hapart := (hstarts.imp fun hlt => Int.ne_of_lt hlt).forall ha hb
  exact of_not_not fun hne => hapart hne (Int.le_antisymm hab hba)

end Node
end GuidedTrack
