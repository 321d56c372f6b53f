import GuidedTrack.Proofs.Node.SpanNesting
import Mathlib.Data.List.Forall2

/-! # Visits with callbacks

A traversal keeps one stack of the nodes around it and calls what a table lists for the kind of each
node, on entering and on leaving it. It calls in the order of the tour and hands back the stack that
it was given. The steps of a tour are told apart by the path from its root, and their order is that
of the paths.
-/

namespace GuidedTrack

open List

/-- What is made of a state when a node below `ancestors`, innermost first, is visited. -/
abbrev Callback (σ : Type) := (ancestors : List Node) → Node → σ → σ

/-- Callbacks by the kind of a node, marked where they wait until it is left. -/
abbrev Table (σ : Type) := List (String × List (Callback σ))

/-- A traversal under way: the nodes around it, innermost first, and what the callbacks have made.
-/
structure Walker (σ : Type) where
  ancestors : List Node
  state : σ

variable {σ : Type}

namespace Table

def callbacks (table : Table σ) (phase : Phase) (node : Node) : List (Callback σ) :=
  match phase with
  | .enter => (table.lookup node.kindName).getD []
  | .leave => (table.lookup (node.kindName ++ ":exit")).getD []

def answer (table : Table σ) (state : σ) (visit : Visit) : σ :=
  (table.callbacks visit.phase visit.node).foldl
    (fun state callback => callback visit.ancestors visit.node state) state

def call (table : Table σ) (phase : Phase) (node : Node) (walker : Walker σ) : Walker σ :=
  (table.callbacks phase node).foldl
    (fun walker callback =>
      { walker with state := callback walker.ancestors node walker.state }) walker

theorem call_eq (table : Table σ) (phase : Phase) (node : Node) (ancestors : List Node)
    (place : Nat) (state : σ) :
    table.call phase node ⟨ancestors, state⟩ =
      ⟨ancestors, table.answer state ⟨phase, node, ancestors, place⟩⟩ := by
  rw [call, answer]
  generalize table.callbacks phase node = callbacks
  induction callbacks generalizing state with
  | nil => rfl
  | cons callback callbacks ih => exact ih (callback ancestors node state)

end Table

namespace Node

/-- Visits a node and all nodes inside it. The node is on the stack while its children are
visited. -/
def traverse (table : Table σ) (walker : Walker σ) (node : Node) : Walker σ :=
  let entered := table.call .enter node walker
  let inside := node.children.attach.foldl (fun walker child => traverse table walker child.1)
    { entered with ancestors := node :: entered.ancestors }
  table.call .leave node { inside with ancestors := inside.ancestors.tail }
  termination_by sizeOf node
  decreasing_by exact sizeOf_lt_of_mem_children child.2

theorem traverse_eq (table : Table σ) (node : Node) (walker : Walker σ) :
    node.traverse table walker =
      let entered := table.call .enter node walker
      let inside := node.children.foldl (traverse table)
        { entered with ancestors := node :: entered.ancestors }
      table.call .leave node { inside with ancestors := inside.ancestors.tail } := by
  rw [traverse, foldl_attach]

theorem traverse_eq_tour (table : Table σ) (node : Node) (ancestors : List Node) (place : Nat)
    (state : σ) :
    node.traverse table ⟨ancestors, state⟩ =
      ⟨ancestors, (node.tour ancestors place).foldl table.answer state⟩ := by
  induction node using inductionOnChildren generalizing ancestors place state with
  | step node ih =>
    have hinside (children : List Node) (hchildren : ∀ child ∈ children, child ∈ node.children)
        (i : Nat) (state : σ) :
        children.foldl (traverse table)
            ⟨node :: ancestors, state⟩ =
          ⟨node :: ancestors, ((children.zipIdx i).flatMap fun child =>
            child.1.tour (node :: ancestors) child.2).foldl table.answer state⟩ := by
      induction children generalizing i state with
      | nil => rfl
      | cons child children ihChildren =>
        obtain ⟨hchild, hrest⟩ := forall_mem_cons.mp hchildren
        rw [foldl_cons, ih _ hchild _ i state,
          ihChildren hrest (i + 1), zipIdx_cons, flatMap_cons, foldl_append]
    rw [traverse_eq, Table.call_eq table .enter node ancestors place state]
    dsimp only
    rw [hinside node.children (fun _ => id) 0, tail_cons, Table.call_eq _ _ _ _ place, tour_eq,
      foldl_append]
    rfl

/-! ## Paths -/

/-- `line` leads along `path` from a node to the one below it: it holds the first of the two and
whatever stands between them. -/
inductive Descends : Node → (path : List Nat) → (line : List Node) → Node → Prop where
  | here : Descends node [] [] node
  | down (hchild : node.children[place]? = some child) (hbelow : Descends child path line below) :
      Descends node (place :: path) (node :: line) below

def Reaches (node : Node) (ancestors : List Node) (step : Phase × List Nat)
    (visit : Visit) : Prop :=
  visit.phase = step.1 ∧
    ∃ line, node.Descends step.2 line visit.node ∧ visit.ancestors = line.reverse ++ ancestors

/-- A node is entered before and left after whatever stands below it, and children are visited in
their order. -/
inductive Precedes : Phase × List Nat → Phase × List Nat → Prop where
  | enter (path : List Nat) (h : (phase, below) ≠ (.enter, [])) :
      Precedes (.enter, path) (phase, path ++ below)
  | leave (path : List Nat) (h : (phase, below) ≠ (.leave, [])) :
      Precedes (phase, path ++ below) (.leave, path)
  | across (path : List Nat) (h : i < j) :
      Precedes (phase, path ++ i :: below) (phase', path ++ j :: below')

namespace Precedes

variable {step other : Phase × List Nat}

theorem down (h : Precedes step other) (place : Nat) :
    Precedes (step.1, place :: step.2) (other.1, place :: other.2) := by
  cases h with
  | enter path h => exact enter (place :: path) h
  | leave path h => exact leave (place :: path) h
  | across path h => exact across (place :: path) h

theorem ne (h : Precedes step other) : step ≠ other := by
  cases h with
  | enter path h =>
    intro heq
    obtain ⟨hphase, hpath⟩ := Prod.mk.inj heq
    rw [self_eq_append_right] at hpath
    exact h (Prod.ext hphase.symm hpath)
  | leave path h =>
    intro heq
    obtain ⟨hphase, hpath⟩ := Prod.mk.inj heq
    rw [append_right_eq_self] at hpath
    exact h (Prod.ext hphase hpath)
  | across path h =>
    intro heq
    have hplaces := (cons.inj (append_cancel_left (Prod.mk.inj heq).2)).1
    omega

end Precedes

def itinerary (node : Node) : List (Phase × List Nat) :=
  (.enter, []) :: (node.children.attach.zipIdx.flatMap fun child =>
    (itinerary child.1.1).map fun step => (step.1, child.2 :: step.2)) ++ [(.leave, [])]
  termination_by sizeOf node
  decreasing_by exact sizeOf_lt_of_mem_children child.1.2

theorem itinerary_eq (node : Node) :
    node.itinerary = (.enter, []) :: (node.children.zipIdx.flatMap fun child =>
      child.1.itinerary.map fun step => (step.1, child.2 :: step.2)) ++ [(.leave, [])] := by
  rw [itinerary]
  conv => rhs; rw [← attach_map_subtype_val node.children, zipIdx_map, flatMap_map]
  rfl

theorem mem_itinerary_iff {node : Node} {phase : Phase} {path : List Nat} :
    (phase, path) ∈ node.itinerary ↔ ∃ line below, node.Descends path line below := by
  induction path generalizing node with
  | nil =>
    have hself : ∃ line below, node.Descends [] line below := ⟨[], node, .here⟩
    rw [itinerary_eq]
    cases phase <;> simp [hself]
  | cons place path ih =>
    have hchild : (phase, place :: path) ∈ node.itinerary ↔
        ∃ child, node.children[place]? = some child ∧ (phase, path) ∈ child.itinerary := by
      rw [itinerary_eq]
      simp [mem_zipIdx_iff_getElem?]
    rw [hchild]
    constructor
    · rintro ⟨child, hplace, hmem⟩
      obtain ⟨line, below, hbelow⟩ := ih.mp hmem
      exact ⟨node :: line, below, .down hplace hbelow⟩
    · rintro ⟨line, below, hdescends⟩
      cases hdescends with
      | down hplace hbelow => exact ⟨_, hplace, ih.mpr ⟨_, _, hbelow⟩⟩

theorem pairwise_itinerary (node : Node) : node.itinerary.Pairwise Precedes := by
  induction node using inductionOnChildren with
  | step node ih =>
    have hplaces : node.children.zipIdx.Pairwise fun child other => child.2 < other.2 := by
      rw [pairwise_iff_getElem]
      intro i j hi hj hij
      simpa using hij
    rw [itinerary_eq, cons_append, pairwise_cons, pairwise_append, pairwise_flatMap]
    refine ⟨?_, ⟨?_, ?_⟩, pairwise_singleton _ _, ?_⟩
    · rintro ⟨phase, path⟩ hstep
      apply Precedes.enter []
      rintro ⟨rfl, rfl⟩
      simp at hstep
    · intro child hchild
      rw [pairwise_map]
      exact (ih _ (fst_mem_of_mem_zipIdx hchild)).imp fun h => h.down child.2
    · apply hplaces.imp
      intro child other hlt step hstep step' hstep'
      obtain ⟨below, -, rfl⟩ := mem_map.mp hstep
      obtain ⟨below', -, rfl⟩ := mem_map.mp hstep'
      exact Precedes.across [] hlt
    · rintro ⟨phase, path⟩ hstep last hlast
      rw [mem_singleton.mp hlast]
      apply Precedes.leave []
      rintro ⟨rfl, rfl⟩
      simp at hstep

/-- The tour of a node below `ancestors` takes the steps of its itinerary. -/
theorem forall₂_itinerary (node : Node) (ancestors : List Node) (place : Nat) :
    Forall₂ (node.Reaches ancestors) node.itinerary (node.tour ancestors place) := by
  induction node using inductionOnChildren generalizing ancestors place with
  | step node ih =>
    have hinside : ∀ children ⊆ node.children.zipIdx,
        Forall₂ (node.Reaches ancestors)
          (children.flatMap fun child =>
            child.1.itinerary.map fun step => (step.1, child.2 :: step.2))
          (children.flatMap fun child => child.1.tour (node :: ancestors) child.2) := by
      intro children hchildren
      induction children with
      | nil => exact .nil
      | cons child children ihChildren =>
        obtain ⟨hchild, hrest⟩ := cons_subset.mp hchildren
        rw [flatMap_cons, flatMap_cons]
        apply rel_append _ (ihChildren hrest)
        rw [forall₂_map_left_iff]
        apply (ih _ (fst_mem_of_mem_zipIdx hchild) (node :: ancestors) child.2).imp
        rintro step visit ⟨hphase, line, hbelow, hancestors⟩
        refine ⟨hphase, node :: line, .down ?_ hbelow, ?_⟩
        · exact (mem_zipIdx_iff_getElem?).mp hchild
        · simp [hancestors]
    rw [itinerary_eq, tour_eq]
    have hhere (phase : Phase) :
        node.Reaches ancestors (phase, []) ⟨phase, node, ancestors, place⟩ :=
      ⟨rfl, [], .here, rfl⟩
    exact .cons (hhere .enter)
      (rel_append (hinside _ (Subset.refl _)) (.cons (hhere .leave) .nil))

/-- A traversal is a tour: it makes each step to a node below its root exactly once, in the order of
the paths, and each with the nodes that stand around it. Every step calls what the table lists, in
that order, and in the end the stack is what it was. -/
theorem traverse_tours (node : Node) (ancestors : List Node) :
    ∃ steps : List (Phase × List Nat), steps.Pairwise Precedes ∧ steps.Nodup ∧
      (∀ phase path, (phase, path) ∈ steps ↔ ∃ line below, node.Descends path line below) ∧
      ∀ place,
        Forall₂ (node.Reaches ancestors) steps (node.tour ancestors place) ∧
        ∀ (σ : Type) (table : Table σ) (state : σ),
          node.traverse table ⟨ancestors, state⟩ =
            ⟨ancestors, (node.tour ancestors place).foldl table.answer state⟩ := by
  have hpairwise := pairwise_itinerary node
  refine ⟨node.itinerary, hpairwise, hpairwise.imp Precedes.ne, ?_, ?_⟩
  · intro phase path
    exact mem_itinerary_iff
  · intro place
    refine ⟨forall₂_itinerary node ancestors place, ?_⟩
    intro σ table state
    exact traverse_eq_tour table node ancestors place state

end Node
end GuidedTrack
