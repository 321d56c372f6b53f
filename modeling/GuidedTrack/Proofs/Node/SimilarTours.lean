import GuidedTrack.Lint
import GuidedTrack.Proofs.Expr.SimilarTrees
import GuidedTrack.Proofs.Node.SpanNesting
import Mathlib.Data.List.Forall2

/-! # Tours of the same steps

The tours of a document and of the same document elsewhere take the same steps: every node is met in
the same place, below the same nodes. What the rules ask of a node is the same too.
-/

namespace GuidedTrack

open List Node Rule

/-! ## Nodes -/

inductive Part.LikeProse (π : Position → Position → Prop) : List Part → List Part → Prop where
  | nil : LikeProse π [] []
  | last {core g g' : List Char} (filled : core ≠ []) (gaps : Text.Gaps g)
      (gaps' : Text.Gaps g') :
      LikeProse π [.text (String.ofList (core ++ g))] [.text (String.ofList (core ++ g'))]
  | text {value : String} {parts others : List Part} (rest : LikeProse π parts others) :
      LikeProse π (.text value :: parts) (.text value :: others)
  | expr {value other : Expr} {parts others : List Part} (first : value.Like π other)
      (rest : LikeProse π parts others) :
      LikeProse π (.expr value :: parts) (.expr other :: others)

/-- An argument, if there is one, and the same argument elsewhere: names by `π`, prose by `Q`. -/
inductive Argument.Like (π Q : Position → Position → Prop) :
    Option Argument → Option Argument → Prop where
  | none : Like π Q none none
  | expr {value other : Expr} (like : value.Like π other) :
      Like π Q (some (.expr value)) (some (.expr other))
  | prose {text other : Prose} (place : Q text.span.start other.span.start)
      (like : Part.LikeProse π text.parts other.parts) :
      Like π Q (some (.prose text)) (some (.prose other))

/-- A node and the same node elsewhere, as far as the rules look at it alone. `N` says of two
offsets that the loops whose lines start there bind alike. -/
inductive Node.Alike (π Q : Position → Position → Prop) (N : Int → Int → Prop) :
    Node → Node → Prop where
  | program {value other : Program} : Alike π Q N (.program value) (.program other)
  | keyword {span span' : Span} {name : String} {argument argument' : Option Argument}
      {subKeywords subKeywords' : List SubKeyword} {body body' : List Statement}
      (place : π span.start span'.start) (like : Argument.Like π Q argument argument')
      (names : subKeywords'.map subName = subKeywords.map subName)
      (loop : name = "for" → N span.start.offset span'.start.offset) :
      Alike π Q N (.statement (.keyword span name argument subKeywords body))
        (.statement (.keyword span' name argument' subKeywords' body'))
  | answer {span span' : Span} {text text' : Prose} {body body' : List Statement} :
      Alike π Q N (.statement (.answer span text body)) (.statement (.answer span' text' body'))
  | text {text text' : Prose} :
      Alike π Q N (.statement (.prose text)) (.statement (.prose text'))
  | expression {span span' : Span} {value value' : Expr} (like : value.Like π value') :
      Alike π Q N (.statement (.expression span value)) (.statement (.expression span' value'))
  | comment {span span' : Span} {text text' : String} :
      Alike π Q N (.statement (.comment span text)) (.statement (.comment span' text'))
  | subKeyword {span span' : Span} {name : String} {argument argument' : Option Argument}
      {body body' : List Statement} (place : π span.start span'.start)
      (like : Argument.Like π Q argument argument') :
      Alike π Q N (.subKeyword (.mk span name argument body))
        (.subKeyword (.mk span' name argument' body'))
  | prose {text text' : Prose} : Alike π Q N (.prose text) (.prose text')
  | expr {value value' : Expr} (like : value.Like π value') :
      Alike π Q N (.expr value) (.expr value')
  | entry {value value' : Entry} : Alike π Q N (.entry value) (.entry value')

namespace Rule

def keyword? : Node → Option String
  | .statement (.keyword _ name _ _ _) => some name
  | _ => none

variable {π Q : Position → Position → Prop} {N : Int → Int → Prop} {a b : Node}

theorem keyword?_alike (h : a.Alike π Q N b) : keyword? b = keyword? a := by
  cases h <;> rfl

theorem isExempt_alike (h : a.Alike π Q N b) (place : Nat) :
    isExempt (some b) place = isExempt (some a) place := by
  cases h with
  | expr like => cases like <;> rfl
  | _ => rfl

end Rule

/-- A step of a tour and the same step elsewhere, below nodes of the same keywords. -/
inductive Visit.Twin (π Q : Position → Position → Prop) (N : Int → Int → Prop) :
    Visit → Visit → Prop where
  | mk {phase : Phase} {node node' : Node} {ancestors ancestors' : List Node} {place place' : Nat}
      (same : node.Alike π Q N node')
      (keywords : ancestors'.map keyword? = ancestors.map keyword?)
      (exempt : isExempt ancestors'.head? place' = isExempt ancestors.head? place) :
      Visit.Twin π Q N ⟨phase, node, ancestors, place⟩ ⟨phase, node', ancestors', place'⟩

namespace Node

/-- Wherever both nodes stand below the same keywords, their tours take the same steps. -/
def Tours (π Q : Position → Position → Prop) (N : Int → Int → Prop) (a b : Node) : Prop :=
  ∀ ⦃ancestors ancestors' : List Node⦄ ⦃place place' : Nat⦄,
    ancestors'.map keyword? = ancestors.map keyword? →
    isExempt ancestors'.head? place' = isExempt ancestors.head? place →
    Forall₂ (Visit.Twin π Q N) (a.tour ancestors place) (b.tour ancestors' place')

variable {π Q : Position → Position → Prop} {N : Int → Int → Prop}

theorem forall₂_flatMap_zipIdx {α β : Type} {R : α → α → Prop} {V : β → β → Prop}
    {f g : α × Nat → List β} {items others : List α} (h : Forall₂ R items others) (k : Nat)
    (hfg : ∀ a b i, R a b → Forall₂ V (f (a, i)) (g (b, i + k))) (n : Nat) :
    Forall₂ V ((items.zipIdx n).flatMap f) ((others.zipIdx (n + k)).flatMap g) := by
  induction h generalizing n with
  | nil => exact .nil
  | cons first rest ih =>
    rw [zipIdx_cons, zipIdx_cons, flatMap_cons, flatMap_cons, Nat.add_right_comm]
    exact rel_append (hfg _ _ n first) (ih (n + 1))

/-- The step lemma: tours of the children make the tour of a node. -/
theorem tours_of_children {a b : Node} (h : a.Alike π Q N b)
    (hchildren : Forall₂ (Tours π Q N) a.children b.children) : Tours π Q N a b := by
  intro ancestors ancestors' place place' hkeywords hexempt
  rw [tour_eq, tour_eq]
  refine .cons ⟨h, hkeywords, hexempt⟩
    (rel_append (forall₂_flatMap_zipIdx hchildren 0 ?_ 0) (.cons ⟨h, hkeywords, hexempt⟩ .nil))
  intro child other i hchild
  refine hchild ?_ (isExempt_alike h i)
  rw [map_cons, map_cons, hkeywords, keyword?_alike h]

end Node

def Program.KeepsOrder (π : Position → Position → Prop) : Prop :=
  ∀ ⦃p q p' q'⦄, π p p' → π q q' → (p.offset ≤ q.offset ↔ p'.offset ≤ q'.offset)

end GuidedTrack
