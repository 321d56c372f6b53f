import GuidedTrack.Fault
import GuidedTrack.Node
import GuidedTrack.Proofs.PlaceErasure

/-! # Programs without the expressions of one line

What a document says elsewhere: its tree without the expression statements that start on one line,
wherever they stand in it, and the messages of its faults on all other lines.
-/

namespace GuidedTrack

open List

def Statement.isExpressionOn (line : Int) : Statement → Bool
  | .expression span _ => span.start.line = line
  | _ => false

def Node.isExpressionOn (line : Int) : Node → Bool
  | .statement value => value.isExpressionOn line
  | _ => false

section

variable (line : Int)

mutual

def Statement.without : Statement → Statement
  | .keyword span name argument subKeywords body =>
    .keyword span name argument (SubKeyword.withoutList subKeywords) (Statement.withoutList body)
  | .answer span text body => .answer span text (Statement.withoutList body)
  | .prose text => .prose text
  | .expression span value => .expression span value
  | .comment span text => .comment span text

def SubKeyword.without : SubKeyword → SubKeyword
  | .mk span name argument body => .mk span name argument (Statement.withoutList body)

def Statement.withoutList : List Statement → List Statement
  | [] => []
  | statement :: rest =>
    if statement.isExpressionOn line then Statement.withoutList rest
    else statement.without :: Statement.withoutList rest

def SubKeyword.withoutList : List SubKeyword → List SubKeyword
  | [] => []
  | sub :: rest => sub.without :: SubKeyword.withoutList rest

end

def Program.without (program : Program) : Program :=
  ⟨program.span, Statement.withoutList line program.body⟩

def Fault.elsewhere (faults : List Fault) : List String :=
  (faults.filter fun fault => fault.position.line ≠ line).map Fault.message

end

/-! ## Lists -/

variable {line : Int}

theorem Statement.withoutList_append (body others : List Statement) :
    withoutList line (body ++ others) = withoutList line body ++ withoutList line others := by
  induction body with
  | nil => rfl
  | cons statement body ih =>
    rw [cons_append, withoutList, withoutList, ih]
    split <;> rfl

theorem SubKeyword.withoutList_append (subKeywords others : List SubKeyword) :
    withoutList line (subKeywords ++ others) =
      withoutList line subKeywords ++ withoutList line others := by
  induction subKeywords with
  | nil => rfl
  | cons sub subKeywords ih => rw [cons_append, withoutList, withoutList, ih, cons_append]

theorem Statement.eraseList_append (body others : List Statement) :
    eraseList (body ++ others) = eraseList body ++ eraseList others := by
  induction body with
  | nil => rfl
  | cons statement body ih => rw [cons_append, eraseList, eraseList, ih, cons_append]

theorem SubKeyword.eraseList_append (subKeywords others : List SubKeyword) :
    eraseList (subKeywords ++ others) = eraseList subKeywords ++ eraseList others := by
  induction subKeywords with
  | nil => rfl
  | cons sub subKeywords ih => rw [cons_append, eraseList, eraseList, ih, cons_append]

theorem Fault.elsewhere_append (faults others : List Fault) :
    elsewhere line (faults ++ others) = elsewhere line faults ++ elsewhere line others := by
  simp only [elsewhere, filter_append, map_append]

theorem Fault.elsewhere_eq_nil {faults : List Fault}
    (h : ∀ fault ∈ faults, fault.position.line = line) :
    elsewhere line faults = [] := by
  rw [elsewhere, filter_eq_nil_iff.mpr fun fault hfault => by simp [h fault hfault], map_nil]

end GuidedTrack
