import GuidedTrack.Fault
import GuidedTrack.Node
import GuidedTrack.Proofs.Expr.SimilarTrees

/-! # Trees at other places

Relocating a tree puts every place in it through a map and leaves all else as it is. Once places are
erased, nothing of it can be seen.
-/

namespace GuidedTrack

open List

section

variable (m : Position → Position)

def Span.relocate (span : Span) : Span :=
  ⟨m span.start, m span.stop⟩

def Token.relocate (token : Token) : Token :=
  { token with span := token.span.relocate m }

def Fault.relocate (fault : Fault) : Fault :=
  { fault with position := m fault.position }

def Name.relocate (name : Name) : Name :=
  { name with span := name.span.relocate m }

mutual

def Expr.relocate : Expr → Expr
  | .identifier name => .identifier (name.relocate m)
  | .literal span value raw => .literal (span.relocate m) value raw
  | .binary span op left right => .binary (span.relocate m) op left.relocate right.relocate
  | .unary span op argument => .unary (span.relocate m) op argument.relocate
  | .member span object property =>
    .member (span.relocate m) object.relocate (property.relocate m)
  | .call span callee arguments =>
    .call (span.relocate m) callee.relocate (Expr.relocateList arguments)
  | .index span object index => .index (span.relocate m) object.relocate index.relocate
  | .array span elements => .array (span.relocate m) (Expr.relocateList elements)
  | .object span entries => .object (span.relocate m) (Entry.relocateList entries)
  | .interpolated span parts => .interpolated (span.relocate m) (Part.relocateList parts)

def Entry.relocate : Entry → Entry
  | .mk span key value => .mk (span.relocate m) key.relocate value.relocate

def Part.relocate : Part → Part
  | .text value => .text value
  | .expr value => .expr value.relocate

def Expr.relocateList : List Expr → List Expr
  | [] => []
  | value :: rest => value.relocate :: Expr.relocateList rest

def Entry.relocateList : List Entry → List Entry
  | [] => []
  | entry :: rest => entry.relocate :: Entry.relocateList rest

def Part.relocateList : List Part → List Part
  | [] => []
  | part :: rest => part.relocate :: Part.relocateList rest

end

def Prose.relocate (prose : Prose) : Prose :=
  ⟨prose.span.relocate m, prose.parts.map (Part.relocate m)⟩

def Argument.relocate : Argument → Argument
  | .expr value => .expr (value.relocate m)
  | .prose value => .prose (value.relocate m)

mutual

def Statement.relocate : Statement → Statement
  | .keyword span name argument subKeywords body =>
    .keyword (span.relocate m) name (argument.map (Argument.relocate m))
      (SubKeyword.relocateList subKeywords) (Statement.relocateList body)
  | .answer span text body =>
    .answer (span.relocate m) (text.relocate m) (Statement.relocateList body)
  | .prose text => .prose (text.relocate m)
  | .expression span value => .expression (span.relocate m) (value.relocate m)
  | .comment span text => .comment (span.relocate m) text

def SubKeyword.relocate : SubKeyword → SubKeyword
  | .mk span name argument body =>
    .mk (span.relocate m) name (argument.map (Argument.relocate m)) (Statement.relocateList body)

def Statement.relocateList : List Statement → List Statement
  | [] => []
  | statement :: rest => statement.relocate :: Statement.relocateList rest

def SubKeyword.relocateList : List SubKeyword → List SubKeyword
  | [] => []
  | sub :: rest => sub.relocate :: SubKeyword.relocateList rest

end

def Program.relocate (program : Program) : Program :=
  ⟨program.span.relocate m, program.body.map (Statement.relocate m)⟩

end

section

variable {m : Position → Position}

/-! ## Lists -/

@[simp] theorem Expr.relocateList_eq (values : List Expr) :
    Expr.relocateList m values = values.map (Expr.relocate m) := by
  induction values with
  | nil => rfl
  | cons value values ih => rw [Expr.relocateList, ih, map_cons]

@[simp] theorem Entry.relocateList_eq (entries : List Entry) :
    Entry.relocateList m entries = entries.map (Entry.relocate m) := by
  induction entries with
  | nil => rfl
  | cons entry entries ih => rw [Entry.relocateList, ih, map_cons]

@[simp] theorem Part.relocateList_eq (parts : List Part) :
    Part.relocateList m parts = parts.map (Part.relocate m) := by
  induction parts with
  | nil => rfl
  | cons part parts ih => rw [Part.relocateList, ih, map_cons]

@[simp] theorem Statement.relocateList_eq (body : List Statement) :
    Statement.relocateList m body = body.map (Statement.relocate m) := by
  induction body with
  | nil => rfl
  | cons statement body ih => rw [Statement.relocateList, ih, map_cons]

@[simp] theorem SubKeyword.relocateList_eq (subKeywords : List SubKeyword) :
    SubKeyword.relocateList m subKeywords = subKeywords.map (SubKeyword.relocate m) := by
  induction subKeywords with
  | nil => rfl
  | cons sub subKeywords ih => rw [SubKeyword.relocateList, ih, map_cons]

/-! ## Spans -/

@[simp] theorem Expr.span_relocate (value : Expr) :
    (value.relocate m).span = value.span.relocate m := by
  cases value <;> rfl

@[simp] theorem Entry.span_relocate (entry : Entry) :
    (entry.relocate m).span = entry.span.relocate m := by
  cases entry
  rfl

@[simp] theorem Statement.span_relocate (statement : Statement) :
    (statement.relocate m).span = statement.span.relocate m := by
  cases statement <;> rfl

@[simp] theorem SubKeyword.span_relocate (sub : SubKeyword) :
    (sub.relocate m).span = sub.span.relocate m := by
  cases sub
  rfl

theorem Expr.join_relocate (op : BinaryOp) (left right : Expr) :
    join op (left.relocate m) (right.relocate m) = (join op left right).relocate m := by
  simp only [join, relocate, span_relocate, Span.relocate]

/-! ## The same trees -/

abbrev Moves (m : Position → Position) (p q : Position) : Prop :=
  q = m p

mutual

theorem Expr.like_relocate (value : Expr) : value.Like (Moves m) (value.relocate m) := by
  cases value with
  | identifier name => exact .identifier ⟨rfl, rfl⟩
  | literal span value raw => exact .literal
  | binary span op left right => exact .binary left.like_relocate right.like_relocate
  | unary span op argument => exact .unary argument.like_relocate
  | member span object property => exact .member object.like_relocate ⟨rfl, rfl⟩
  | call span callee arguments =>
    exact .call callee.like_relocate (Expr.likeList_relocate arguments)
  | index span object index => exact .index object.like_relocate index.like_relocate
  | array span elements => exact .array (Expr.likeList_relocate elements)
  | object span entries => exact .object (Entry.likeList_relocate entries)
  | interpolated span parts => exact .interpolated (Part.likeList_relocate parts)

theorem Expr.likeList_relocate (values : List Expr) :
    Expr.LikeList (Moves m) values (Expr.relocateList m values) := by
  cases values with
  | nil => exact .nil
  | cons value values => exact .cons value.like_relocate (Expr.likeList_relocate values)

theorem Entry.likeList_relocate (entries : List Entry) :
    Entry.LikeList (Moves m) entries (Entry.relocateList m entries) := by
  cases entries with
  | nil => exact .nil
  | cons entry entries =>
    obtain ⟨span, key, value⟩ := entry
    exact .cons key.like_relocate value.like_relocate (Entry.likeList_relocate entries)

theorem Part.likeList_relocate (parts : List Part) :
    Part.LikeList (Moves m) parts (Part.relocateList m parts) := by
  cases parts with
  | nil => exact .nil
  | cons part parts =>
    cases part with
    | text value => exact .text (Part.likeList_relocate parts)
    | expr value => exact .expr value.like_relocate (Part.likeList_relocate parts)

end

@[simp] theorem Expr.erase_relocate (value : Expr) : (value.relocate m).erase = value.erase :=
  value.like_relocate.erase_eq

@[simp] theorem Prose.erase_relocate (prose : Prose) : (prose.relocate m).erase = prose.erase := by
  rw [relocate, erase, ← Part.relocateList_eq, (Part.likeList_relocate _).erase_eq, erase]

@[simp] theorem Argument.erase_relocate (argument : Argument) :
    (argument.relocate m).erase = argument.erase := by
  cases argument <;> simp [relocate, erase]

end
end GuidedTrack
