import GuidedTrack.Statement

/-! # Nodes

One view of all the parts of a program that have a place in its tree, with the parts that stand
directly inside each. The tour of a node enters and leaves every node below it in the order of the
document.
-/

namespace GuidedTrack

inductive Node where
  | program (value : Program)
  | statement (value : Statement)
  | subKeyword (value : SubKeyword)
  | prose (value : Prose)
  | expr (value : Expr)
  | entry (value : Entry)

namespace Node

def span : Node → Span
  | program value => value.span
  | statement value => value.span
  | subKeyword value => value.span
  | prose value => value.span
  | expr value => value.span
  | entry value => value.span

def kindName : Node → String
  | program _ => "Program"
  | statement (.keyword ..) => "KeywordStatement"
  | statement (.answer ..) => "AnswerOption"
  | statement (.prose _) => "TextStatement"
  | statement (.expression ..) => "ExpressionStatement"
  | statement (.comment ..) => "CommentStatement"
  | subKeyword _ => "SubKeyword"
  | prose _ => "TextContent"
  | expr (.identifier _) => "Identifier"
  | expr (.literal ..) => "Literal"
  | expr (.binary ..) => "BinaryExpression"
  | expr (.unary ..) => "UnaryExpression"
  | expr (.member ..) => "MemberExpression"
  | expr (.call ..) => "CallExpression"
  | expr (.index ..) => "IndexExpression"
  | expr (.array ..) => "ArrayExpression"
  | expr (.object ..) => "ObjectExpression"
  | expr (.interpolated ..) => "InterpolatedString"
  | entry _ => "Property"

def ofArgument : Argument → Node
  | .expr value => expr value
  | .prose value => prose value

def ofParts (parts : List Part) : List Node :=
  parts.filterMap fun
    | .text _ => none
    | .expr value => some (expr value)

def startsBefore (a b : Node) : Bool :=
  a.span.start.offset ≤ b.span.start.offset

/-- The nodes directly inside a node, in the order of the document. The sub-keywords of a keyword
stand between the statements of its body. -/
def children : Node → List Node
  | program value => value.body.map statement
  | statement (.keyword _ _ argument subKeywords body) =>
    argument.toList.map ofArgument ++
      (subKeywords.map subKeyword ++ body.map statement).mergeSort startsBefore
  | statement (.answer _ text body) => prose text :: body.map statement
  | statement (.prose text) => ofParts text.parts
  | statement (.expression _ value) => [expr value]
  | statement (.comment ..) => []
  | subKeyword (.mk _ _ argument body) => argument.toList.map ofArgument ++ body.map statement
  | prose value => ofParts value.parts
  | expr (.identifier _) => []
  | expr (.literal ..) => []
  | expr (.binary _ _ left right) => [expr left, expr right]
  | expr (.unary _ _ argument) => [expr argument]
  | expr (.member _ object property) => [expr object, expr (.identifier property)]
  | expr (.call _ callee arguments) => expr callee :: arguments.map expr
  | expr (.index _ object index) => [expr object, expr index]
  | expr (.array _ elements) => elements.map expr
  | expr (.object _ entries) => entries.map entry
  | expr (.interpolated _ parts) => ofParts parts
  | entry (.mk _ key value) => [expr key, expr value]

/-! ## Sizes -/

theorem sizeOf_ofArgument_le (argument : Argument) :
    sizeOf (ofArgument argument) ≤ sizeOf argument := by
  cases argument <;> simp [ofArgument]

theorem sizeOf_le_of_mem_ofParts {child : Node} {parts : List Part}
    (h : child ∈ ofParts parts) : sizeOf child ≤ sizeOf parts := by
  obtain ⟨part, hpart, hchild⟩ := List.mem_filterMap.1 h
  have hsize := List.sizeOf_lt_of_mem hpart
  cases part with
  | text value => simp at hchild
  | expr value =>
    simp only [Option.some.injEq] at hchild
    subst hchild
    simp only [Node.expr.sizeOf_spec, Part.expr.sizeOf_spec] at *
    omega

theorem sizeOf_le_of_mem_statements {child : Node} {body : List Statement}
    (h : child ∈ body.map statement) : sizeOf child ≤ sizeOf body := by
  obtain ⟨value, hvalue, rfl⟩ := List.mem_map.1 h
  have hsize := List.sizeOf_lt_of_mem hvalue
  simp only [Node.statement.sizeOf_spec]
  omega

theorem sizeOf_lt_of_mem_argument {child : Node} {argument : Option Argument}
    (h : child ∈ argument.toList.map ofArgument) : sizeOf child < sizeOf argument := by
  cases argument with
  | none => simp at h
  | some value =>
    simp only [Option.toList_some, List.map_cons, List.map_nil, List.mem_singleton] at h
    subst h
    have := sizeOf_ofArgument_le value
    simp only [Option.some.sizeOf_spec]
    omega

theorem sizeOf_lt_of_mem_statement {value : Statement} {child : Node}
    (h : child ∈ (statement value).children) : sizeOf child < sizeOf (statement value) := by
  cases value with
  | keyword _ _ argument subKeywords body =>
    simp only [children, List.mem_append, List.mem_mergeSort] at h
    simp only [Node.statement.sizeOf_spec, Statement.keyword.sizeOf_spec]
    rcases h with h | h | h
    · have := sizeOf_lt_of_mem_argument h
      omega
    · obtain ⟨value, hvalue, rfl⟩ := List.mem_map.1 h
      have := List.sizeOf_lt_of_mem hvalue
      simp only [Node.subKeyword.sizeOf_spec]
      omega
    · have := sizeOf_le_of_mem_statements h
      omega
  | answer _ text body =>
    simp only [Node.statement.sizeOf_spec, Statement.answer.sizeOf_spec]
    rcases List.mem_cons.1 h with rfl | h
    · simp only [Node.prose.sizeOf_spec]
      omega
    · have := sizeOf_le_of_mem_statements h
      omega
  | prose text =>
    obtain ⟨_, parts⟩ := text
    have : sizeOf child ≤ sizeOf parts := sizeOf_le_of_mem_ofParts h
    simp only [Node.statement.sizeOf_spec, Statement.prose.sizeOf_spec, Prose.mk.sizeOf_spec]
    omega
  | expression _ value =>
    simp only [children, List.mem_singleton] at h
    subst h
    simp only [Node.statement.sizeOf_spec, Statement.expression.sizeOf_spec,
      Node.expr.sizeOf_spec]
    omega
  | comment => exact absurd h List.not_mem_nil

theorem sizeOf_lt_of_mem_expr {value : Expr} {child : Node} (h : child ∈ (expr value).children) :
    sizeOf child < sizeOf (expr value) := by
  cases value with
  | identifier | literal => exact absurd h List.not_mem_nil
  | binary _ _ left right =>
    simp only [children, List.mem_cons, List.not_mem_nil, or_false] at h
    rcases h with rfl | rfl <;>
      simp only [Node.expr.sizeOf_spec, Expr.binary.sizeOf_spec] <;> omega
  | unary _ _ argument =>
    simp only [children, List.mem_cons, List.not_mem_nil, or_false] at h
    subst h
    simp only [Node.expr.sizeOf_spec, Expr.unary.sizeOf_spec]
    omega
  | member _ object property =>
    simp only [children, List.mem_cons, List.not_mem_nil, or_false] at h
    have hpos : 0 < sizeOf object := by cases object <;> simp +arith
    rcases h with rfl | rfl <;>
      simp only [Node.expr.sizeOf_spec, Expr.member.sizeOf_spec,
        Expr.identifier.sizeOf_spec] <;> omega
  | call _ callee arguments =>
    simp only [Node.expr.sizeOf_spec, Expr.call.sizeOf_spec]
    rcases List.mem_cons.1 h with rfl | h
    · simp only [Node.expr.sizeOf_spec]
      omega
    · obtain ⟨value, hvalue, rfl⟩ := List.mem_map.1 h
      have := List.sizeOf_lt_of_mem hvalue
      simp only [Node.expr.sizeOf_spec]
      omega
  | index _ object index =>
    simp only [children, List.mem_cons, List.not_mem_nil, or_false] at h
    rcases h with rfl | rfl <;>
      simp only [Node.expr.sizeOf_spec, Expr.index.sizeOf_spec] <;> omega
  | array _ elements =>
    obtain ⟨value, hvalue, rfl⟩ := List.mem_map.1 h
    have := List.sizeOf_lt_of_mem hvalue
    simp only [Node.expr.sizeOf_spec, Expr.array.sizeOf_spec]
    omega
  | object _ entries =>
    obtain ⟨value, hvalue, rfl⟩ := List.mem_map.1 h
    have := List.sizeOf_lt_of_mem hvalue
    simp only [Node.entry.sizeOf_spec, Node.expr.sizeOf_spec, Expr.object.sizeOf_spec]
    omega
  | interpolated _ parts =>
    have := sizeOf_le_of_mem_ofParts h
    simp only [Node.expr.sizeOf_spec, Expr.interpolated.sizeOf_spec]
    omega

theorem sizeOf_lt_of_mem_children {node child : Node} (h : child ∈ node.children) :
    sizeOf child < sizeOf node := by
  cases node with
  | program value =>
    obtain ⟨_, body⟩ := value
    have : sizeOf child ≤ sizeOf body := sizeOf_le_of_mem_statements h
    simp only [Node.program.sizeOf_spec, Program.mk.sizeOf_spec]
    omega
  | statement => exact sizeOf_lt_of_mem_statement h
  | subKeyword value =>
    obtain ⟨_, _, argument, body⟩ := value
    simp only [Node.subKeyword.sizeOf_spec, SubKeyword.mk.sizeOf_spec]
    rcases List.mem_append.1 h with h | h
    · have := sizeOf_lt_of_mem_argument h
      omega
    · have := sizeOf_le_of_mem_statements h
      omega
  | prose value =>
    obtain ⟨_, parts⟩ := value
    have : sizeOf child ≤ sizeOf parts := sizeOf_le_of_mem_ofParts h
    simp only [Node.prose.sizeOf_spec, Prose.mk.sizeOf_spec]
    omega
  | expr => exact sizeOf_lt_of_mem_expr h
  | entry value =>
    obtain ⟨_, key, value⟩ := value
    simp only [children, List.mem_cons, List.not_mem_nil, or_false] at h
    rcases h with rfl | rfl <;>
      simp only [Node.expr.sizeOf_spec, Node.entry.sizeOf_spec, Entry.mk.sizeOf_spec] <;> omega

end Node

/-! ## Tours -/

inductive Phase where
  | enter
  | leave
  deriving DecidableEq, Repr

/-- One step of a tour: the node, the nodes around it, innermost first, and its place among the
children of the innermost of them. -/
structure Visit where
  phase : Phase
  node : Node
  ancestors : List Node
  place : Nat

namespace Node

def tour (ancestors : List Node) (place : Nat) (node : Node) : List Visit :=
  let inside := node.children.attach.zipIdx.flatMap fun (⟨child, _⟩, i) =>
    tour (node :: ancestors) i child
  ⟨.enter, node, ancestors, place⟩ :: inside ++ [⟨.leave, node, ancestors, place⟩]
  termination_by sizeOf node
  decreasing_by exact sizeOf_lt_of_mem_children ‹_›

end Node
end GuidedTrack
