import GuidedTrack.Numeral
import GuidedTrack.Source

/-! # Expressions

The trees of expressions, every node with the stretch of source it was read from. A bracketed
expression is the tree of what stands inside the brackets.
-/

namespace GuidedTrack

inductive BinaryOp where
  | or | and
  | equal | less | greater | atMost | atLeast | isIn
  | add | subtract | multiply | divide | remainder
  deriving DecidableEq, Repr

namespace BinaryOp

def symbol : BinaryOp → String
  | or => "or"
  | and => "and"
  | equal => "="
  | less => "<"
  | greater => ">"
  | atMost => "<="
  | atLeast => ">="
  | isIn => "in"
  | add => "+"
  | subtract => "-"
  | multiply => "*"
  | divide => "/"
  | remainder => "%"

end BinaryOp

inductive UnaryOp where
  | not | negate
  deriving DecidableEq, Repr

namespace UnaryOp

def symbol : UnaryOp → String
  | not => "not"
  | negate => "-"

end UnaryOp

inductive Literal where
  | text (value : String)
  | number (value : Number)
  deriving DecidableEq, Repr

structure Name where
  span : Span
  text : String
  deriving DecidableEq, Repr

mutual

inductive Expr where
  | identifier (name : Name)
  | literal (span : Span) (value : Literal) (raw : String)
  | binary (span : Span) (op : BinaryOp) (left right : Expr)
  | unary (span : Span) (op : UnaryOp) (argument : Expr)
  | member (span : Span) (object : Expr) (property : Name)
  | call (span : Span) (callee : Expr) (arguments : List Expr)
  | index (span : Span) (object index : Expr)
  | array (span : Span) (elements : List Expr)
  | object (span : Span) (entries : List Entry)
  | interpolated (span : Span) (parts : List Part)

inductive Entry where
  | mk (span : Span) (key value : Expr)

inductive Part where
  | text (value : String)
  | expr (value : Expr)

end

instance : Inhabited Expr := ⟨.identifier ⟨default, ""⟩⟩

namespace Expr

def span : Expr → Span
  | identifier name => name.span
  | literal span _ _ | binary span _ _ _ | unary span _ _ | member span _ _ | call span _ _
  | index span _ _ | array span _ | object span _ | interpolated span _ => span

/-- Two operands joined; the whole reaches from the start of the first to the end of the second. -/
def join (op : BinaryOp) (left right : Expr) : Expr :=
  binary ⟨left.span.start, right.span.stop⟩ op left right

end Expr

namespace Entry

def span : Entry → Span
  | mk span _ _ => span

end Entry
end GuidedTrack
