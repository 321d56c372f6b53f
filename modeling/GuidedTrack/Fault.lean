import GuidedTrack.Text.Quoted
import GuidedTrack.Token

/-! # Grammar faults

What a document can get wrong, and where. Faults are recorded while a tree is read; they never stop
it.
-/

namespace GuidedTrack

namespace Fault

inductive Found where
  | endOfInput
  | endOfLine
  | token (text : String)
  deriving DecidableEq, Repr

namespace Found

def ofTokens : List Token → Found
  | [] => endOfInput
  | next :: _ =>
    match next.kind with
    | .endOfInput => endOfInput
    | .newline => endOfLine
    | _ => token next.text

def describe : Found → String
  | endOfInput => "end of input"
  | endOfLine => "end of line"
  | token text => Text.quoted text

end Found

inductive Cause where
  | unexpectedDedent
  | unexpectedIndentation
  | strayDirective (name : String)
  | missingColon (name : String)
  | unclosedInterpolation
  | missingExpression
  | leftover (text : String)
  | unexpected (found : Found)
  | expected (kind : Token.Kind) (found : Found)
  deriving DecidableEq, Repr

namespace Cause

def message : Cause → String
  | unexpectedDedent => "Unexpected dedent"
  | unexpectedIndentation => "Unexpected indentation"
  | strayDirective name => s!"Sub-keyword '*{name}' must be nested inside a keyword"
  | missingColon name => s!"Expected ':' after '*{name}'"
  | unclosedInterpolation => "Unclosed interpolation, expected '\x7d'"
  | missingExpression => "Expected an expression"
  | leftover text => s!"Unexpected token {Text.quoted text} in expression"
  | unexpected found => s!"Unexpected {found.describe} in expression"
  | expected kind found => s!"Expected '{kind.name}', got {found.describe}"

end Cause
end Fault

structure Fault where
  position : Position
  cause : Fault.Cause
  deriving DecidableEq, Repr

namespace Fault

def message (fault : Fault) : String :=
  s!"Line {fault.position.line}, column {fault.position.column}: {fault.cause.message}"

end Fault
end GuidedTrack
