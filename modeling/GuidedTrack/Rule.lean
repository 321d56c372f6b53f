import GuidedTrack.Fix
import GuidedTrack.Node
import GuidedTrack.Token

/-! # Lint rules

A rule looks at one step of the tour of a document at a time and reports what it finds there. It may
use the whole document to judge a step, and keeps no state.
-/

namespace GuidedTrack

inductive Severity where
  | error
  | warning
  deriving DecidableEq, Repr

namespace Severity

def name : Severity → String
  | error => "error"
  | warning => "warning"

end Severity

structure Document where
  source : String
  tokens : List Token
  visits : List Visit

/-- What a rule reports: a text at a place, where the place ends if the rule knows, and a fix if
there is one. -/
structure Report where
  text : String
  line : Int
  column : Int
  endLine : Option Int := none
  endColumn : Option Int := none
  fix : Option Fix := none
  deriving DecidableEq, Repr

namespace Report

def ofPosition (position : Position) (text : String) : Report :=
  { text, line := position.line, column := position.column }

end Report

structure Rule where
  name : String
  severity : Severity
  check : Document → Visit → List Report

end GuidedTrack
