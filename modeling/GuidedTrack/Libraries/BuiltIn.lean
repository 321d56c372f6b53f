import GuidedTrack.Configuration.Schema
import GuidedTrack.Libraries
import GuidedTrack.Yaml.Document

/-! # Built-in libraries

The program comes with libraries of its own: a reader for the YAML that configuration files are
written in, the schema of configurations, and the control sequences of a terminal.
-/

namespace GuidedTrack.Libraries.BuiltIn

def content : Datum → Content (List (Datum × Datum))
  | .null => .nothing
  | .map entries => .mapping entries
  | _ => .other

def load (text : String) : Except Rejection (Content (List (Datum × Datum))) :=
  ((Yaml.read text).mapError fun error => .announced error.message).map content

def problemsText (problems : List Configuration.Schema.Problem) : String :=
  "; ".intercalate (problems.map Configuration.Schema.Problem.message)

def validate (entries : List (Datum × Datum)) : Except Rejection Configuration.User :=
  (Configuration.Schema.user (.map entries)).mapError fun problems =>
    .announced (problemsText problems)

def codes : Listing.Emphasis → Nat × Nat
  | .bold => (1, 22)
  | .dim => (2, 22)
  | .underline => (4, 24)
  | .red => (31, 39)
  | .yellow => (33, 39)

def sequenceOf (code : Nat) : String :=
  s!"\x1b[{code}m"

def paint (color : Bool) (emphases : List Listing.Emphasis) (text : String) : String :=
  if color then
    "".intercalate (emphases.map fun emphasis => sequenceOf (codes emphasis).1) ++ text ++
      "".intercalate (emphases.map fun emphasis => sequenceOf (codes emphasis).2)
  else text

end BuiltIn

/-- The built-in libraries, with colours or without. -/
def builtIn (color : Bool) : Libraries where
  Mapping := List (Datum × Datum)
  empty := []
  load := BuiltIn.load
  validate := BuiltIn.validate
  paint := BuiltIn.paint color

end GuidedTrack.Libraries
