import GuidedTrack.Lint

/-! # Listings

The messages on some files, as they are shown to a reader.
-/

namespace GuidedTrack

structure Listing.Entry where
  path : String
  messages : List Lint.Message
  deriving DecidableEq, Repr

abbrev Listing := List Listing.Entry

namespace Listing

def count (severity : Severity) (listing : Listing) : Nat :=
  Lint.count severity (listing.flatMap Entry.messages)

def hasErrors (listing : Listing) : Bool :=
  listing.any fun entry => 0 < Lint.count .error entry.messages

/-! ## Lines for a reader -/

inductive Emphasis where
  | bold
  | dim
  | underline
  | red
  | yellow
  deriving DecidableEq, Repr

/-- How texts are emphasised where a run is shown. -/
abbrev Paint := List Emphasis → String → String

def emphasisOf : Severity → Emphasis
  | .error => .red
  | .warning => .yellow

def messageLine (paint : Paint) (message : Lint.Message) : String :=
  let place := paint [.dim] s!"{message.report.line}:{message.report.column}"
  let severity := paint [emphasisOf message.severity] message.severity.name
  let rule := paint [.dim] message.rule
  s!"  {place}  {severity}  {message.report.text}  {rule}"

/-- The lines of one file and an empty one, none if there is nothing to tell. -/
def entryLines (paint : Paint) (entry : Entry) : List String :=
  if entry.messages.isEmpty then []
  else paint [.underline] entry.path :: entry.messages.map (messageLine paint) ++ [""]

def summaryLine (paint : Paint) (listing : Listing) : String :=
  let errors := count .error listing
  let warnings := count .warning listing
  paint [if 0 < errors then .red else .yellow, .bold]
    s!"{errors + warnings} problem(s) ({errors} error(s), {warnings} warning(s))"

/-- A listing for a reader, no lines if there is no message. -/
def stylish (paint : Paint) (listing : Listing) : List String :=
  if count .error listing + count .warning listing = 0 then []
  else listing.flatMap (entryLines paint) ++ [summaryLine paint listing]

end Listing
end GuidedTrack
