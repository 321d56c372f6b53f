import GuidedTrack.Program
import GuidedTrack.Rule.Keywords
import GuidedTrack.Rule.Lines
import GuidedTrack.Rule.Variables

/-! # Linting

The rules are asked along one tour of the document; their messages are sorted by line and column.
-/

namespace GuidedTrack

namespace Rule

/-- Every rule, in the order in which they are asked. -/
def all : List Rule :=
  [validKeyword, validSubKeyword, requiredSubKeywords, noInlineArgument, purchaseConstraints,
    gotoNeedsReset, noInvalidGoto, noUnusedLabels, indentStyle, noUnclosedString,
    noUnclosedBracket, noUndefinedVars, noUnusedVars]

def find? (name : String) : Option Rule :=
  all.find? fun rule => rule.name == name

end Rule

namespace Lint

inductive Setting where
  | off
  | warn
  | error
  deriving DecidableEq, Repr

namespace Setting

def name : Setting → String
  | off => "off"
  | warn => "warn"
  | error => "error"

def ofName? (s : String) : Option Setting :=
  [off, warn, error].find? fun setting => setting.name == s

def severity? : Setting → Option Severity
  | off => none
  | warn => some .warning
  | error => some .error

end Setting

abbrev Settings := List (String × Setting)

/-- The severity of a rule: what the settings say, or else its own. -/
def severityOf (settings : Settings) (rule : Rule) : Option Severity :=
  match settings.lookup rule.name with
  | some setting => setting.severity?
  | none => some rule.severity

/-- A report with the rule that made it. -/
structure Message where
  rule : String
  severity : Severity
  report : Report
  deriving DecidableEq, Repr

def Message.precedes (a b : Message) : Bool :=
  a.report.line < b.report.line ||
    (a.report.line == b.report.line && a.report.column ≤ b.report.column)

/-- What the rules in force say about one step of the tour. -/
def messagesAt (settings : Settings) (document : Document) (visit : Visit) : List Message :=
  Rule.all.flatMap fun rule =>
    match severityOf settings rule with
    | none => []
    | some severity => (rule.check document visit).map (⟨rule.name, severity, ·⟩)

def document (source : String) : Except Numeral.Error Document := do
  let tokens := Token.ofSource source
  let (program, _) ← Program.ofTokens tokens
  return ⟨source, tokens, (Node.program program).tour [] 0⟩

/-- The messages on a source, by line and column. -/
def messages (settings : Settings) (source : String) : Except Numeral.Error (List Message) := do
  let document ← document source
  return (document.visits.flatMap (messagesAt settings document)).mergeSort Message.precedes

def fixes (messages : List Message) : List Fix :=
  messages.filterMap (·.report.fix)

def count (severity : Severity) (messages : List Message) : Nat :=
  messages.countP (·.severity = severity)

def fixableCount (severity : Severity) (messages : List Message) : Nat :=
  messages.countP fun message => message.severity = severity && message.report.fix.isSome

def fixed (settings : Settings) (source : String) : Except Numeral.Error String := do
  return Fix.applyAll source (fixes (← messages settings source))

/-- Applies fixes until the text stops changing, in at most `passes` passes. -/
def fixRepeatedly (settings : Settings) : Nat → String → Except Numeral.Error String
  | 0, source => return source
  | passes + 1, source => do
      let output ← fixed settings source
      if output == source then return source else fixRepeatedly settings passes output

def maxPasses : Nat := 10

/-- Applies fixes until the text stops changing or the passes are used up. -/
def fixUntilStable (settings : Settings) (source : String) : Except Numeral.Error String :=
  fixRepeatedly settings maxPasses source

end Lint
end GuidedTrack
