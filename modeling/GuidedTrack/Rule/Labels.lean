import GuidedTrack.Rule

/-! # Rules on labels

A `*label` names a place in the document and a `*goto` jumps to one. Jumps to another site are none
of the document's labels.
-/

namespace GuidedTrack.Rule

/-- The name that the argument of a label or a jump gives: its first piece of text, trimmed. -/
def labelName : Option Argument → String
  | some (.prose prose) =>
    let texts := prose.parts.filterMap fun
      | .text value => some value
      | .expr _ => none
    String.ofList (Text.trim ((texts.head?.getD "").toList))
  | some (.expr (.identifier name)) => name.text
  | _ => ""

def isExternal (target : String) : Bool :=
  target.startsWith "http://" || target.startsWith "https://"

/-- The named statements of one keyword: the name of each and its place. -/
def namedStatements (keyword : String) (document : Document) : List (String × Position) :=
  document.visits.filterMap fun visit =>
    match visit.phase, visit.node with
    | .enter, .statement (.keyword span name argument _ _) =>
      let target := labelName argument
      if name == keyword && !target.isEmpty then some (target, span.start) else none
    | _, _ => none

def labels (document : Document) : List (String × Position) :=
  namedStatements "label" document

def jumps (document : Document) : List (String × Position) :=
  (namedStatements "goto" document).filter fun jump => !isExternal jump.1

/-- Makes a rule out of a check that runs once, when the tour of a document ends. -/
def onLeave (check : Document → List Report) : Document → Visit → List Report :=
  fun document visit =>
    match visit.phase, visit.node with
    | .leave, .program _ => check document
    | _, _ => []

def unmatched (entries others : List (String × Position)) : List (String × Position) :=
  entries.filter fun entry => !(others.map Prod.fst).contains entry.1

def anyKeyword (keyword : String) (nodes : List Node) : Bool :=
  nodes.any fun
    | .statement (.keyword _ name _ _ _) => name == keyword
    | _ => false

def gotoNeedsReset : Rule where
  name := "goto-needs-reset-in-events"
  severity := .warning
  check := fun _ visit =>
    match visit.phase, visit.node with
    | .enter, .statement (.keyword span "goto" _ subKeywords _) =>
      let resets := subKeywords.any fun | .mk _ name _ _ => name == "reset"
      if anyKeyword "events" visit.ancestors && !resets then
        [.ofPosition span.start
          "'*goto:' inside '*events' should have '*reset' to prevent unexpected behavior"]
      else []
    | _, _ => []

def noInvalidGoto : Rule where
  name := "no-invalid-goto"
  severity := .error
  check := onLeave fun document =>
    (unmatched (jumps document) (labels document)).map fun (name, position) =>
      .ofPosition position s!"*goto target '{name}' is not defined"

def noUnusedLabels : Rule where
  name := "no-unused-labels"
  severity := .warning
  check := onLeave fun document =>
    (unmatched (labels document) (jumps document)).map fun (name, position) =>
      .ofPosition position s!"Label '{name}' is defined but never used by a *goto"

end GuidedTrack.Rule
