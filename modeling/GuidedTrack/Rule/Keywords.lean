import GuidedTrack.Contract
import GuidedTrack.Rule
import GuidedTrack.Vocabulary

/-! # Rules on directives

Keywords and sub-keywords are checked against the vocabulary and the contracts.
-/

namespace GuidedTrack.Rule

def subName : SubKeyword → String
  | .mk _ name _ _ => name

/-- Makes a rule out of a check of keyword statements by their name, their argument and the names of
their sub-keywords. -/
def onKeyword (check : String → Option Argument → List String → List String) :
    Document → Visit → List Report := fun _ visit =>
  match visit.phase, visit.node with
  | .enter, .statement (.keyword span name argument subKeywords _) =>
    (check name argument (subKeywords.map subName)).map (.ofPosition span.start)
  | _, _ => []

def starred (separator : String) (names : List String) : String :=
  separator.intercalate (names.map ("*" ++ ·))

def validKeyword : Rule where
  name := "valid-keyword"
  severity := .error
  check := onKeyword fun name _ _ =>
    if Vocabulary.keywords.contains name then []
    else [s!"'*{name}' is not a valid GuidedTrack keyword"]

def subKeywordFault? (parent : Option Node) (name : String) : Option String :=
  if !Vocabulary.subKeywords.contains name then some s!"'*{name}' is not a valid sub-keyword"
  else match parent with
    | some (.statement (.keyword _ keyword _ _ _)) =>
      let accepted := Contract.acceptedSubs keyword
      if accepted.isEmpty then some s!"'*{keyword}' does not support sub-keywords"
      else if accepted.contains name then none
      else some s!"'*{name}' is not a valid sub-keyword for '*{keyword}'"
    | _ => none

def validSubKeyword : Rule where
  name := "valid-sub-keyword"
  severity := .error
  check := fun _ visit =>
    match visit.phase, visit.node with
    | .enter, .subKeyword (.mk span name _ _) =>
      (subKeywordFault? visit.ancestors.head? name).toList.map (.ofPosition span.start)
    | _, _ => []

def requiredSubKeywords : Rule where
  name := "required-subkeywords"
  severity := .error
  check := onKeyword fun name _ present =>
    let missing := (Contract.requiredSubsOf name).filter (!present.contains ·)
    let plural := if missing.length > 1 then "s" else ""
    let list := ", ".intercalate (missing.map fun sub => s!"*{sub}:")
    if missing.isEmpty then []
    else [s!"'*{name}:' is missing required sub-keyword{plural}: {list}"]

def noInlineArgument : Rule where
  name := "no-inline-argument"
  severity := .error
  check := onKeyword fun name argument _ =>
    match Contract.find? name with
    | some contract =>
      if contract.argument.shape == .none && argument.isSome then
        [s!"'*{name}' should not have an inline argument"]
      else []
    | none => []

/-- What the first exclusive group that is not met says, if there is one. -/
def exclusiveFault? (present : List String) : List (List String) → Option String
  | [] => none
  | group :: rest =>
    match group.filter present.contains with
    | [] =>
      let choices := starred ", " group.dropLast
      let last := starred "" group.getLast?.toList
      some s!"'*purchase' must have exactly one of: {choices}, or {last}"
    | [_] => exclusiveFault? present rest
    | found =>
      let list := starred ", " found
      some s!"'*purchase' cannot have multiple mode sub-keywords. Found: {list}. Use only one."

def conditionFaults (present : List String) (conditions : List Contract.Condition) : List String :=
  conditions.filterMap fun condition =>
    let missing := condition.needed.filter (!present.contains ·)
    match condition.present.filter present.contains with
    | [] => none
    | trigger :: _ =>
      let list := starred " and " missing
      if missing.isEmpty then none else some s!"'*purchase' with '*{trigger}' requires: {list}"

def purchaseConstraints : Rule where
  name := "purchase-subkeyword-constraints"
  severity := .error
  check := onKeyword fun name _ present =>
    match name, Contract.find? "purchase" with
    | "purchase", some contract =>
      match exclusiveFault? present contract.exclusiveGroups with
      | some fault => [fault]
      | none => conditionFaults present contract.conditions
    | _, _ => []

end GuidedTrack.Rule
