import GuidedTrack.Text.Lowercase

/-! # Keyword contracts

Each keyword declares the shape of its inline argument, whether it takes an indented body, and which
sub-keywords it accepts, with their constraints. All questions about keywords are answered from the
one table of this module; names are compared in lower case.
-/

namespace GuidedTrack

namespace Contract

inductive ArgumentShape where
  | none | text | url | number | percent | duration | expression | label | variableName
  | programName | serviceName | eventName | enum
  deriving DecidableEq, Repr

inductive ValueShape where
  | none | text | url | number | expression | yesNo | duration | datetime | enum | collection
  | association
  deriving DecidableEq, Repr

namespace ArgumentShape

def name : ArgumentShape → String
  | none => "none"
  | text => "text"
  | url => "url"
  | number => "number"
  | percent => "percent"
  | duration => "duration"
  | expression => "expression"
  | label => "label"
  | variableName => "variable"
  | programName => "program-name"
  | serviceName => "service-name"
  | eventName => "event-name"
  | enum => "enum"

end ArgumentShape

namespace ValueShape

def name : ValueShape → String
  | none => "none"
  | text => "text"
  | url => "url"
  | number => "number"
  | expression => "expression"
  | yesNo => "yes-no"
  | duration => "duration"
  | datetime => "datetime"
  | enum => "enum"
  | collection => "collection"
  | association => "association"

def isExpression : ValueShape → Bool
  | expression | collection | association => true
  | _ => false

end ValueShape

structure Argument where
  required : Bool := false
  shape : ArgumentShape := .none
  choices : Option (List String) := none
  deriving DecidableEq, Repr

inductive Body where
  | forbidden | optional | required
  deriving DecidableEq, Repr

namespace Body

def isAllowed : Body → Bool
  | forbidden => false
  | _ => true

end Body

structure Sub where
  required : Bool := false
  value : ValueShape := .none
  choices : Option (List String) := none
  hasBody : Bool := false
  deriving DecidableEq, Repr

/-- If one of `present` is used, all of `needed` must be. -/
structure Condition where
  present : List String
  needed : List String
  deriving DecidableEq, Repr

end Contract

/-- The contract of one keyword. Exactly one sub-keyword of each exclusive group must be present. -/
structure Contract where
  argument : Contract.Argument := {}
  body : Contract.Body := .forbidden
  subKeywords : List (String × Contract.Sub) := []
  requiredSubs : List String := []
  exclusiveGroups : List (List String) := []
  conditions : List Contract.Condition := []
  deriving DecidableEq, Repr

namespace Contract

def yesNo : Sub :=
  { value := .yesNo, choices := some ["yes", "no"] }

def table : List (String × Contract) :=
  [("audio",
      { argument := { shape := .url, required := true }
        subKeywords :=
          [("start", yesNo),
            ("hide", yesNo)] }),
    ("button", { argument := { shape := .text, required := true } }),
    ("chart",
      { argument := { shape := .text, required := false }
        subKeywords :=
          [("type",
              { value := .enum, choices := some ["bar", "line", "scatter"], required := true }),
            ("data", { value := .collection, required := true }),
            ("xaxis", { value := .association }),
            ("yaxis", { value := .association }),
            ("trendline", yesNo),
            ("min", { value := .number }),
            ("max", { value := .number })]
        requiredSubs := ["type", "data"] }),
    ("clear", {}),
    ("component",
      { body := .required
        subKeywords :=
          [("classes", { value := .text }),
            ("click", { hasBody := true }),
            ("with", { value := .expression })] }),
    ("database",
      { argument := { shape := .enum, required := true, choices := some ["request"] }
        subKeywords :=
          [("what", { value := .text, required := true }),
            ("success", { required := true, hasBody := true }),
            ("error", { required := true, hasBody := true })]
        requiredSubs := ["what", "success", "error"] }),
    ("email",
      { subKeywords :=
          [("subject", { value := .text, required := true }),
            ("body", { required := true, hasBody := true }),
            ("to", { value := .text }),
            ("when", { value := .datetime }),
            ("every", { value := .duration }),
            ("until", { value := .datetime }),
            ("identifier", { value := .text }),
            ("cancel", { value := .text })]
        requiredSubs := ["subject", "body"] }),
    ("events", { body := .required }),
    ("experiment",
      { argument := { shape := .text, required := true }
        body := .required }),
    ("for",
      { argument := { shape := .expression, required := true }
        body := .required }),
    ("goto",
      { argument := { shape := .label, required := true }
        subKeywords :=
          [("reset", {})] }),
    ("group",
      { argument := { shape := .text, required := false }
        body := .required }),
    ("header", { argument := { shape := .text, required := true } }),
    ("html", { body := .required }),
    ("if",
      { argument := { shape := .expression, required := true }
        body := .required }),
    ("image",
      { argument := { shape := .url, required := true }
        subKeywords :=
          [("caption", { value := .text }),
            ("description", { value := .text })] }),
    ("label", { argument := { shape := .label, required := true } }),
    ("list",
      { argument := { shape := .enum, required := false, choices := some ["ordered", "expandable"] }
        body := .required }),
    ("login",
      { subKeywords :=
          [("required", yesNo)] }),
    ("maintain", { argument := { shape := .text, required := true } }),
    ("navigation",
      { body := .required
        subKeywords :=
          [("name", { value := .text }),
            ("icon", { value := .text })] }),
    ("page", { body := .required }),
    ("points", { argument := { shape := .text, required := true } }),
    ("program", { argument := { shape := .programName, required := true } }),
    ("progress", { argument := { shape := .percent, required := true } }),
    ("purchase",
      { argument := { shape := .text, required := false }
        subKeywords :=
          [("status", { hasBody := true }),
            ("frequency", { value := .text, hasBody := true }),
            ("management", {}),
            ("success", { hasBody := true }),
            ("error", { hasBody := true })]
        exclusiveGroups := [["status", "frequency", "management"]]
        conditions := [{ present := ["status", "frequency"], needed := ["success", "error"] }] }),
    ("question",
      { argument := { shape := .text, required := true }
        body := .optional
        subKeywords :=
          [("type",
              { value := .enum, choices := some ["calendar", "checkbox", "choice", "number",
                  "paragraph", "ranking", "slider", "text"] }),
            ("shuffle", yesNo),
            ("save", { value := .text }),
            ("tip", { value := .text }),
            ("confirm", yesNo),
            ("searchable", yesNo),
            ("throwaway", yesNo),
            ("countdown", { value := .duration }),
            ("tags", { value := .text }),
            ("answers", { value := .collection }),
            ("blank", yesNo),
            ("multiple", yesNo),
            ("default", { value := .expression }),
            ("before", { value := .text }),
            ("after", { value := .text }),
            ("min", { value := .number }),
            ("max", { value := .number }),
            ("time", yesNo),
            ("date", yesNo),
            ("placeholder", { value := .text }),
            ("other", yesNo),
            ("icon", { value := .text })] }),
    ("quit", {}),
    ("randomize",
      { argument := { shape := .text, required := false }
        body := .required
        subKeywords :=
          [("everytime", yesNo),
            ("name", { value := .text })] }),
    ("repeat",
      { argument := { shape := .expression, required := true }
        body := .required }),
    ("return", {}),
    ("service",
      { argument := { shape := .serviceName, required := true }
        subKeywords :=
          [("path", { value := .text, required := true }),
            ("method",
              { value := .enum, choices := some ["GET", "POST", "PUT", "PATCH", "DELETE"],
                  required := true }),
            ("send", { value := .association }),
            ("success", { required := true, hasBody := true }),
            ("error", { required := true, hasBody := true })]
        requiredSubs := ["path", "method", "success", "error"] }),
    ("set", { argument := { shape := .expression, required := true } }),
    ("settings", { body := .optional }),
    ("share", { argument := { shape := .text, required := false } }),
    ("summary", { argument := { shape := .text, required := false } }),
    ("switch",
      { argument := { shape := .programName, required := true }
        subKeywords :=
          [("reset", {})] }),
    ("trigger",
      { argument := { shape := .eventName, required := true }
        subKeywords :=
          [("send", { value := .association })] }),
    ("video", { argument := { shape := .url, required := true } }),
    ("wait", { argument := { shape := .duration, required := false } }),
    ("while",
      { argument := { shape := .expression, required := true }
        body := .required })]

def find? (keyword : String) : Option Contract :=
  table.lookup (Text.lower keyword)

def isKeyword (keyword : String) : Bool :=
  (find? keyword).isSome

def findSub? (keyword sub : String) : Option Sub :=
  (find? keyword).bind fun contract => contract.subKeywords.lookup (Text.lower sub)

def acceptedSubs (keyword : String) : List String :=
  ((find? keyword).map fun contract => contract.subKeywords.map Prod.fst).getD []

def requiredSubsOf (keyword : String) : List String :=
  ((find? keyword).map Contract.requiredSubs).getD []

def takesExpression (keyword : String) : Bool :=
  (find? keyword).any fun contract => contract.argument.shape == .expression

def subTakesExpression (keyword sub : String) : Bool :=
  (findSub? keyword sub).any fun contract => contract.value.isExpression

end Contract
end GuidedTrack
