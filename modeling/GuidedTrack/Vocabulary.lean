import GuidedTrack.Token

/-! # Closed vocabularies

The words that decide how a line is scanned. Every list is in alphabetical order.
-/

namespace GuidedTrack.Vocabulary

def keywords : List String :=
  ["audio", "button", "chart", "clear", "component", "database", "email", "events", "experiment",
    "for", "goto", "group", "header", "html", "if", "image", "label", "list", "login", "maintain",
    "navigation", "page", "points", "program", "progress", "purchase", "question", "quit",
    "randomize", "repeat", "return", "service", "set", "settings", "share", "summary", "switch",
    "trigger", "video", "wait", "while"]

/-- Names that qualify an enclosing keyword when they stand on an indented line. -/
def subKeywords : List String :=
  ["after", "answers", "before", "blank", "body", "cancel", "caption", "classes", "click",
    "confirm", "countdown", "data", "date", "default", "description", "error", "every",
    "everytime", "frequency", "hide", "icon", "identifier", "management", "max", "method", "min",
    "multiple", "name", "other", "path", "placeholder", "required", "reset", "save", "searchable",
    "send", "shuffle", "start", "startup", "status", "subject", "success", "tags", "throwaway",
    "time", "tip", "to", "trendline", "type", "until", "what", "when", "with", "xaxis", "yaxis"]

def wordOperators : List String :=
  ["and", "in", "not", "or"]

def operators : List String :=
  ["%", "*", "+", "-", "/", "<", "<=", "=", ">", ">="] ++ wordOperators

/-- Directives whose argument is an address, a path or a name, in which a star or a slash marks no
emphasis. -/
def plainArguments : List String :=
  ["audio", "data", "every", "experiment", "goto", "icon", "identifier", "image", "label",
    "method", "name", "path", "program", "save", "status", "subject", "to", "trigger", "type",
    "until", "video", "what", "when", "xaxis", "yaxis"]

/-- The kind of a directive: a sub-keyword only on an indented line, and only by its name. -/
def directiveKind (name : String) (depth : Int) : Token.Kind :=
  if 0 < depth && subKeywords.contains name then .subKeyword else .keyword

end GuidedTrack.Vocabulary
