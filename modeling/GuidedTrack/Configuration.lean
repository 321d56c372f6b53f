import GuidedTrack.Layout.Style
import GuidedTrack.Lint

/-! # Configurations

A configuration has settings for rules, a layout style and patterns of files to leave out. What a
user gives is laid over the defaults.
-/

namespace GuidedTrack

structure Configuration where
  rules : Lint.Settings := []
  style : Layout.Style := {}
  ignore : List String := []
  deriving DecidableEq, Repr

namespace Configuration

/-- What a user gives; every section may be missing. -/
structure User where
  rules : Lint.Settings := []
  style : Option Layout.Overrides := none
  ignore : List String := []
  deriving DecidableEq, Repr

def standard : Configuration where
  rules :=
    [("valid-keyword", .error), ("valid-sub-keyword", .error), ("required-subkeywords", .error),
      ("no-inline-argument", .error), ("purchase-subkeyword-constraints", .error),
      ("goto-needs-reset-in-events", .warn), ("no-invalid-goto", .error),
      ("no-unused-labels", .warn), ("indent-style", .error), ("no-unclosed-string", .error),
      ("no-unclosed-bracket", .error), ("no-undefined-vars", .error), ("no-unused-vars", .warn)]
  style := {}
  ignore := ["**/node_modules/**", "**/dist/**"]

/-- Sets one rule: in its place if it is there, else at the end. -/
def setRule (rules : Lint.Settings) (entry : String × Lint.Setting) : Lint.Settings :=
  if rules.any (·.1 == entry.1) then
    rules.map fun rule => if rule.1 == entry.1 then entry else rule
  else rules ++ [entry]

def addPattern (patterns : List String) (pattern : String) : List String :=
  if patterns.contains pattern then patterns else patterns ++ [pattern]

/-- Lays what a user gives over the defaults, rule by rule and option by option; patterns are added.
-/
def merge (user : User) : Configuration where
  rules := user.rules.foldl setRule standard.rules
  style := standard.style.overlay (user.style.getD {})
  ignore := user.ignore.foldl addPattern standard.ignore

end Configuration
end GuidedTrack
