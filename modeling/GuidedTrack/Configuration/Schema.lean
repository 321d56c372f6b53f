import GuidedTrack.Configuration
import GuidedTrack.Datum

/-! # The schema of configurations

Data are checked against the shape of a configuration, and every problem is reported with its place,
not only the first. Numbers and truth values may be spelled in several ways.
-/

namespace GuidedTrack.Configuration.Schema

inductive Key where
  | name (value : String)
  | index (value : Int)
  deriving DecidableEq, Repr

inductive Cause where
  | notRecord
  | notMap
  | notList
  | notText
  | notSetting
  | unknownKey
  | badKey
  | notInteger
  | badInteger
  | fraction
  | notFinite
  | negative
  | notBool
  | badBool
  deriving DecidableEq, Repr

structure Problem where
  place : List Key
  cause : Cause
  deriving DecidableEq, Repr

namespace Key

def describe : Key → String
  | name value => value
  | index value => s!"{value}"

end Key

namespace Cause

def message : Cause → String
  | notRecord => "expected a mapping of options"
  | notMap => "expected a mapping"
  | notList => "expected a list"
  | notText => "expected a text"
  | notSetting => "expected off, warn or error"
  | unknownKey => "unknown key"
  | badKey => "a key must be a text"
  | notInteger => "expected an integer"
  | badInteger => "a text that is no integer"
  | fraction => "a number with a fraction"
  | notFinite => "a number that is not finite"
  | negative => "must not be negative"
  | notBool => "expected a truth value"
  | badBool => "a value that is no truth value"

end Cause

namespace Problem

def message (problem : Problem) : String :=
  ".".intercalate (problem.place.map Key.describe) ++ s!": {problem.cause.message}"

end Problem

abbrev Checked (α : Type) := Except (List Problem) α

namespace Checked

def refuse {α : Type} (cause : Cause) : Checked α :=
  .error [⟨[], cause⟩]

def problems {α : Type} : Checked α → List Problem
  | .ok _ => []
  | .error problems => problems

def inside {α : Type} (key : Key) : Checked α → Checked α
  | .ok value => .ok value
  | .error problems =>
    .error (problems.map fun problem => { problem with place := key :: problem.place })

/-- Applies a function to a value if neither has problems, else gives the problems of both. -/
def both {α β : Type} (f : Checked (α → β)) (x : Checked α) : Checked β :=
  match f, x with
  | .ok f, .ok x => .ok (f x)
  | f, x => .error (f.problems ++ x.problems)

def all {α : Type} : List (Checked α) → Checked (List α)
  | [] => .ok []
  | x :: rest => both (both (.ok List.cons) x) (all rest)

end Checked

/-- How a key is named in a place. A truth value counts as a number, and an integer beyond 64 bits
is named by its digits. -/
def keyOf : Datum → Key
  | .text value => .name value
  | .integer value =>
    if -0x8000000000000000 ≤ value && value < 0x8000000000000000 then .index value
    else .name s!"{value}"
  | .bool value => .index (if value then 1 else 0)
  | .null => .name "None"
  | _ => .name ""

def lookup? (entries : List (Datum × Datum)) (name : String) : Option Datum :=
  (entries.find? fun entry => match entry.1 with
    | .text key => key == name
    | _ => false).map Prod.snd

def field? (entries : List (Datum × Datum)) (spellings : List String) : Option (String × Datum) :=
  spellings.findSome? fun name => (lookup? entries name).map (name, ·)

/-- The problems of the keys of a record, given those that its fields took up. -/
def keyProblems (entries : List (Datum × Datum)) (taken : List String) : List Problem :=
  entries.filterMap fun (key, _) =>
    match key with
    | .text name => if taken.contains name then none else some ⟨[.name name], .unknownKey⟩
    | key => some ⟨[keyOf key], .badKey⟩

def andProblems {α : Type} (checked : Checked α) (more : List Problem) : Checked α :=
  match checked with
  | .ok value => if more.isEmpty then .ok value else .error more
  | .error problems => .error (problems ++ more)

def entries? : Datum → Checked (List (Datum × Datum))
  | .map entries => .ok entries
  | _ => .refuse .notRecord

/-! ## Scalars -/

/-- Drops leading zeros, and the underscores among them, but keeps the last digit of the whole part.
-/
def dropZeros : List Char → Option (List Char)
  | '0' :: rest =>
    match rest.dropWhile fun c => c == '0' || c == '_' with
    | [] => some [(('0' :: rest).getLastD '0')]
    | '.' :: fraction => some ('0' :: '.' :: fraction)
    | c :: more => if c.isDigit then some (c :: more) else none
  | c :: rest => if c.isDigit || c == '-' then some (c :: rest) else none
  | [] => none

def dropFraction (cs : List Char) : List Char :=
  match cs.dropWhile (· != '.') with
  | '.' :: fraction => if fraction.all (· == '0') then cs.takeWhile (· != '.') else cs
  | _ => cs

/-- An integer spelled in a text: blanks around it, a sign, leading zeros, underscores between
digits and a fraction of zeros are allowed. -/
def integerOf? (s : String) : Option Int := do
  let cs := Text.dropRightWhile Numeral.isPadding (s.toList.dropWhile Numeral.isPadding)
  let unsigned ← match cs with
    | '+' :: '-' :: _ => none
    | '+' :: rest => some rest
    | cs => some cs
  let cs := dropFraction (← dropZeros unsigned)
  let (negative, digits) := match cs with
    | '-' :: rest => (true, rest)
    | cs => (false, cs)
  let plain := digits.filter (· != '_')
  let leadingZero := 1 < plain.length && plain.head? == some '0'
  if plain.isEmpty || leadingZero || !plain.all Char.isDigit || !Numeral.isDigitRun digits then none
  else
    let n : Int := Numeral.ofDigits (Numeral.digitValues plain)
    return if negative then -n else n

/-- An integer, given as one, as a truth value, as a decimal without a fraction or as a text. -/
def integer : Datum → Checked Int
  | .integer value => .ok value
  | .bool value => .ok (if value then 1 else 0)
  | .decimal bits =>
    match Datum.integral? bits with
    | some value => .ok value
    | none => .refuse (if Datum.isFinite bits then .fraction else .notFinite)
  | .text value =>
    match integerOf? value with
    | some value => .ok value
    | none => .refuse .badInteger
  | _ => .refuse .notInteger

def natural (datum : Datum) : Checked Nat :=
  match integer datum with
  | .ok value => if value < 0 then .refuse .negative else .ok value.toNat
  | .error problems => .error problems

def falseWords : List String :=
  ["0", "off", "f", "false", "n", "no"]

def trueWords : List String :=
  ["1", "on", "t", "true", "y", "yes"]

/-- A truth value, given as one, as zero or one, or as a word in any case. -/
def truth : Datum → Checked Bool
  | .bool value => .ok value
  | .integer value =>
    if value = 0 then .ok false else if value = 1 then .ok true else .refuse .badBool
  | .decimal bits =>
    match Datum.integral? bits with
    | some 0 => .ok false
    | some 1 => .ok true
    | _ => .refuse .notBool
  | .text value =>
    let word := String.ofList (value.toList.map Char.toLower)
    if falseWords.contains word then .ok false
    else if trueWords.contains word then .ok true
    else .refuse .badBool
  | _ => .refuse .notBool

/-! ## Sections -/

/-- The option of a style, spelled with dashes or with underscores; problems name the former. -/
def option {α : Type} (entries : List (Datum × Datum)) (name : String) (check : Datum → Checked α) :
    Checked (Option α) :=
  match field? entries [name, name.map fun c => if c == '-' then '_' else c] with
  | none => .ok none
  | some (_, value) => (Checked.both (.ok some) (check value)).inside (.name name)

def takenSpelling (entries : List (Datum × Datum)) (name : String) : List String :=
  ((field? entries [name, name.map fun c => if c == '-' then '_' else c]).map Prod.fst).toList

def optionNames : List String :=
  ["blank-lines-between-blocks", "space-around-operators", "space-after-comma",
    "space-around-arrow", "trim-trailing-whitespace", "insert-final-newline"]

def style (datum : Datum) : Checked Layout.Overrides := do
  let entries ← entries? datum
  let truthOf (name : String) := option entries name truth
  let checked :=
    Checked.both (Checked.both (Checked.both (Checked.both (Checked.both (Checked.both
      (.ok Layout.Overrides.mk)
      (option entries "blank-lines-between-blocks" natural))
      (truthOf "space-around-operators"))
      (truthOf "space-after-comma"))
      (truthOf "space-around-arrow"))
      (truthOf "trim-trailing-whitespace"))
      (truthOf "insert-final-newline")
  andProblems checked (keyProblems entries (optionNames.flatMap (takenSpelling entries)))

def setting : Datum → Checked Lint.Setting
  | .text value =>
    match Lint.Setting.ofName? value with
    | some setting => .ok setting
    | none => .refuse .notSetting
  | _ => .refuse .notSetting

def text : Datum → Checked String
  | .text value => .ok value
  | _ => .refuse .notText

def rules : Datum → Checked Lint.Settings
  | .map entries =>
    Checked.all <| entries.map fun (key, value) =>
      let place := keyOf key
      let name := ((text key).inside (.name "[key]")).inside place
      Checked.both (Checked.both (.ok Prod.mk) name) ((setting value).inside place)
  | _ => .refuse .notMap

def ignore : Datum → Checked (List String)
  | .list items =>
    Checked.all <| items.zipIdx.map fun (item, i) => (text item).inside (.index i)
  | _ => .refuse .notList

def sectionOf {α : Type} (entries : List (Datum × Datum)) (name : String) (fallback : α)
    (check : Datum → Checked α) : Checked α :=
  match lookup? entries name with
  | none => .ok fallback
  | some value => (check value).inside (.name name)

def sectionNames : List String :=
  ["rules", "format", "ignore"]

def optionalStyle : Datum → Checked (Option Layout.Overrides)
  | .null => .ok none
  | datum => Checked.both (.ok some) (style datum)

def user (datum : Datum) : Checked User := do
  let entries ← entries? datum
  let checked :=
    Checked.both (Checked.both (Checked.both (.ok User.mk)
      (sectionOf entries "rules" [] rules))
      (sectionOf entries "format" none optionalStyle))
      (sectionOf entries "ignore" [] ignore)
  andProblems checked (keyProblems entries sectionNames)

def configuration (datum : Datum) : Checked Configuration := do
  let entries ← entries? datum
  let complete (datum : Datum) : Checked Layout.Style :=
    Checked.both (.ok (Layout.Style.overlay {})) (style datum)
  let checked :=
    Checked.both (Checked.both (Checked.both (.ok Configuration.mk)
      (sectionOf entries "rules" [] rules))
      (sectionOf entries "format" {} complete))
      (sectionOf entries "ignore" [] ignore)
  andProblems checked (keyProblems entries sectionNames)

end GuidedTrack.Configuration.Schema
