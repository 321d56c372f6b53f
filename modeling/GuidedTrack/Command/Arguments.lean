import GuidedTrack.Command.Usage
import GuidedTrack.Text.Digit
import GuidedTrack.Text.Quoted

/-! # Arguments

Arguments are first sorted into options and others, and then taken up from left to right. A long
option may be cut short as long as it is clear which one is meant, and its value may follow an
equals sign.
-/

namespace GuidedTrack.Command

inductive Misuse where
  | ambiguous (argument : String) (candidates : List String)
  | missingValue (option : String)
  | unwantedValue (option value : String)
  | badChoice (option value : String) (choices : List String)
  | unrecognized (arguments : List String)
  deriving DecidableEq, Repr

namespace Misuse

def message : Misuse → String
  | ambiguous argument candidates =>
    s!"ambiguous option: {argument} could match " ++ ", ".intercalate candidates
  | missingValue option => s!"argument {option}: expected one argument"
  | unwantedValue option value =>
    s!"argument {option}: ignored explicit argument {Text.quoted value}"
  | badChoice option value choices =>
    s!"argument {option}: invalid choice: {Text.quoted value} (choose from " ++
      ", ".intercalate (choices.map Text.quoted) ++ ")"
  | unrecognized arguments => "unrecognized arguments: " ++ " ".intercalate arguments

end Misuse

inductive Halt where
  | help (tool : Tool)
  | misuse (tool : Tool) (cause : Misuse)
  deriving DecidableEq, Repr

/-- A value that is written together with its option, after an equals sign or right behind a letter.
-/
inductive Attached where
  | afterEquals (value : String)
  | behindLetter (value : String)
  deriving DecidableEq, Repr

inductive Kind where
  | plain
  | divider
  | option (switch : Switch) (spelling : String) (attached : Option Attached)
  | unknown
  deriving DecidableEq, Repr

structure Argument where
  text : String
  kind : Kind
  deriving DecidableEq, Repr

def spellings (switches : List Switch) : List (String × Switch) :=
  switches.flatMap fun switch => switch.spellings.map (·, switch)

def startsWith (text beginning : String) : Bool :=
  beginning.toList.isPrefixOf text.toList

def splitEquals (argument : String) : String × Option String :=
  let cs := argument.toList
  match cs.dropWhile (· != '=') with
  | _ :: value => (String.ofList (cs.takeWhile (· != '=')), some (String.ofList value))
  | [] => (argument, none)

/-- The options that an argument with a dash may mean, with the spellings. -/
def candidates (switches : List Switch) (argument : String) : List (String × Kind) :=
  let known := spellings switches
  let (name, value) := splitEquals argument
  if startsWith argument "--" then
    known.filterMap fun (spelling, switch) =>
      if startsWith spelling name then
        some (spelling, .option switch spelling (value.map .afterEquals))
      else none
  else
    let letter := String.ofList (argument.toList.take 2)
    let rest := String.ofList (argument.toList.drop 2)
    known.filterMap fun (spelling, switch) =>
      if spelling == letter then
        some (spelling, .option switch spelling (some (.behindLetter rest)))
      else none

def isNegativeNumber (argument : String) : Bool :=
  let isDecimal (c : Char) : Bool := (Text.decimalValue? c).isSome
  let cs := argument.toList
  let body := if cs.getLast? == some '\n' then cs.dropLast else cs
  match body with
  | '-' :: digits =>
    match digits.dropWhile isDecimal with
    | [] => !digits.isEmpty
    | '.' :: fraction => !fraction.isEmpty && fraction.all isDecimal
    | _ => false
  | _ => false

def kindOf (tool : Tool) (argument : String) : Except Halt Kind :=
  let known := spellings tool.switches
  let (name, value) := splitEquals argument
  if !startsWith argument "-" || argument == "-" then .ok .plain
  else match known.lookup argument, value, known.lookup name with
    | some switch, _, _ => .ok (.option switch argument none)
    | none, some value, some switch => .ok (.option switch name (some (.afterEquals value)))
    | _, _, _ =>
      match candidates tool.switches argument with
      | [(_, kind)] => .ok kind
      | [] =>
        if isNegativeNumber argument || argument.toList.contains ' ' then .ok .plain
        else .ok .unknown
      | several => .error (.misuse tool (.ambiguous argument (several.map Prod.fst)))

/-- Sorts arguments into kinds. After a divider there are no options. -/
def sortArguments (tool : Tool) : List String → Except Halt (List Argument)
  | [] => .ok []
  | argument :: rest => do
      if argument == "--" then
        return ⟨argument, .divider⟩ :: rest.map (⟨·, .plain⟩)
      let kind ← kindOf tool argument
      return ⟨argument, kind⟩ :: (← sortArguments tool rest)

/-- What a tool is given: options with their values, the first row of other arguments, whether that
row is over, and what it does not know. -/
structure Given where
  options : List (Switch × String) := []
  operands : List String := []
  rowOver : Bool := false
  extras : List String := []

namespace Given

def value? (given : Given) (switch : Switch) : Option String :=
  (given.options.reverse.find? fun option => option.1 == switch).map Prod.snd

def has (given : Given) (switch : Switch) : Bool :=
  (given.value? switch).isSome

def endRow (given : Given) : Given :=
  { given with rowOver := given.rowOver || !given.operands.isEmpty }

def addOption (given : Given) (switch : Switch) (value : String) : Given :=
  { given.endRow with options := given.options ++ [(switch, value)] }

def addExtra (given : Given) (argument : String) : Given :=
  { given with extras := given.extras ++ [argument] }

/-- Adds an argument that is no option. It belongs to the first row of such arguments, or is not
known. -/
def addOperand (given : Given) (argument : String) : Given :=
  if given.rowOver then given.addExtra argument
  else { given with operands := given.operands ++ [argument] }

end Given

/-- Takes up letters behind a letter that is an option without a value. The first option is the
help, so all that can go wrong is a value where there may be none. -/
def checkLetters (tool : Tool) (switch : Switch) : List Char → Except Halt Unit
  | [] => .ok ()
  | c :: rest =>
    let value := String.ofList (c :: rest)
    if c == '-' then .error (.misuse tool (.unwantedValue switch.name value))
    else match (spellings tool.switches).lookup (String.ofList ['-', c]), rest with
      | some next, '=' :: value =>
        .error (.misuse tool (.unwantedValue next.name (String.ofList value)))
      | some next, rest => checkLetters tool next rest
      | none, _ => .ok ()

def refuseValue (tool : Tool) (switch : Switch) : Option Attached → Except Halt Unit
  | none => .ok ()
  | some (.afterEquals value) => .error (.misuse tool (.unwantedValue switch.name value))
  | some (.behindLetter value) => checkLetters tool switch value.toList

def checkChoice (tool : Tool) (switch : Switch) (choices : List String) (value : String) :
    Except Halt Unit :=
  if choices.isEmpty || choices.contains value then .ok ()
  else .error (.misuse tool (.badChoice switch.name value choices))

def takeUp (tool : Tool) (given : Given) : List Argument → Except Halt Given
  | [] => .ok given
  | argument :: rest =>
    match argument.kind with
    | .plain | .divider => takeUp tool (given.addOperand argument.text) rest
    | .unknown => takeUp tool (given.endRow.addExtra argument.text) rest
    | .option switch _ attached =>
      match switch.effect with
      | .help => do
          refuseValue tool switch attached
          throw (.help tool)
      | .flag => do
          refuseValue tool switch attached
          takeUp tool (given.addOption switch "") rest
      | .operand choices =>
        match attached with
        | some (.afterEquals value) | some (.behindLetter value) => do
            checkChoice tool switch choices value
            takeUp tool (given.addOption switch value) rest
        | none =>
          match rest with
          | ⟨value, .plain⟩ :: rest => do
              checkChoice tool switch choices value
              takeUp tool (given.addOption switch value) rest
          | _ => .error (.misuse tool (.missingValue switch.name))

def givenTo (tool : Tool) (arguments : List String) : Except Halt Given := do
  takeUp tool {} (← sortArguments tool arguments)

end GuidedTrack.Command
