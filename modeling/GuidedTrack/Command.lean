import GuidedTrack.Command.Arguments

/-! # The command line

What the user asks for: a command with its options, the help, or something that cannot be
understood.
-/

namespace GuidedTrack

inductive Command.Form where
  | stylish
  | json
  deriving DecidableEq, Repr

/-- What all commands are given: a configuration file, and files and directories. -/
structure Command.Target where
  config : Option String
  paths : List String
  deriving DecidableEq, Repr

inductive Command where
  | lint (fix : Bool) (form : Command.Form) (target : Command.Target)
  | format (check : Bool) (target : Command.Target)
  deriving DecidableEq, Repr

namespace Command

/-- The paths of a command: the current directory if there are none. A divider is dropped. -/
def pathsOf (given : Given) : List String :=
  match given.operands.erase "--" with
  | [] => ["."]
  | paths => paths

def targetOf (given : Given) : Target :=
  ⟨given.value? config, pathsOf given⟩

def formOf (given : Given) : Form :=
  if given.value? listing = some "json" then .json else .stylish

def tools : List (String × Tool) :=
  [("lint", .lint), ("format", .format)]

/-- Reads the arguments of a command: the command, and what it does not know. -/
def ofGiven (name : String) (arguments : List String) : Except Halt (Command × List String) :=
  match name, tools.lookup name with
  | _, some .lint => do
      let given ← givenTo .lint arguments
      return (.lint (given.has fix) (formOf given) (targetOf given), given.extras)
  | _, some .format => do
      let given ← givenTo .format arguments
      return (.format (given.has check) (targetOf given), given.extras)
  | name, _ => .error (.misuse .program (.badChoice "COMMAND" name (tools.map Prod.fst)))

/-- Looks for the command among sorted arguments; it takes all that follows it. -/
def search (extras : List String) : List Argument → Except Halt (Option Command × List String)
  | [] => .ok (none, extras)
  | argument :: rest =>
    match argument.kind with
    | .unknown => search (extras ++ [argument.text]) rest
    | .option switch _ attached => do
        refuseValue .program switch attached
        throw (.help .program)
    | .divider =>
      if rest.isEmpty then .ok (none, extras ++ [argument.text])
      else (ofGiven argument.text (rest.map Argument.text)).map fun (command, more) =>
        (some command, extras ++ more)
    | .plain =>
      (ofGiven argument.text (rest.map Argument.text)).map fun (command, more) =>
        (some command, extras ++ more)

/-- Reads a command line. Without a command it asks for help. -/
def ofArguments (arguments : List String) : Except Halt Command := do
  match ← search [] (← sortArguments .program arguments) with
  | (some command, []) => return command
  | (none, []) => throw (.help .program)
  | (_, extras) => throw (.misuse .program (.unrecognized extras))

end Command
end GuidedTrack
