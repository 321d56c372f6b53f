import GuidedTrack.Command
import GuidedTrack.Configuration.File
import GuidedTrack.Ignore
import GuidedTrack.Layout
import GuidedTrack.Listing.Json

/-! # Running commands

A command turns a disk into a disk and prints lines. It works on the files that are named, and on
the source files below directories that are named unless a pattern leaves them out.
-/

namespace GuidedTrack.Run

variable (libraries : Libraries)

/-- Why a run ends before its work is done. The last two are not foreseen: nothing is printed. -/
inductive Failure where
  | configuration (error : Configuration.FileError)
  | missingPath (path : String)
  | unreadable (action : String) (path : Path) (refusal : Disk.Refusal)
  | undecodable (error : Text.Utf8.Error)
  | numeral (error : Numeral.Error)

namespace Failure

def message : Failure → String
  | configuration error => s!"Error: {error.message}"
  | missingPath path => s!"Error: path '{path}' does not exist."
  | unreadable action path refusal =>
    s!"Error: cannot {action} '{path.toString}': {refusal.message path}"
  | undecodable error => error.message
  | numeral error => error.message

def isForeseen : Failure → Bool
  | configuration (.undecodable _) | configuration (.unforeseen _) => false
  | undecodable _ | numeral _ => false
  | _ => true

end Failure

inductive Ending where
  | exit (code : Nat)
  | crash (failure : Failure)

/-- What a run leaves behind: the disk, the lines that it prints, the lines about errors, and how it
ends. -/
structure Outcome where
  disk : Disk
  output : List String := []
  errors : List String := []
  ending : Ending

namespace Outcome

def ofFailure (disk : Disk) (failure : Failure) : Outcome :=
  if failure.isForeseen then { disk, errors := [failure.message], ending := .exit 1 }
  else { disk, ending := .crash failure }

end Outcome

/-! ## Files -/

def isSourceName (name : String) : Bool :=
  ['.', 'g', 't'].isSuffixOf name.toList

def configurationFor (disk : Disk) (target : Command.Target) :
    Except Configuration.FileError (Configuration × Place) := do
  match target.config with
  | some file =>
    let path := Path.ofString file
    let user ← Configuration.loadFile libraries disk path
    return (.merge user, (path.resolve disk.here).parent)
  | none =>
    let start := Path.ofString (target.paths.headD ".")
    match ← Configuration.load libraries disk start with
    | (configuration, some found) => return (configuration, found.parent.resolve disk.here)
    | (configuration, none) =>
      return (configuration, Configuration.searchStart disk (start.resolve disk.here))

def textBefore (a b : String) : Bool :=
  a.toList.lex b.toList fun c d => c.toNat < d.toNat

/-- The source files below a directory, in the order of the names on the way to them. -/
def sourceFiles (disk : Disk) (path : Path) (place : Place) : List Path :=
  let ways := (disk.below place).filter fun way => isSourceName (way.getLastD "")
  (ways.mergeSort fun a b => !b.lex a textBefore).map path.down

def filesAt (disk : Disk) (ignore : List String) (root : Place) (raw : String) :
    Except Failure (List Path) :=
  let path := Path.ofString raw
  match disk.lookup path with
  | .error _ => .error (.missingPath raw)
  | .ok (_, .file _) => .ok [path]
  | .ok (place, .directory) =>
    .ok <| (sourceFiles disk path place).filter fun file =>
      !Ignore.covers ignore file root disk.here

def collect (disk : Disk) (ignore : List String) (root : Place) (paths : List String) :
    Except Failure (List Path) := do
  let files ← paths.mapM (filesAt disk ignore root)
  return files.flatten.eraseDups

def prepare (disk : Disk) (target : Command.Target) :
    Except Failure (Configuration × List Path) := do
  let (configuration, root) ← (configurationFor libraries disk target).mapError .configuration
  return (configuration, ← collect disk configuration.ignore root target.paths)

def textAt (disk : Disk) (action : String) (path : Path) : Except Failure (Place × String) := do
  match ← (disk.lookup path).mapError (.unreadable action path) with
  | (place, .file bytes) => return (place, ← (Disk.textOf bytes).mapError .undecodable)
  | (_, .directory) => throw (.unreadable action path .isDirectory)

def put (disk : Disk) (place : Place) (old new : String) : Disk :=
  if new == old then disk else disk.write place (Text.Utf8.encode new)

/-! ## Linting -/

/-- The place of a file, its text, and the text after fixing, if that is asked for. -/
def fixedText (settings : Lint.Settings) (fix : Bool) (disk : Disk) (path : Path) :
    Except Failure (Place × String × String) := do
  let (place, source) ← textAt disk "read" path
  let text ← if fix then (Lint.fixUntilStable settings source).mapError .numeral else pure source
  return (place, source, text)

/-- Fixes one file, if that is asked for, and lints what is then on the disk. -/
def lintFile (settings : Lint.Settings) (fix : Bool) (disk : Disk) (path : Path) :
    Disk × Except Failure Listing.Entry :=
  match fixedText settings fix disk path with
  | .error failure => (disk, .error failure)
  | .ok (place, source, text) =>
    (put disk place source text,
      (Lint.messages settings text).mapError .numeral |>.map (⟨path.toString, ·⟩))

/-- Lints files one after the other, up to the first that fails. -/
def lintFiles (settings : Lint.Settings) (fix : Bool) (disk : Disk) :
    List Path → Disk × Except Failure Listing
  | [] => (disk, .ok [])
  | path :: rest =>
    match lintFile settings fix disk path with
    | (disk, .error failure) => (disk, .error failure)
    | (disk, .ok entry) =>
      let (disk, listing) := lintFiles settings fix disk rest
      (disk, listing.map (entry :: ·))

def listingLines (form : Command.Form) (listing : Listing) : List String :=
  match form with
  | .stylish => listing.stylish libraries.paint
  | .json => Listing.Json.listing listing

def lint (fix : Bool) (form : Command.Form) (target : Command.Target) (disk : Disk) :
    Outcome :=
  match prepare libraries disk target with
  | .error failure => .ofFailure disk failure
  | .ok (configuration, files) =>
    match lintFiles configuration.rules fix disk files with
    | (disk, .error failure) => .ofFailure disk failure
    | (disk, .ok listing) =>
      { disk, output := listingLines libraries form listing
        ending := .exit (if listing.hasErrors then 1 else 0) }

/-! ## Formatting -/

/-- Formats one file, or only looks whether it would change: the disk, and whether it does. -/
def formatFile (style : Layout.Style) (check : Bool) (disk : Disk) (path : Path) :
    Except Failure (Disk × Bool) := do
  let (place, source) ← textAt disk "format" path
  let text := Layout.format style source
  return (if check then disk else put disk place source text, text != source)

/-- Formats files one after the other, up to the first that fails: the disk, and those that change.
-/
def formatFiles (style : Layout.Style) (check : Bool) (disk : Disk) :
    List Path → Disk × Except Failure (List Path)
  | [] => (disk, .ok [])
  | path :: rest =>
    match formatFile style check disk path with
    | .error failure => (disk, .error failure)
    | .ok (disk, changes) =>
      let (disk, changed) := formatFiles style check disk rest
      (disk, changed.map fun files => if changes then path :: files else files)

def checkLines (total : Nat) (changed : List Path) : List String :=
  if changed.isEmpty then [s!"All {total} file(s) are formatted."]
  else
    changed.map (fun path => libraries.paint [.yellow] s!"Would reformat {path.toString}") ++
      [s!"{changed.length} file(s) would be reformatted."]

/-- Formats files. In a check, the code is one if a file would change. -/
def format (check : Bool) (target : Command.Target) (disk : Disk) : Outcome :=
  match prepare libraries disk target with
  | .error failure => .ofFailure disk failure
  | .ok (configuration, files) =>
    match formatFiles configuration.style check disk files with
    | (disk, .error failure) => .ofFailure disk failure
    | (disk, .ok changed) =>
      if check then
        { disk, output := checkLines libraries files.length changed
          ending := .exit (if changed.isEmpty then 0 else 1) }
      else
        { disk, output := changed.map fun path => s!"Formatted {path.toString}"
          ending := .exit 0 }

/-! ## Command lines -/

def command : Command → Disk → Outcome
  | .lint fix form target => lint libraries fix form target
  | .format check target => format libraries check target

def arguments (arguments : List String) (disk : Disk) : Outcome :=
  match Command.ofArguments arguments with
  | .ok asked => command libraries asked disk
  | .error (.help tool) => { disk, output := tool.helpLines, ending := .exit 0 }
  | .error (.misuse tool cause) =>
    { disk, errors := tool.usage ++ [s!"{tool.name}: error: {cause.message}"]
      ending := .exit 2 }

end GuidedTrack.Run
