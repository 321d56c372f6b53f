import GuidedTrack.Disk
import GuidedTrack.Libraries

/-! # Configuration files

A configuration file is searched from a file or directory upwards, read, checked and laid over the
defaults.
-/

namespace GuidedTrack.Configuration

def fileNames : List String :=
  [".gtlint.yaml", ".gtlint.yml"]

inductive FileError where
  | unreadable (path : Path) (refusal : Disk.Refusal)
  | undecodable (error : Text.Utf8.Error)
  | malformed (path : Path) (text : String)
  | notMapping (path : Path)
  | invalid (path : Path) (text : String)
  | unforeseen (text : String)

namespace FileError

def message : FileError → String
  | unreadable path refusal =>
    s!"Cannot read config file '{path.toString}': {refusal.message path}"
  | undecodable error => error.message
  | malformed path text => s!"Invalid YAML in config file '{path.toString}': {text}"
  | notMapping path =>
    s!"Invalid config file '{path.toString}': expected a mapping at the top level"
  | invalid path text => s!"Invalid config file '{path.toString}': {text}"
  | unforeseen text => text

/-- The error for what a library refuses, given the one for what it announces. -/
def ofRejection (announced : String → FileError) : Libraries.Rejection → FileError
  | .announced text => announced text
  | .unforeseen text => .unforeseen text

end FileError

/-- A place and all directories above it, the nearest first. -/
def upwards (place : Place) : List Place :=
  (List.range (place.length + 1)).reverse.map place.take

/-- The directory that a search from a place starts in: the place itself, or the one that holds it.
-/
def searchStart (disk : Disk) (place : Place) : Place :=
  match disk.entry? place with
  | some .directory => place
  | _ => place.parent

def find? (disk : Disk) (start : Path) : Option Place :=
  let directories := upwards (searchStart disk (start.resolve disk.here))
  let candidates := directories.flatMap fun directory =>
    fileNames.map fun name => directory ++ [name]
  candidates.find? fun place => (disk.file? place).isSome

/-- The file that the configuration for a path comes from: the path itself if it is one. -/
def source? (disk : Disk) (start : Path) : Option Path :=
  if disk.isFile start && fileNames.contains start.name then some start
  else (find? disk start).map Path.ofPlace

section

variable (libraries : Libraries)

def validated (path : Path) (value : libraries.Mapping) : Except FileError User :=
  (libraries.validate value).mapError (.ofRejection (.invalid path))

/-- What the user gives in a file. An empty document counts as an empty mapping. -/
def loadFile (disk : Disk) (path : Path) : Except FileError User := do
  let bytes ← (disk.read path).mapError (.unreadable path)
  let text ← (Disk.textOf bytes).mapError .undecodable
  match ← (libraries.load text).mapError (.ofRejection (.malformed path)) with
  | .nothing => validated libraries path libraries.empty
  | .mapping value => validated libraries path value
  | .other => throw (.notMapping path)

def load (disk : Disk) (start : Path) : Except FileError (Configuration × Option Path) :=
  match source? disk start with
  | none => .ok (standard, none)
  | some path => (loadFile libraries disk path).map fun user => (merge user, some path)

end

end GuidedTrack.Configuration
