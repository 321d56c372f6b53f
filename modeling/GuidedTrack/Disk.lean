import GuidedTrack.Path
import GuidedTrack.Text.Utf8

/-! # Disks

A tree of files and directories, seen from a working directory. A file implies the directories above
it.
-/

namespace GuidedTrack

/-- The files and the directories without any. -/
structure Disk where
  files : List (Place × List UInt8)
  directories : List Place := []
  here : Place := []
  deriving Repr

namespace Disk

inductive Refusal where
  | missing
  | notDirectory
  | isDirectory
  deriving DecidableEq, Repr

namespace Refusal

def reason : Refusal → String
  | missing => "[Errno 2] No such file or directory"
  | notDirectory => "[Errno 20] Not a directory"
  | isDirectory => "[Errno 21] Is a directory"

def message (refusal : Refusal) (path : Path) : String :=
  s!"{refusal.reason}: {Text.quoted path.toString}"

end Refusal

inductive Entry where
  | file (bytes : List UInt8)
  | directory

def file? (disk : Disk) (place : Place) : Option (List UInt8) :=
  disk.files.lookup place

/-- Whether a directory is at a place: one that is listed, or that something below implies. -/
def hasDirectory (disk : Disk) (place : Place) : Bool :=
  let known := disk.here :: disk.directories ++ disk.files.map fun entry => entry.1.parent
  known.any fun directory => place.isPrefixOf directory

def entry? (disk : Disk) (place : Place) : Option Entry :=
  match disk.file? place with
  | some bytes => some (.file bytes)
  | none => if disk.hasDirectory place then some .directory else none

/-- Walks along parts of a path. Every place that is left must be a directory. -/
def walk (disk : Disk) (place : Place) : List String → Except Refusal Place
  | [] => .ok place
  | part :: rest =>
    match disk.entry? place with
    | some .directory => disk.walk (place.step part) rest
    | some (.file _) => .error .notDirectory
    | none => .error .missing

def lookup (disk : Disk) (path : Path) : Except Refusal (Place × Entry) := do
  let place ← disk.walk (path.start disk.here) path.parts
  match disk.entry? place with
  | some entry => return (place, entry)
  | none => throw .missing

def isFile (disk : Disk) (path : Path) : Bool :=
  match disk.lookup path with
  | .ok (_, .file _) => true
  | _ => false

def isDirectory (disk : Disk) (path : Path) : Bool :=
  match disk.lookup path with
  | .ok (_, .directory) => true
  | _ => false

def read (disk : Disk) (path : Path) : Except Refusal (List UInt8) := do
  match ← disk.lookup path with
  | (_, .file bytes) => return bytes
  | (_, .directory) => throw .isDirectory

def write (disk : Disk) (place : Place) (bytes : List UInt8) : Disk :=
  { disk with
    files := disk.files.map fun entry => if entry.1 == place then (place, bytes) else entry }

def below (disk : Disk) (place : Place) : List (List String) :=
  disk.files.filterMap fun entry => entry.1.below? place

def unifyBreaks : List Char → List Char
  | [] => []
  | '\r' :: '\n' :: rest => '\n' :: unifyBreaks rest
  | '\r' :: rest => '\n' :: unifyBreaks rest
  | c :: rest => c :: unifyBreaks rest

def textOf (bytes : List UInt8) : Except Text.Utf8.Error String :=
  (Text.Utf8.decode bytes).map fun text => String.ofList (unifyBreaks text.toList)

end Disk
end GuidedTrack
