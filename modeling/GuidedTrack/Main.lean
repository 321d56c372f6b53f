import GuidedTrack.Libraries.BuiltIn
import GuidedTrack.Run

/-! # The program

Takes a picture of the part of the disk that a command line can reach, runs it there, and carries
the changes out.
-/

namespace GuidedTrack.Main

def pathText (place : Place) : String :=
  (Path.ofPlace place).toString

def matters (name : String) : Bool :=
  Run.isSourceName name || Configuration.fileNames.contains name

def addFile (disk : Disk) (place : Place) : IO Disk := do
  if (disk.file? place).isSome then return disk
  let bytes ← IO.FS.readBinFile (pathText place)
  return { disk with files := disk.files ++ [(place, bytes.toList)] }

/-- Adds to a picture what stands at a place: a file, or a directory alone. -/
def addEntry (disk : Disk) (place : Place) : IO Disk := do
  let path := (← IO.currentDir) / pathText place
  if ← path.isDir then return { disk with directories := disk.directories ++ [place] }
  else if ← path.pathExists then addFile disk place
  else return disk

partial def addTree (disk : Disk) (place : Place) : IO Disk := do
  let path := (← IO.currentDir) / pathText place
  if !(← path.isDir) then return disk
  let mut disk := disk
  for entry in ← path.readDir do
    let inner := place ++ [entry.fileName]
    if ← entry.path.isDir then disk ← addTree disk inner
    else if matters entry.fileName then disk ← addFile disk inner
  return disk

/-- Adds to a picture all that a path can lead to: the places on the way, what is below it, and the
configuration files that a search from it meets. -/
def addPath (disk : Disk) (path : Path) : IO Disk := do
  let mut disk := disk
  let mut place := path.start disk.here
  for part in path.parts do
    place := place.step part
    disk ← addEntry disk place
  for directory in Configuration.upwards place do
    for name in Configuration.fileNames do
      disk ← addEntry disk (directory ++ [name])
  addTree disk place

def picture (arguments : List String) : IO Disk := do
  let here := (Path.ofString (← IO.currentDir).toString).parts
  let mut disk : Disk := { files := [], here }
  match Command.ofArguments arguments with
  | .error _ => return disk
  | .ok (.lint _ _ target) | .ok (.format _ target) =>
    for path in target.config.toList ++ target.paths do
      disk ← addPath disk (Path.ofString path)
    return disk

def carryOut (before after : Disk) : IO Unit := do
  for (place, bytes) in after.files do
    if before.file? place != some bytes then
      IO.FS.writeBinFile (pathText place) ⟨bytes.toArray⟩

end GuidedTrack.Main

open GuidedTrack in
def main (arguments : List String) : IO UInt32 := do
  let output ← IO.getStdout
  let disk ← Main.picture arguments
  let outcome := Run.arguments (.builtIn (← output.isTty)) arguments disk
  Main.carryOut disk outcome.disk
  for line in outcome.output do
    output.putStrLn line
  for line in outcome.errors do
    IO.eprintln line
  match outcome.ending with
  | .exit code => return code.toUInt32
  | .crash failure => do
      IO.eprintln failure.message
      return 1
