/-! # Paths

A path is kept in a plain form: no empty parts and no single dots. Double dots stay, because only a
lookup knows where they lead.
-/

namespace GuidedTrack

/-- Where a path starts. Exactly two leading slashes are kept apart from one. -/
inductive Path.Anchor where
  | relative
  | root
  | doubleRoot
  deriving DecidableEq, Repr

structure Path where
  anchor : Path.Anchor
  parts : List String
  deriving DecidableEq, Repr

/-- A place in a tree of directories: its names from the root, none of them dots. -/
abbrev Place := List String

namespace Place

def parent (place : Place) : Place :=
  place.dropLast

def step (place : Place) (part : String) : Place :=
  if part == ".." then place.dropLast else place ++ [part]

def below? (place root : Place) : Option (List String) :=
  if root.isPrefixOf place then some (place.drop root.length) else none

end Place

namespace Path

def splitSlashes : List Char → List (List Char)
  | [] => [[]]
  | c :: rest =>
    match splitSlashes rest with
    | [] => [[c]]
    | part :: more => if c == '/' then [] :: part :: more else (c :: part) :: more

def joinSlashes (parts : List String) : String :=
  "/".intercalate parts

def ofString (s : String) : Path where
  anchor :=
    match (s.toList.takeWhile (· == '/')).length with
    | 0 => .relative
    | 2 => .doubleRoot
    | _ => .root
  parts := ((splitSlashes s.toList).map String.ofList).filter fun part => part != "" && part != "."

def ofPlace (place : Place) : Path :=
  ⟨.root, place⟩

def toString (path : Path) : String :=
  match path.anchor, path.parts with
  | .relative, [] => "."
  | .relative, parts => joinSlashes parts
  | .root, parts => "/" ++ joinSlashes parts
  | .doubleRoot, parts => "//" ++ joinSlashes parts

def name (path : Path) : String :=
  path.parts.getLastD ""

def parent (path : Path) : Path :=
  { path with parts := path.parts.dropLast }

def down (path : Path) (parts : List String) : Path :=
  { path with parts := path.parts ++ parts }

def start (path : Path) (here : Place) : Place :=
  if path.anchor = .relative then here else []

/-- The place of a path, seen from a directory. Double dots go up without a look at the disk. -/
def resolve (path : Path) (here : Place) : Place :=
  path.parts.foldl Place.step (path.start here)

end Path
end GuidedTrack
