/-! # Places in a source text

Lines and columns count from one, offsets from zero, and all three count code points. A fragment of
a source may be read on its own with any position as its origin, so positions are integers.
-/

namespace GuidedTrack

structure Position where
  line : Int
  column : Int
  offset : Int
  deriving DecidableEq, Repr, Inhabited

namespace Position

def origin : Position := ⟨1, 1, 0⟩

def advance (p : Position) (n : Nat) : Position :=
  ⟨p.line, p.column + n, p.offset + n⟩

end Position

/-- The stretch of source from `start` up to, and without, `stop`. -/
structure Span where
  start : Position
  stop : Position
  deriving DecidableEq, Repr, Inhabited

namespace Source

/-- One line: its characters, and the line break that ends it (none at the end of the source). -/
structure Line where
  content : List Char
  ending : List Char
  deriving DecidableEq, Repr

/-- Cuts a source after each line break: a line feed, a carriage return, or one followed by the
other. -/
def lines : List Char → List Line
  | [] => []
  | '\r' :: '\n' :: rest => ⟨[], ['\r', '\n']⟩ :: lines rest
  | '\r' :: rest => ⟨[], ['\r']⟩ :: lines rest
  | '\n' :: rest => ⟨[], ['\n']⟩ :: lines rest
  | c :: rest =>
    match lines rest with
    | [] => [⟨[c], []⟩]
    | line :: more => { line with content := c :: line.content } :: more

namespace Line

def length (line : Line) : Nat :=
  line.content.length + line.ending.length

/-- Where the text after a line starts, when the line itself starts at `p`. -/
def after (line : Line) (p : Position) : Position :=
  if line.ending.isEmpty then p.advance line.content.length
  else ⟨p.line + 1, 1, p.offset + line.length⟩

end Line
end Source
end GuidedTrack
