/-! # Glob patterns

A pattern matches a whole text. A star stands for any run of characters and a question mark for any
single one, a slash and a line break included; brackets hold a set of characters.
-/

namespace GuidedTrack

inductive Glob.Piece where
  | star
  | anyChar
  | oneOf (negated : Bool) (ranges : List (Char × Char))
  | literal (c : Char)
  deriving DecidableEq, Repr

abbrev Glob := List Glob.Piece

namespace Glob

/-- The ranges of a set: `a-z` is a range, every other character stands for itself. -/
def rangesOf : List Char → List (Char × Char)
  | low :: '-' :: high :: rest => (low, high) :: rangesOf rest
  | c :: rest => (c, c) :: rangesOf rest
  | [] => []

/-- Splits a set from what follows its closing bracket. A bracket that comes first belongs to the
set. -/
def splitSet? (cs : List Char) : Option (List Char × List Char) :=
  let (first, more) := match cs with
    | ']' :: rest => ([']'], rest)
    | cs => ([], cs)
  match more.dropWhile (· != ']') with
  | _ :: rest => some (first ++ more.takeWhile (· != ']'), rest)
  | [] => none

theorem splitSet?_length {cs body rest : List Char} (h : splitSet? cs = some (body, rest)) :
    rest.length < cs.length := by
  have shorter (l : List Char) : (l.dropWhile (· != ']')).length ≤ l.length :=
    (List.dropWhile_sublist _).length_le
  unfold splitSet? at h
  split at h
  rename_i first more hsplit
  have hmore : more.length ≤ cs.length := by
    split at hsplit <;> simp_all
  have := shorter more
  split at h
  · rename_i heq
    simp_all
    omega
  · simp at h

/-- Reads a set after its opening bracket: the piece, and what follows it. -/
def setOf? : List Char → Option (Piece × List Char)
  | '!' :: rest => (splitSet? rest).map fun (body, rest) => (.oneOf true (rangesOf body), rest)
  | cs => (splitSet? cs).map fun (body, rest) => (.oneOf false (rangesOf body), rest)

theorem setOf?_length {cs rest : List Char} {piece : Piece} (h : setOf? cs = some (piece, rest)) :
    rest.length < cs.length := by
  unfold setOf? at h
  split at h <;>
    · obtain ⟨⟨body, tail⟩, hsplit, heq⟩ := Option.map_eq_some_iff.mp h
      have := splitSet?_length hsplit
      simp_all
      try omega

/-- Reads a pattern. A bracket that is not closed stands for itself. -/
def ofChars : List Char → Glob
  | [] => []
  | '*' :: rest => .star :: ofChars rest
  | '?' :: rest => .anyChar :: ofChars rest
  | '[' :: rest =>
    match h : setOf? rest with
    | some (piece, tail) =>
      have := setOf?_length h
      piece :: ofChars tail
    | none => .literal '[' :: ofChars rest
  | c :: rest => .literal c :: ofChars rest
termination_by cs => cs.length
decreasing_by all_goals simp <;> omega

def ofString (s : String) : Glob :=
  ofChars s.toList

namespace Piece

def accepts : Piece → Char → Bool
  | star, _ => false
  | anyChar, _ => true
  | oneOf negated ranges, c => ranges.any (fun (low, high) => low ≤ c && c ≤ high) != negated
  | literal d, c => c == d

end Piece

/-- Whether `p` holds of some text that is left after a run of characters is dropped. -/
def anyTail (p : List Char → Bool) : List Char → Bool
  | [] => p []
  | c :: rest => p (c :: rest) || anyTail p rest

def accepts : Glob → List Char → Bool
  | [], cs => cs.isEmpty
  | .star :: more, cs => anyTail (accepts more) cs
  | piece :: more, cs =>
    match cs with
    | [] => false
    | c :: rest => piece.accepts c && accepts more rest

end Glob
end GuidedTrack
