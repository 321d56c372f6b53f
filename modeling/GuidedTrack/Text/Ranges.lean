/-! # Tables of code points

Character classes are ascending lists of closed intervals of code points. They are written as the
lengths of the gaps and of the intervals, in turns.
-/

namespace GuidedTrack.Text

/-- The closed intervals of a table that counts code points from `next` on, those left out and those
taken in turns. -/
def intervals (next : Nat) : List Nat → List (Nat × Nat)
  | skipped :: taken :: rest =>
    let first := next + skipped
    (first, first + taken - 1) :: intervals (first + taken) rest
  | _ => []

/-- Whether `n` lies in one of the intervals of an ascending table. -/
def inRanges (n : Nat) : List (Nat × Nat) → Bool
  | [] => false
  | (first, last) :: rest => if n < first then false else n ≤ last || inRanges n rest

end GuidedTrack.Text
