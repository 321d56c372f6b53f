/-! # Fixes

A fix replaces a range of a source by a text. Several fixes are applied in one pass from left to
right; one that starts inside a range already replaced is left out. Ranges are slices between signed
bounds: a negative one counts from the end, and one beyond either end stands for that end.
-/

namespace GuidedTrack

namespace Text

/-- The place in a text of the given length that a signed bound means. -/
def clampBound (length : Nat) (bound : Int) : Nat :=
  min length (if bound < 0 then bound + length else bound).toNat

/-- The characters between two signed bounds, none if the second is not beyond the first. -/
def slice (cs : List Char) (start stop : Int) : List Char :=
  (cs.take (clampBound cs.length stop)).drop (clampBound cs.length start)

def sliceFrom (cs : List Char) (start : Int) : List Char :=
  cs.drop (clampBound cs.length start)

end Text

/-- The replacement of the characters from `start` up to `stop`. -/
structure Fix where
  start : Int
  stop : Int
  text : String
  deriving DecidableEq, Repr

namespace Fix

/-- The fixes in the order of their starts; fixes with one start keep their order. -/
def sorted (fixes : List Fix) : List Fix :=
  fixes.mergeSort fun a b => a.start ≤ b.start

/-- Applies sorted fixes to what follows `cursor`, the end of the last replaced range. -/
def applyFrom (source : List Char) (cursor : Int) : List Fix → List Char
  | [] => Text.sliceFrom source cursor
  | fix :: rest =>
    if fix.start < cursor then applyFrom source cursor rest
    else
      Text.slice source cursor fix.start ++ fix.text.toList ++ applyFrom source fix.stop rest

def applyAll (source : String) (fixes : List Fix) : String :=
  String.ofList (applyFrom source.toList 0 (sorted fixes))

end Fix
end GuidedTrack
