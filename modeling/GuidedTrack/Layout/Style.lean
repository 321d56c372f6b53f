/-! # Layout styles

The options of the formatter, and what a configuration says about them.
-/

namespace GuidedTrack.Layout

structure Style where
  blankLinesBetweenBlocks : Nat := 1
  spaceAroundOperators : Bool := true
  spaceAfterComma : Bool := true
  spaceAroundArrow : Bool := true
  trimTrailingWhitespace : Bool := true
  insertFinalNewline : Bool := true
  deriving DecidableEq, Repr

/-- Options that are given, the others left open. -/
structure Overrides where
  blankLinesBetweenBlocks : Option Nat := none
  spaceAroundOperators : Option Bool := none
  spaceAfterComma : Option Bool := none
  spaceAroundArrow : Option Bool := none
  trimTrailingWhitespace : Option Bool := none
  insertFinalNewline : Option Bool := none
  deriving DecidableEq, Repr

namespace Style

def overlay (style : Style) (overrides : Overrides) : Style where
  blankLinesBetweenBlocks :=
    overrides.blankLinesBetweenBlocks.getD style.blankLinesBetweenBlocks
  spaceAroundOperators := overrides.spaceAroundOperators.getD style.spaceAroundOperators
  spaceAfterComma := overrides.spaceAfterComma.getD style.spaceAfterComma
  spaceAroundArrow := overrides.spaceAroundArrow.getD style.spaceAroundArrow
  trimTrailingWhitespace := overrides.trimTrailingWhitespace.getD style.trimTrailingWhitespace
  insertFinalNewline := overrides.insertFinalNewline.getD style.insertFinalNewline

def toOverrides (style : Style) : Overrides where
  blankLinesBetweenBlocks := some style.blankLinesBetweenBlocks
  spaceAroundOperators := some style.spaceAroundOperators
  spaceAfterComma := some style.spaceAfterComma
  spaceAroundArrow := some style.spaceAroundArrow
  trimTrailingWhitespace := some style.trimTrailingWhitespace
  insertFinalNewline := some style.insertFinalNewline

end Style
end GuidedTrack.Layout
