/-! # Blanks

Two notions of white space are kept apart. A *blank* is any character that trimming removes, in the
sense of Unicode. A *gap* is a space or a tab: the only white space that separates tokens inside a
line.
-/

namespace GuidedTrack.Text

/-- White space that trimming removes. The zero-width space and the byte order mark are no blanks.
-/
def isBlank (c : Char) : Bool :=
  let n := c.toNat
  (0x9 ≤ n && n ≤ 0xD) || (0x1C ≤ n && n ≤ 0x20) || n == 0x85 || n == 0xA0 || n == 0x1680 ||
    (0x2000 ≤ n && n ≤ 0x200A) || n == 0x2028 || n == 0x2029 || n == 0x202F || n == 0x205F ||
    n == 0x3000

def isGap (c : Char) : Bool :=
  c == ' ' || c == '\t'

@[simp] abbrev Gaps (cs : List Char) : Prop :=
  ∀ c ∈ cs, isGap c = true

theorem isBlank_of_isGap {c : Char} (h : isGap c = true) : isBlank c = true := by
  simp only [isGap, Bool.or_eq_true, beq_iff_eq] at h
  rcases h with rfl | rfl <;> decide

def dropRightWhile (p : Char → Bool) (cs : List Char) : List Char :=
  (cs.reverse.dropWhile p).reverse

def trim (cs : List Char) : List Char :=
  dropRightWhile isBlank (cs.dropWhile isBlank)

def allBlank (cs : List Char) : Bool :=
  cs.all isBlank

end GuidedTrack.Text
