import GuidedTrack.Proofs.Rule.FixInsertions

/-! # Lines that are repaired at once

What closes the brackets of a line lands inside its open string, if there is one. A line that leaves
only brackets open, or only a string, is repaired in one pass, provided that each of its closing
brackets closes the innermost open one.
-/

namespace GuidedTrack.Rule

open List

open Token (Kind EndsIn)
open Token

variable {body : List Char} {depth : Nat} {p : Position}

/-! ## Nested brackets -/

section

variable {openers kinds others : List Kind}

end

/-! ## The reports on a row -/

theorem Inserts.line_eq {line place column : Int} {added : List Char} {reports : List Report}
    (h : Inserts line place column added reports) : ∀ report ∈ reports, report.line = line := by
  induction h with
  | nil => simp
  | cons sameLine behind fix rest ih => exact forall_mem_cons.mpr ⟨sameLine, ih⟩

section

variable {inside : Option Nat} {front tail : List Char} {kinds : List Kind}

end

end GuidedTrack.Rule
