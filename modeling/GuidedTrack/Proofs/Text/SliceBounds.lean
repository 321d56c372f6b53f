import GuidedTrack.Fix
import Mathlib.Data.List.Basic

/-! # Slices between places in a text

Between two places that lie in a text a slice is what the text has there. Slices that meet join.
-/

namespace GuidedTrack.Text

open List

variable {cs front tail : List Char} {i j k : Nat}

theorem clampBound_of_le {n : Nat} (h : i ≤ n) : clampBound n (i : Int) = i := by
  simp only [clampBound]
  omega

theorem slice_of_le (hij : i ≤ j) (hj : j ≤ cs.length) : slice cs i j = (cs.take j).drop i := by
  rw [slice, clampBound_of_le (Nat.le_trans hij hj), clampBound_of_le hj]

theorem sliceFrom_of_le (hi : i ≤ cs.length) : sliceFrom cs i = cs.drop i := by
  rw [sliceFrom, clampBound_of_le hi]

theorem slice_self (cs : List Char) (i : Int) : slice cs i i = [] :=
  drop_eq_nil_of_le (length_take_le _ _)

theorem infix_slice (cs : List Char) (start stop : Int) : slice cs start stop <:+: cs :=
  (drop_suffix _ _).isInfix.trans ( take_prefix _ _).isInfix

theorem take_append_slice (hij : i ≤ j) (hj : j ≤ cs.length) :
    cs.take i ++ slice cs i j = cs.take j := by
  rw [slice_of_le hij hj, ← take_append_drop i (cs.take j), take_take,
    Nat.min_eq_left hij, drop_left' (length_take_of_le (Nat.le_trans hij hj))]

theorem slice_append_slice (hij : i ≤ j) (hjk : j ≤ k) (hk : k ≤ cs.length) :
    slice cs i j ++ slice cs j k = slice cs i k := by
  refine @List.append_cancel_left _ (cs.take i) _ _ ?_
  rw [← append_assoc, take_append_slice hij (Nat.le_trans hjk hk), take_append_slice hjk hk,
    take_append_slice (Nat.le_trans hij hjk) hk]

theorem add_le_of_drop (h : cs.drop i = front ++ tail) (hi : i ≤ cs.length) :
    i + front.length ≤ cs.length := by
  have hlength := congrArg List.length h
  rw [length_drop, length_append] at hlength
  omega

theorem slice_eq_of_drop (h : cs.drop i = front ++ tail) (hi : i ≤ cs.length) :
    slice cs i (i + front.length : Nat) = front := by
  rw [slice_of_le (Nat.le_add_right i _) (add_le_of_drop h hi), drop_take, h,
    Nat.add_sub_cancel_left, take_left]

end GuidedTrack.Text
