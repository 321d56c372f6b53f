import GuidedTrack.Proofs.Lint.FixPass
import Mathlib.Algebra.Ring.Int.Defs

/-! # Fixes that are applied together

One pass over the sorted fixes takes those that do not start inside a range already taken, and
splices them in with a cursor. The fixes that it takes do not overlap, so the result is the one of
replacing their ranges one at a time, the last one first.
-/

namespace GuidedTrack.Fix

open List

def Within (length : Nat) (fix : Fix) : Prop :=
  0 ≤ fix.start ∧ fix.start ≤ fix.stop ∧ fix.stop ≤ length

instance (length : Nat) (fix : Fix) : Decidable (fix.Within length) :=
  inferInstanceAs (Decidable (_ ∧ _ ∧ _))

/-! ## The greedy choice -/

def reach (taken : List Fix) : Int :=
  (taken.getLast?.map (·.stop)).getD 0

def take (taken : List Fix) (fix : Fix) : List Fix :=
  if fix.start < reach taken then taken else taken ++ [fix]

def chosen (fixes : List Fix) : List Fix :=
  fixes.foldl take []

def chosenFrom (cursor : Int) : List Fix → List Fix
  | [] => []
  | fix :: rest =>
    if fix.start < cursor then chosenFrom cursor rest else fix :: chosenFrom fix.stop rest

theorem foldl_take (taken fixes : List Fix) :
    fixes.foldl take taken = taken ++ chosenFrom (reach taken) fixes := by
  induction fixes generalizing taken with
  | nil => exact (append_nil taken).symm
  | cons fix fixes ih =>
    rw [foldl_cons, take, chosenFrom]
    split
    · exact ih taken
    · have hreach : reach (taken ++ [fix]) = fix.stop := by simp [reach]
      rw [ih, hreach, append_assoc, singleton_append]

theorem chosen_eq (fixes : List Fix) : chosen fixes = chosenFrom 0 fixes :=
  foldl_take [] fixes

theorem chosen_append (fixes more : List Fix) :
    chosen (fixes ++ more) = chosen fixes ++ chosenFrom (reach (chosen fixes)) more := by
  rw [chosen, foldl_append, foldl_take, ← chosen]

theorem chosen_concat (fixes : List Fix) (fix : Fix) :
    chosen (fixes ++ [fix]) = take (chosen fixes) fix := by
  rw [chosen, foldl_concat, ← chosen]

theorem chosenFrom_sublist (cursor : Int) (fixes : List Fix) :
    (chosenFrom cursor fixes).Sublist fixes := by
  induction fixes generalizing cursor with
  | nil => exact .slnil
  | cons fix fixes ih =>
    rw [chosenFrom]
    split
    · exact (ih cursor).cons fix
    · exact (ih fix.stop).cons_cons fix

section

variable {fixes : List Fix}

theorem le_start_of_mem_chosenFrom (h : ∀ fix ∈ fixes, fix.start ≤ fix.stop) (cursor : Int) :
    ∀ fix ∈ chosenFrom cursor fixes, cursor ≤ fix.start := by
  induction fixes generalizing cursor with
  | nil => simp [chosenFrom]
  | cons first fixes ih =>
    obtain ⟨hfirst, hfixes⟩ := forall_mem_cons.mp h
    rw [chosenFrom]
    split
    · exact ih hfixes cursor
    · intro fix hfix
      rcases mem_cons.mp hfix with rfl | hfix
      · omega
      · have hstart := ih hfixes first.stop fix hfix
        omega

theorem pairwise_chosenFrom (h : ∀ fix ∈ fixes, fix.start ≤ fix.stop) (cursor : Int) :
    (chosenFrom cursor fixes).Pairwise fun a b => a.stop ≤ b.start := by
  induction fixes generalizing cursor with
  | nil => exact .nil
  | cons fix fixes ih =>
    have hfixes := (forall_mem_cons.mp h).2
    rw [chosenFrom]
    split
    · exact ih hfixes cursor
    · exact .cons (le_start_of_mem_chosenFrom hfixes fix.stop) (ih hfixes fix.stop)

theorem chosenFrom_eq_self {cursor : Int} (hstarts : ∀ fix ∈ fixes, cursor ≤ fix.start)
    (h : fixes.Pairwise fun a b => a.stop ≤ b.start) : chosenFrom cursor fixes = fixes := by
  induction fixes generalizing cursor with
  | nil => rfl
  | cons fix fixes ih =>
    obtain ⟨hbehind, hfixes⟩ := pairwise_cons.mp h
    have hstart := hstarts fix mem_cons_self
    rw [chosenFrom, if_neg (by omega), ih hbehind hfixes]

theorem exists_of_lt_reach {before : List Fix} {fix : Fix} (hfix : 0 ≤ fix.start)
    (hsorted : ∀ other ∈ before, other.start ≤ fix.start) (h : fix.start < reach (chosen before)) :
    ∃ other ∈ chosen before, other.start ≤ fix.start ∧ fix.start < other.stop := by
  cases hlast : (chosen before).getLast? with
  | none =>
    rw [reach, hlast] at h
    exact absurd h (by simpa using hfix)
  | some other =>
    rw [reach, hlast] at h
    have hmem := mem_of_getLast? hlast
    refine ⟨other, hmem, ?_, h⟩
    rw [chosen_eq] at hmem
    exact hsorted other ((chosenFrom_sublist 0 before).subset hmem)

end

/-! ## Replacing one range at a time -/

def replace (fix : Fix) (cs : List Char) : List Char :=
  cs.take fix.start.toNat ++ fix.text.toList ++ cs.drop fix.stop.toNat

theorem length_replace {fix : Fix} {cs : List Char} (h : fix.Within cs.length) :
    ((fix.replace cs).length : Int) =
      cs.length + (fix.text.length - (fix.stop - fix.start)) := by
  obtain ⟨hstart, hle, hstop⟩ := h
  rw [replace, length_append, length_append, length_take, length_drop,
    String.length_toList]
  omega

section

variable {cs : List Char} {fixes : List Fix}

/-- What the cursor has passed is as in the text, and the fixes behind it are spliced in. -/
theorem foldr_replace (h : ∀ fix ∈ fixes, fix.Within cs.length) {cursor : Nat}
    (hcursor : cursor ≤ cs.length) :
    (chosenFrom cursor fixes).foldr replace cs = cs.take cursor ++ applyFrom cs cursor fixes := by
  induction fixes generalizing cursor with
  | nil =>
    rw [applyFrom, Text.sliceFrom_of_le hcursor, take_append_drop]
    rfl
  | cons fix fixes ih =>
    obtain ⟨⟨hstart, hle, hstop⟩, hfixes⟩ := forall_mem_cons.mp h
    rw [chosenFrom, applyFrom]
    split
    · exact ih hfixes hcursor
    · rename_i hskip
      obtain ⟨i, hi⟩ := Int.eq_ofNat_of_zero_le hstart
      obtain ⟨j, hj⟩ := Int.eq_ofNat_of_zero_le (Int.le_trans hstart hle)
      rw [hi, hj] at hle
      rw [hi] at hskip
      rw [hj] at hstop
      have hbefore : cs.take cursor ++ Text.slice cs cursor i = cs.take i :=
        Text.take_append_slice (by omega) (by omega)
      have hlength : (cs.take j).length = j := length_take_of_le (by omega)
      rw [foldr_cons, hj, ih hfixes (by omega), replace, hi, hj, Int.toNat_natCast,
        Int.toNat_natCast, take_append_of_le_length (by omega), take_take,
        Nat.min_eq_left (by omega), drop_append_of_le_length (by omega),
        drop_eq_nil_of_le (by omega), nil_append, ← append_assoc,
        ← append_assoc, hbefore]

theorem length_foldr_replace (h : ∀ fix ∈ fixes, fix.Within cs.length) (cursor : Int) :
    (((chosenFrom cursor fixes).foldr replace cs).length : Int) =
      cs.length + ((chosenFrom cursor fixes).map fun fix =>
        (fix.text.length : Int) - (fix.stop - fix.start)).sum := by
  induction fixes generalizing cursor with
  | nil => simp [chosenFrom]
  | cons fix fixes ih =>
    obtain ⟨⟨hstart, hle, hstop⟩, hfixes⟩ := forall_mem_cons.mp h
    rw [chosenFrom]
    split
    · exact ih hfixes cursor
    · -- the text in front of the fix's end is still there when the fix is applied
      have hreach : fix.Within ((chosenFrom fix.stop fixes).foldr replace cs).length := by
        obtain ⟨j, hj⟩ := Int.eq_ofNat_of_zero_le (Int.le_trans hstart hle)
        have hrest := @foldr_replace cs fixes hfixes j (by omega)
        rw [← hj] at hrest
        refine ⟨hstart, hle, ?_⟩
        rw [hrest, length_append, length_take]
        omega
      rw [foldr_cons, length_replace hreach, ih hfixes, map_cons, sum_cons]
      omega

end

/-! ## The order of fixes -/

theorem sorted_pairwise (fixes : List Fix) :
    (sorted fixes).Pairwise fun a b => a.start ≤ b.start :=
  (pairwise_mergeSort start_le_trans start_le_total fixes).imp of_decide_eq_true

theorem filter_sorted (fixes : List Fix) (start : Int) :
    (sorted fixes).filter (·.start = start) = fixes.filter (·.start = start) := by
  rw [sorted, filter_mergeSort start_le_trans start_le_total]
  apply mergeSort_of_pairwise
  refine pairwise_of_forall_mem_list fun a ha b hb => ?_
  have hstart := (mem_filter.mp ha).2
  have hother := (mem_filter.mp hb).2
  simp only [decide_eq_true_eq] at hstart hother ⊢
  omega

theorem sorted_congr {fixes others : List Fix}
    (h : ∀ start, others.filter (·.start = start) = fixes.filter (·.start = start)) :
    sorted others = sorted fixes := by
  apply eq_of_filter_key (·.start) (sorted_pairwise others) (sorted_pairwise fixes)
  intro start
  rw [filter_sorted, filter_sorted, h]

/-- Fixes are spliced in greedily. In the stable order of their starts, a fix is taken if it does
not start before the last one taken ends, and else it starts inside the range of one that is taken.
The fixes taken do not overlap, and the output is what comes of replacing their ranges one at a time
from the last to the first, which tells its length. It does not depend on the order of the messages,
as long as fixes with one start keep theirs. -/
theorem applyAll_greedy {source : String} {messages : List Lint.Message}
    (h : ∀ fix ∈ Lint.fixes messages, fix.Within source.length) :
    let fixes := Lint.fixes messages
    let applied := chosen (sorted fixes)
    ((sorted fixes).Pairwise (fun a b => a.start ≤ b.start) ∧
        ∀ start, (sorted fixes).filter (·.start = start) = fixes.filter (·.start = start)) ∧
      (∀ before fix after, sorted fixes = before ++ fix :: after →
        if reach (chosen before) ≤ fix.start then chosen (before ++ [fix]) = chosen before ++ [fix]
        else chosen (before ++ [fix]) = chosen before ∧
          ∃ other ∈ applied, other.start ≤ fix.start ∧ fix.start < other.stop) ∧
      applied.Pairwise (fun a b => a.stop ≤ b.start) ∧
      applyAll source fixes = String.ofList (applied.foldr replace source.toList) ∧
      ((applyAll source fixes).length : Int) = source.length +
        (applied.map fun fix => (fix.text.length : Int) - (fix.stop - fix.start)).sum ∧
      ∀ others, (∀ start, (Lint.fixes others).filter (·.start = start) =
          fixes.filter (·.start = start)) →
        applyAll source (Lint.fixes others) = applyAll source fixes := by
  intro fixes applied
  have hwithin : ∀ fix ∈ sorted fixes, fix.Within source.toList.length := by
    intro fix hfix
    rw [String.length_toList]
    exact h fix (mem_mergeSort.mp hfix)
  have happlied : applied = chosenFrom 0 (sorted fixes) := chosen_eq _
  have houtput : applyAll source fixes = String.ofList (applied.foldr replace source.toList) := by
    rw [happlied, applyAll]
    exact congrArg String.ofList (foldr_replace hwithin (Nat.zero_le _)).symm
  refine ⟨⟨sorted_pairwise fixes, filter_sorted fixes⟩, ?_, ?_, houtput, ?_, ?_⟩
  · intro before fix after hcut
    have hsorted := sorted_pairwise fixes
    rw [hcut] at hsorted
    split
    · rename_i hreach
      rw [chosen_concat, take, if_neg (Int.not_lt.mpr hreach)]
    · rename_i hreach
      have hinside : fix.start < reach (chosen before) := Int.not_le.mp hreach
      have hbefore : ∀ other ∈ before, other.start ≤ fix.start := fun other hother =>
        (pairwise_append.mp hsorted).2.2 other hother fix mem_cons_self
      obtain ⟨other, hother, hrange⟩ :=
        exists_of_lt_reach (hwithin fix (by simp [hcut])).1 hbefore hinside
      refine ⟨by rw [chosen_concat, take, if_pos hinside], other, ?_, hrange⟩
      simp only [applied, hcut, chosen_append]
      exact mem_append_left _ hother
  · rw [happlied]
    exact pairwise_chosenFrom (fun fix hfix => (hwithin fix hfix).2.1) 0
  · rw [houtput, String.length_ofList, happlied, length_foldr_replace hwithin, String.length_toList]
  · intro others hothers
    rw [applyAll, applyAll, sorted_congr hothers]

/-- Two insertions at one place, and a fix that is left out between two that touch. -/
theorem applyAll_greedy_overlap :
    let fixing (start stop : Int) (text : String) : Lint.Message :=
      ⟨"", .error, { text := "", line := 1, column := 1, fix := some ⟨start, stop, text⟩ }⟩
    let messages := [fixing 4 6 "c", fixing 0 0 "x", fixing 2 5 "yy", fixing 5 5 "!",
        fixing 0 0 "z"]
    (∀ fix ∈ Lint.fixes messages, fix.Within "abcdef".length) ∧
      chosen (sorted (Lint.fixes messages)) =
        [⟨0, 0, "x"⟩, ⟨0, 0, "z"⟩, ⟨2, 5, "yy"⟩, ⟨5, 5, "!"⟩] ∧
      applyAll "abcdef" (Lint.fixes messages) = "xzabyy!f" := by
  intro fixing messages
  have hwithin : ∀ fix ∈ Lint.fixes messages, fix.Within "abcdef".length := by decide
  have hchosen : chosen (sorted (Lint.fixes messages)) =
      [⟨0, 0, "x"⟩, ⟨0, 0, "z"⟩, ⟨2, 5, "yy"⟩, ⟨5, 5, "!"⟩] := by
    rw [sorted_eq_insertion]
    decide +kernel
  refine ⟨hwithin, hchosen, ?_⟩
  rw [(applyAll_greedy hwithin).2.2.2.1, hchosen]
  decide

end GuidedTrack.Fix
