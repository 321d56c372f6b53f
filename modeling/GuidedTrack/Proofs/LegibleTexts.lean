import GuidedTrack.Proofs.SignedNumerals
import Mathlib.Data.List.Forall2
import Mathlib.Data.List.Infix

/-! # Texts whose numerals can be read

Reading a numeral can fail for two reasons only, as numerals are scanned: a digit that is no decimal
digit, and a run of too many digits. A text in which there is neither keeps this in all its parts,
and in every text that differs from it in other characters than digits.
-/

namespace GuidedTrack.Numeral

open Text List

variable {cs masked : List Char} {m n : Nat} {s : String} {run sign : List Char}

/-- A text whose digits are decimal digits and stand in runs that are short enough. -/
structure Safe (cs : List Char) : Prop where
  decimal : ∀ c ∈ cs, isDigit c = true → (decimalValue? c).isSome = true
  short : ∀ run, run <:+: cs → (∀ c ∈ run, isDigit c = true) → run.length ≤ maxDigits

theorem Safe.part {part : List Char} (h : Safe cs) (hpart : part <:+: cs) : Safe part where
  decimal c hc := h.decimal c (hpart.subset hc)
  short run hrun := h.short run (hrun.trans hpart)

/-! ## Counting digits -/

def digitsAfter (n : Nat) (c : Char) : Nat :=
  if isDigit c then n + 1 else 0

/-- Whether all runs of digits are short enough, where `n` digits stand in front. -/
def runsFit (n : Nat) : List Char → Bool
  | [] => n ≤ maxDigits
  | c :: rest => n ≤ maxDigits && runsFit (digitsAfter n c) rest

theorem foldl_digitsAfter_digits (h : ∀ c ∈ run, isDigit c = true) (n : Nat) :
    run.foldl digitsAfter n = n + run.length := by
  induction run generalizing n with
  | nil => rfl
  | cons c run ih =>
    obtain ⟨hc, hrun⟩ := forall_mem_cons.mp h
    rw [foldl_cons, ih hrun, digitsAfter, if_pos hc, length_cons]
    omega

theorem le_of_runsFit (h : runsFit n cs = true) : n ≤ maxDigits := by
  cases cs with
  | nil => exact of_decide_eq_true h
  | cons c rest =>
    rw [runsFit, Bool.and_eq_true] at h
    exact of_decide_eq_true h.1

theorem runsFit_append (n : Nat) (as cs : List Char) :
    runsFit n (as ++ cs) = true ↔ runsFit n as = true ∧
        runsFit (as.foldl digitsAfter n) cs = true := by
  induction as generalizing n with
  | nil =>
    refine ⟨fun h => ⟨?_, h⟩, And.right⟩
    exact decide_eq_true (le_of_runsFit h)
  | cons c as ih =>
    rw [cons_append, runsFit, runsFit, Bool.and_eq_true, Bool.and_eq_true, ih, and_assoc]
    rfl

theorem runsFit_of_short (front : List Char) (hfront : ∀ c ∈ front, isDigit c = true)
    (h : ∀ run, run <:+: front ++ cs → (∀ c ∈ run, isDigit c = true) → run.length ≤ maxDigits) :
    runsFit front.length cs = true := by
  induction cs generalizing front with
  | nil => exact decide_eq_true (h front (prefix_append front []).isInfix hfront)
  | cons c cs ih =>
    have hshort := h front (prefix_append front _).isInfix hfront
    rw [runsFit, digitsAfter, Bool.and_eq_true]
    refine ⟨decide_eq_true hshort, ?_⟩
    split
    · rename_i hc
      have hmore := ih (front ++ [c])
        (forall_mem_append.mpr ⟨hfront, by simpa using hc⟩) (by simpa using h)
      simpa using hmore
    · exact ih [] (by simp) fun run hrun =>
        h run (hrun.trans (suffix_append_of_suffix (suffix_cons c cs)).isInfix)

/-- All runs of digits are short enough if the count of digits never goes too far. -/
theorem runsFit_iff : runsFit 0 cs = true ↔
    ∀ run, run <:+: cs → (∀ c ∈ run, isDigit c = true) → run.length ≤ maxDigits := by
  refine ⟨fun h run hrun hdigits => ?_, fun h => runsFit_of_short [] (by simp) h⟩
  obtain ⟨front, back, rfl⟩ := hrun
  have hfront := ((runsFit_append 0 (front ++ run) back).mp h).1
  have hrun := ((runsFit_append 0 front run).mp hfront).2
  have hend := le_of_runsFit ((runsFit_append _ run []).mp (by rwa [append_nil])).2
  rw [foldl_digitsAfter_digits hdigits] at hend
  omega

theorem safe_iff : Safe cs ↔
    (cs.all fun c => !isDigit c || (decimalValue? c).isSome) = true ∧ runsFit 0 cs = true := by
  rw [runsFit_iff, all_eq_true]
  constructor
  · rintro ⟨hdecimal, hshort⟩
    refine ⟨fun c hc => ?_, hshort⟩
    cases hdigit : isDigit c with
    | false => rfl
    | true => exact hdecimal c hc hdigit
  · rintro ⟨hdecimal, hshort⟩
    refine ⟨fun c hc hdigit => ?_, hshort⟩
    simpa [hdigit] using hdecimal c hc

instance (cs : List Char) : Decidable (Safe cs) :=
  decidable_of_iff _ safe_iff.symm

/-! ## Masks -/

def Masks (cs masked : List Char) : Prop :=
  Forall₂ (fun c d => d = c ∨ isDigit d = false) cs masked

theorem Masks.refl (cs : List Char) : Masks cs cs :=
  forall₂_same.mpr fun _ _ => .inl rfl

theorem Masks.plain (h : ∀ c ∈ masked, isDigit c = false) (hlength : cs.length = masked.length) :
    Masks cs masked := by
  refine forall₂_iff_zip.mpr ⟨hlength, fun {c d} hpair => .inr ?_⟩
  exact h d (of_mem_zip hpair).2

theorem Masks.append {as cs masked others : List Char} (h : Masks as masked)
    (hmore : Masks cs others) : Masks (as ++ cs) (masked ++ others) :=
  rel_append h hmore

theorem Masks.eq_of_digits (h : Masks cs run) (hdigits : ∀ c ∈ run, isDigit c = true) :
    run = cs := by
  induction h with
  | nil => rfl
  | @cons c d cs run hfirst hrest ih =>
    obtain ⟨hd, hrun⟩ := forall_mem_cons.mp hdigits
    rcases hfirst with rfl | hplain
    · rw [ih hrun]
    · rw [hd] at hplain
      cases hplain

theorem Masks.mem (h : Masks cs masked) {d : Char} (hd : d ∈ masked) (hdigit : isDigit d = true) :
    d ∈ cs := by
  induction h with
  | nil => cases hd
  | @cons c e cs masked hfirst hrest ih =>
    rcases mem_cons.mp hd with rfl | hd
    · rcases hfirst with rfl | hplain
      · exact mem_cons_self
      · rw [hdigit] at hplain
        cases hplain
    · exact mem_cons_of_mem c (ih hd)

theorem Masks.safe (h : Masks cs masked) (hsafe : Safe cs) :
    Safe masked where
  decimal d hd hdigit := hsafe.decimal d (h.mem hd hdigit) hdigit
  short run hrun hdigits := by
    obtain ⟨front, back, rfl⟩ := hrun
    have hpart := forall₂_drop_append _ _ _ (forall₂_take_append _ _ _ h)
    refine hsafe.short run ?_ hdigits
    rw [Masks.eq_of_digits hpart hdigits]
    exact (drop_suffix _ _).isInfix.trans ( take_prefix _ cs).isInfix

/-! ## Numerals -/

inductive Shaped : List Char → Prop where
  | integer {sign digits : List Char} (signed : sign = [] ∨ sign = ['-']) (filled : digits ≠ [])
      (all : ∀ c ∈ digits, isDigit c = true) : Shaped (sign ++ digits)
  | decimal {sign digits places : List Char} (signed : sign = [] ∨ sign = ['-'])
      (filled : digits ≠ []) (all : ∀ c ∈ digits, isDigit c = true) (more : places ≠ [])
      (allMore : ∀ c ∈ places, isDigit c = true) : Shaped (sign ++ digits ++ '.' :: places)

section

variable {digits : List Char}

end

end GuidedTrack.Numeral
