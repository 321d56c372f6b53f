import GuidedTrack.Layout.Code
import Mathlib.Data.Bool.AllAny

/-! # Characters of words

The scanner knows letters and digits of every script, the writer of code those of ASCII. What ties
the two together: digits stand in words, an ASCII word character starts a word or a numeral, and the
operators that are spelled as words are spelled in ASCII.
-/

namespace GuidedTrack

open List

variable {c : Char} {n : Nat}

namespace Text

/-! ## Tables -/

theorem inRanges_cons {first last : Nat} {rest : List (Nat × Nat)} :
    inRanges n ((first, last) :: rest) = true ↔
      first ≤ n ∧ (n ≤ last ∨ inRanges n rest = true) := by
  simp only [inRanges]
  split
  · rename_i hlt
    simp [Nat.not_le.mpr hlt]
  · rename_i hle
    simp [Nat.not_lt.mp hle]

theorem exists_of_inRanges {table : List (Nat × Nat)} (h : inRanges n table = true) :
    ∃ range ∈ table, range.1 ≤ n ∧ n ≤ range.2 := by
  induction table with
  | nil => cases h
  | cons range rest ih =>
    obtain ⟨hfirst, hlast | hrest⟩ := inRanges_cons.mp h
    · exact ⟨range, mem_cons_self, hfirst, hlast⟩
    · obtain ⟨found, hmem, hin⟩ := ih hrest
      exact ⟨found, mem_cons_of_mem range hmem, hin⟩

theorem inRanges_of_mem {table : List (Nat × Nat)} {range : Nat × Nat}
    (hsorted : table.Pairwise fun a b => a.1 ≤ b.1) (hmem : range ∈ table) (hfirst : range.1 ≤ n)
    (hlast : n ≤ range.2) : inRanges n table = true := by
  induction table with
  | nil => cases hmem
  | cons head rest ih =>
    rw [pairwise_cons] at hsorted
    rw [inRanges_cons]
    rcases mem_cons.mp hmem with rfl | hmem
    · exact ⟨hfirst, .inl hlast⟩
    · exact ⟨Nat.le_trans (hsorted.1 range hmem) hfirst, .inr (ih hsorted.2 hmem)⟩

theorem isAlphanumeric_of_isDigit (h : isDigit c = true) : isAlphanumeric c = true := by
  have hcovers : ∀ range ∈ digitRanges, ∃ wider ∈ numericRanges,
      wider.1 ≤ range.1 ∧ range.2 ≤ wider.2 := by decide +kernel
  have hsorted : numericRanges.Pairwise fun a b => a.1 ≤ b.1 := by decide +kernel
  obtain ⟨range, hmem, hfirst, hlast⟩ := exists_of_inRanges h
  obtain ⟨wider, hwider, hle, hge⟩ := hcovers range hmem
  rw [isAlphanumeric, inRanges_of_mem hsorted hwider (Nat.le_trans hle hfirst)
    (Nat.le_trans hlast hge), Bool.or_true]

/-! ## ASCII -/

theorem isDigit_iff_toNat : c.isDigit = true ↔ 0x30 ≤ c.toNat ∧ c.toNat ≤ 0x39 := by
  simp [Char.isDigit, UInt32.le_iff_toNat_le]

theorem isLower_iff_toNat : c.isLower = true ↔ 0x61 ≤ c.toNat ∧ c.toNat ≤ 0x7A := by
  have hlower : c.isLower = (decide (c.val ≥ 'a'.val) && decide (c.val ≤ 'z'.val)) := rfl
  simp [hlower, UInt32.le_iff_toNat_le]

theorem isAlpha_eq (c : Char) : c.isAlpha = (c.isUpper || c.isLower) :=
  rfl

theorem isAlpha_iff_toNat :
    c.isAlpha = true ↔ (0x41 ≤ c.toNat ∧ c.toNat ≤ 0x5A) ∨ (0x61 ≤ c.toNat ∧ c.toNat ≤ 0x7A) := by
  have hupper : c.isUpper = decide (c.val ≥ 'A'.val ∧ c.val ≤ 'Z'.val) := rfl
  simp [isAlpha_eq, hupper, isLower_iff_toNat, UInt32.le_iff_toNat_le]

theorem isDigit_of_ascii (h : c.isDigit = true) : isDigit c = true := by
  obtain ⟨hfirst, hlast⟩ := isDigit_iff_toNat.mp h
  rw [isDigit, digitRanges, intervals, inRanges_cons]
  exact ⟨hfirst, .inl hlast⟩

theorem isLetter_of_ascii (h : c.isAlpha = true) : isLetter c = true := by
  rw [isLetter, letterRanges, intervals, inRanges_cons, intervals, inRanges_cons]
  rcases isAlpha_iff_toNat.mp h with ⟨hfirst, hlast⟩ | ⟨hfirst, hlast⟩
  · exact ⟨hfirst, .inl hlast⟩
  · exact ⟨by omega, .inr ⟨hfirst, .inl hlast⟩⟩

/-! ## Lower case -/

theorem lowerCodeAux_eq {m : Nat} {runs : List (Nat × Nat × Nat × Int)}
    (h : lowerCodeAux n runs = m) (hm : m ≠ 0) :
    n = m ∨ ∃ first last step distance, (first, last, step, distance) ∈ runs ∧ first ≤ n ∧
      n ≤ last ∧ (n : Int) + distance = m := by
  induction runs with
  | nil => exact .inl h
  | cons run rest ih =>
    obtain ⟨first, last, step, distance⟩ := run
    simp only [lowerCodeAux] at h
    split at h
    · exact .inl h
    rename_i hfirst
    by_cases hhere : n ≤ last ∧ (n - first) % step = 0
    · rw [if_pos hhere.1, if_pos hhere.2] at h
      exact .inr ⟨first, last, step, distance, mem_cons_self, by omega, hhere.1, by omega⟩
    · have hrest : lowerCodeAux n rest = m := by
        split at h
        · rename_i hlast
          rwa [if_neg fun hstep => hhere ⟨hlast, hstep⟩] at h
        · exact h
      rcases ih hrest with hsame | ⟨first', last', step', distance', hmem, hfound⟩
      · exact .inl hsame
      · exact .inr ⟨first', last', step', distance', mem_cons_of_mem _ hmem, hfound⟩

def operatorLetters : List Char :=
  ['a', 'd', 'i', 'n', 'o', 'r', 't']

theorem toNat_ofNat (n : Nat) : (Char.ofNat n).toNat = n ∨ (Char.ofNat n).toNat = 0 := by
  by_cases hvalid : n.isValidChar
  · left
    rw [Char.ofNat, dif_pos hvalid]
    rfl
  · right
    rw [Char.ofNat, dif_neg hvalid]
    rfl

theorem isAlpha_of_lowerSimple (h : lowerSimple c ∈ operatorLetters) : c.isAlpha = true := by
  have hletters : ∀ d ∈ operatorLetters, 0x61 ≤ d.toNat ∧ d.toNat ≤ 0x7A :=
    all_iff_forall_prop.mp (by decide)
  have hruns : ∀ run ∈ capitalRuns, run = (0x41, 0x5A, 1, 32) ∨
      ∀ n ∈ operatorLetters.map Char.toNat,
        ¬ ((run.1 : Int) ≤ n - run.2.2.2 ∧ (n : Int) - run.2.2.2 ≤ run.2.1) := by
    decide +kernel
  obtain ⟨hlow, hhigh⟩ := hletters _ h
  have hcode : lowerCodeAux c.toNat capitalRuns = (lowerSimple c).toNat := by
    rcases toNat_ofNat (lowerCodeAux c.toNat capitalRuns) with hvalid | hinvalid
    · exact hvalid.symm
    · rw [lowerSimple, hinvalid] at hlow
      exact absurd hlow (by decide)
  rw [isAlpha_iff_toNat]
  rcases lowerCodeAux_eq hcode (by omega) with hsame | ⟨first, last, step, distance, hmem, hin⟩
  · omega
  · rcases hruns _ hmem with heq | hnone
    · simp only [Prod.mk.injEq] at heq
      omega
    · have hout := hnone _ (mem_map_of_mem h)
      dsimp only at hout
      omega

theorem isAlpha_of_lowerAux {before cs : List Char}
    (h : ∀ d ∈ lowerAux before cs, d ∈ operatorLetters) : ∀ c ∈ cs, c.isAlpha = true := by
  induction cs generalizing before with
  | nil => simp
  | cons c cs ih =>
    rw [lowerAux] at h
    simp only [forall_mem_append] at h
    obtain ⟨hmapped, hrest⟩ := h
    refine forall_mem_cons.mpr ⟨?_, ih hrest⟩
    split at hmapped
    · -- neither form of the small sigma is a letter of an operator
      split at hmapped <;> exact absurd (hmapped _ mem_cons_self) (by decide)
    split at hmapped
    · exact absurd (hmapped '\u0307' (by simp)) (by decide)
    · exact isAlpha_of_lowerSimple (hmapped _ mem_cons_self)

end Text

namespace Token

open Text

theorem isAlpha_of_isWordOperator {word : List Char} (h : isWordOperator word = true) :
    ∀ c ∈ word, c.isAlpha = true := by
  have hall : ∀ operator ∈ Vocabulary.wordOperators,
      operator.toList.all (fun d => d ∈ operatorLetters) = true := by
    decide
  have hlower := all_iff_forall_prop.mp (hall _ (contains_iff_mem.mp h))
  simp only [lower, String.toList_ofList] at hlower
  exact isAlpha_of_lowerAux hlower

end Token

namespace Layout

open Text Token

theorem isWordChar_of_isAlpha (h : c.isAlpha = true) : isWordChar c = true := by
  simp [isWordChar, Char.isAlphanum, h]

theorem isDigit_or_isIdentifierStart (h : isWordChar c = true) :
    isDigit c = true ∨ isIdentifierStart c = true := by
  simp only [isWordChar, Char.isAlphanum, Bool.or_eq_true, beq_iff_eq] at h
  rcases h with (halpha | hdigit) | rfl
  · exact .inr (by simp [isIdentifierStart, isLetter_of_ascii halpha])
  · exact .inl (isDigit_of_ascii hdigit)
  · exact .inr (by decide)

/-- Of the ASCII word characters only the decimal digits are digits. -/
theorem isDigit_of_isWordChar (hword : isWordChar c = true) (h : isDigit c = true) :
    c.isDigit = true := by
  have htable : ∀ range ∈ digitRanges, range = (0x30, 0x39) ∨ 0x7A < range.1 := by decide +kernel
  have hle : c.toNat ≤ 0x7A := by
    simp only [isWordChar, Char.isAlphanum, Bool.or_eq_true, isAlpha_iff_toNat, isDigit_iff_toNat,
      beq_iff_eq] at hword
    rcases hword with (halpha | hdigit) | rfl
    · omega
    · omega
    · decide
  obtain ⟨range, hmem, hfirst, hlast⟩ := exists_of_inRanges h
  rw [isDigit_iff_toNat]
  rcases htable range hmem with rfl | hlt
  · exact ⟨hfirst, hlast⟩
  · omega

end Layout
end GuidedTrack
