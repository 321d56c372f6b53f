import GuidedTrack.Numeral
import Mathlib.Data.List.DropRight

/-! # Signed numerals

Taking the minus off the front of a numeral leaves a numeral. What follows the minus starts with a
digit or a point, so that neither padding nor a second sign can stand there.
-/

namespace GuidedTrack.Numeral

open Text List

variable {c : Char} {body : List Char} {s raw : String} {bits : UInt64}

theorem decimalValue?_of_isBlank (h : isBlank c = true) : decimalValue? c = none := by
  unfold decimalValue?
  rw [Option.map_eq_none_iff, find?_eq_none]
  intro start hstart hin
  simp only [Bool.and_eq_true, decide_eq_true_eq] at hin
  have hapart (first last : Nat)
      (hrange : (decimalZeros.all fun start => start + 9 < first || last < start) = true) :
      ¬ (first ≤ c.toNat ∧ c.toNat ≤ last) := by
    have := all_eq_true.mp hrange start hstart
    simp only [Bool.or_eq_true, decide_eq_true_eq] at this
    omega
  simp only [isBlank, Bool.or_eq_true, Bool.and_eq_true, decide_eq_true_eq, beq_iff_eq] at h
  have h₁ := hapart 0x9 0xD (by decide)
  have h₂ := hapart 0x1C 0x20 (by decide)
  have h₃ := hapart 0x85 0x85 (by decide)
  have h₄ := hapart 0xA0 0xA0 (by decide)
  have h₅ := hapart 0x1680 0x1680 (by decide)
  have h₆ := hapart 0x2000 0x3000 (by decide)
  omega

def startsDigits (c : Char) : Bool :=
  isRunChar c || c == '.'

theorem isPadding_of_startsDigits (h : startsDigits c = true) : isPadding c = false := by
  cases hpadding : isPadding c with
  | false => rfl
  | true =>
    have hblank : isBlank c = true := by
      simp only [isPadding, Bool.and_eq_true] at hpadding
      exact hpadding.1
    simp only [startsDigits, isRunChar, decimalValue?_of_isBlank hblank, Bool.or_eq_true,
      beq_iff_eq] at h
    rcases h with (h | rfl) | rfl
    · cases h
    · revert hblank
      decide
    · revert hblank
      decide

theorem takeSign_of_startsDigits (h : startsDigits c = true) (cs : List Char) :
    takeSign (c :: cs) = (false, c :: cs) := by
  unfold takeSign
  split
  · rename_i heq
    cases heq
    exact absurd h (by decide)
  · rename_i heq
    cases heq
    exact absurd h (by decide)
  · rfl

theorem exists_readInteger_of_minus (hs : s.toList = '-' :: raw.toList) {n : Int}
    (h : readInteger s = .ok n) : ∃ m, readInteger raw = .ok m := by
  have hminus : takeSign (s.toList.dropWhile isPadding) = (true, raw.toList) := by
    rw [hs, dropWhile_cons_of_neg (by decide)]
    rfl
  unfold readInteger at h
  rw [hminus] at h
  dsimp only at h
  split at h
  · cases h
  split at h
  · cases h
  split at h
  · cases h
  rename_i hrun hlength hrest
  have hfirst : takeSign (raw.toList.dropWhile isPadding) = (false, raw.toList) := by
    cases hraw : raw.toList with
    | nil => simp [hraw, digitValues] at hrest
    | cons c cs =>
      have hc : startsDigits c = true := by
        cases hrunChar : isRunChar c with
        | true => simp [startsDigits, hrunChar]
        | false => simp [hraw, hrunChar, digitValues] at hrest
      rw [dropWhile_cons_of_neg (by simp [isPadding_of_startsDigits hc]),
        takeSign_of_startsDigits hc]
  unfold readInteger
  rw [hfirst]
  dsimp only
  rw [if_neg hrun, if_neg hlength, if_neg hrest]
  exact ⟨_, rfl⟩

theorem dropRightWhile_cons {p : Char → Bool} (h : p c = false) (cs : List Char) :
    dropRightWhile p (c :: cs) = c :: dropRightWhile p cs := by
  unfold dropRightWhile
  rw [reverse_cons, dropWhile_append]
  split
  · rename_i hempty
    rw [List.isEmpty_iff.mp hempty, dropWhile_cons_of_neg (by simp [h])]
    rfl
  · rw [reverse_append]
    rfl

def fractionOf (body : List Char) : List Char × List Char :=
  match body.dropWhile isRunChar with
  | '.' :: rest => (rest.takeWhile isRunChar, rest.dropWhile isRunChar)
  | rest => ([], rest)

def readBody (s : String) (negative : Bool) (body : List Char) : Except Error UInt64 :=
  let whole := body.takeWhile isRunChar
  let fraction := (fractionOf body).1
  match readExponent? (fractionOf body).2 with
  | none => .error (.malformedDecimal s)
  | some exponent =>
    if isDigitRun whole && isDigitRun fraction && !(whole.isEmpty && fraction.isEmpty) then
      let fractionDigits := digitValues fraction
      let significand := ofDigits (digitValues whole ++ fractionDigits)
      .ok (decimalBits negative significand (exponent - fractionDigits.length))
    else .error (.malformedDecimal s)

theorem readDecimal_eq (s : String) : readDecimal s =
    let (negative, body) := takeSign (dropRightWhile isPadding (s.toList.dropWhile isPadding))
    readBody s negative body := rfl

theorem startsDigits_of_fraction
    (h : ((body.takeWhile isRunChar).isEmpty && (fractionOf body).1.isEmpty) = false) :
    ∃ c cs, body = c :: cs ∧ startsDigits c = true := by
  cases body with
  | nil => cases h
  | cons c cs =>
    refine ⟨c, cs, rfl, ?_⟩
    cases hc : isRunChar c with
    | true => simp [startsDigits, hc]
    | false =>
      by_cases hpoint : c = '.'
      · simp [startsDigits, hpoint]
      · simp [fractionOf, hc, hpoint] at h

theorem readBody_of_ok {negative : Bool} (h : readBody s negative body = .ok bits) :
    (∃ c cs, body = c :: cs ∧ startsDigits c = true) ∧
      ∀ (other : String) (sign : Bool), ∃ result, readBody other sign body = .ok result := by
  simp only [readBody] at h ⊢
  split at h
  · cases h
  · rename_i exponent hexponent
    split at h
    · rename_i hdigits
      simp only [Bool.and_eq_true, Bool.not_eq_true'] at hdigits
      exact ⟨startsDigits_of_fraction hdigits.2, fun other sign => by simp [hdigits]⟩
    · cases h

theorem exists_readDecimal_of_minus (hs : s.toList = '-' :: raw.toList)
    (h : readDecimal s = .ok bits) : ∃ other, readDecimal raw = .ok other := by
  have hminus : takeSign (dropRightWhile isPadding (s.toList.dropWhile isPadding)) =
      (true, dropRightWhile isPadding raw.toList) := by
    rw [hs, dropWhile_cons_of_neg (by decide), dropRightWhile_cons (by decide)]
    rfl
  rw [readDecimal_eq, hminus] at h
  obtain ⟨⟨c, cs, hbody, hc⟩, hread⟩ := readBody_of_ok h
  have hraw : raw.toList.dropWhile isPadding = raw.toList := by
    obtain ⟨more, hmore⟩ := rdropWhile_prefix isPadding raw.toList
    rw [show List.rdropWhile isPadding raw.toList = c :: cs from hbody] at hmore
    rw [← hmore, cons_append,
      dropWhile_cons_of_neg (by simp [isPadding_of_startsDigits hc])]
  have hfirst : takeSign (dropRightWhile isPadding (raw.toList.dropWhile isPadding)) =
      (false, dropRightWhile isPadding raw.toList) := by
    rw [hraw, hbody, takeSign_of_startsDigits hc]
  rw [readDecimal_eq, hfirst]
  exact hread raw false

theorem exists_read_of_minus (hs : s.toList = '-' :: raw.toList) {n : Number} (h : read s = .ok n) :
    ∃ m, read raw = .ok m := by
  have hpoint : s.toList.contains '.' = raw.toList.contains '.' := by
    rw [hs]
    simp
  unfold read at h ⊢
  rw [hpoint] at h
  split
  · rename_i hdecimal
    rw [if_pos hdecimal] at h
    cases hread : readDecimal s with
    | error error =>
      rw [hread] at h
      cases h
    | ok bits =>
      obtain ⟨other, hother⟩ := exists_readDecimal_of_minus hs hread
      exact ⟨.decimal other, by rw [hother]; rfl⟩
  · rename_i hinteger
    rw [if_neg hinteger] at h
    cases hread : readInteger s with
    | error error =>
      rw [hread] at h
      cases h
    | ok value =>
      obtain ⟨other, hother⟩ := exists_readInteger_of_minus hs hread
      exact ⟨.integer other, by rw [hother]; rfl⟩

end GuidedTrack.Numeral
