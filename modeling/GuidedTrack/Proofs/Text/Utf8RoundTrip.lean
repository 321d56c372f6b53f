import GuidedTrack.Text.Utf8

/-! # Texts as bytes

What is written for a text is read as that text.
-/

namespace GuidedTrack.Text.Utf8

theorem toNat_ofNat {n : Nat} (h : n < 256) : (UInt8.ofNat n).toNat = n :=
  UInt8.toNat_ofNat_of_lt' h

theorem tail_cons {following least greatest value taken n : Nat} (hleast : least ≤ n)
    (hgreatest : n ≤ greatest) (hbyte : n < 256) (rest : List UInt8) :
    tail (following + 1) least greatest value taken (UInt8.ofNat n :: rest) =
      tail following 0x80 0xBF (value * 64 + (n - 0x80)) (taken + 1) rest := by
  rw [tail, toNat_ofNat hbyte, if_pos ⟨hleast, hgreatest⟩]

section

variable {v : Nat} (position : Nat) (rest : List UInt8)

theorem decodeChar_two (hleast : 0x7F < v) (hgreatest : v ≤ 0x7FF) :
    decodeChar position (UInt8.ofNat (v / 64 % 32 + 192)) (UInt8.ofNat (v % 64 + 128) :: rest) =
      .ok (Char.ofNat v, rest) := by
  have hlead : lead? (v / 64 % 32 + 192) = some ⟨1, 0x80, 0xBF, v / 64 % 32 + 192 - 0xC0⟩ := by
    rw [lead?, if_neg (by omega), if_pos (by omega)]
  rw [decodeChar, toNat_ofNat (by omega), hlead]
  dsimp only
  rw [tail_cons (by omega) (by omega) (by omega), tail]
  have hvalue : (v / 64 % 32 + 192 - 0xC0) * 64 + (v % 64 + 128 - 0x80) = v := by omega
  rw [hvalue]

theorem decodeChar_three (hleast : 0x7FF < v) (hgreatest : v ≤ 0xFFFF)
    (hvalid : v < 0xD800 ∨ 0xDFFF < v) :
    decodeChar position (UInt8.ofNat (v / 4096 % 16 + 224))
        (UInt8.ofNat (v / 64 % 64 + 128) :: UInt8.ofNat (v % 64 + 128) :: rest) =
      .ok (Char.ofNat v, rest) := by
  have hlead : lead? (v / 4096 % 16 + 224) = some ⟨2,
      if v / 4096 % 16 + 224 = 0xE0 then 0xA0 else 0x80,
      if v / 4096 % 16 + 224 = 0xED then 0x9F else 0xBF, v / 4096 % 16 + 224 - 0xE0⟩ := by
    rw [lead?, if_neg (by omega), if_neg (by omega), if_pos (by omega)]
  rw [decodeChar, toNat_ofNat (by omega), hlead]
  dsimp only
  -- the bounds on the second byte keep out what two bytes can say and the surrogates
  rw [tail_cons (by split <;> omega) (by split <;> omega) (by omega),
    tail_cons (by omega) (by omega) (by omega), tail]
  have hvalue : ((v / 4096 % 16 + 224 - 0xE0) * 64 + (v / 64 % 64 + 128 - 0x80)) * 64 +
      (v % 64 + 128 - 0x80) = v := by omega
  rw [hvalue]

theorem decodeChar_four (hleast : 0xFFFF < v) (hgreatest : v < 0x110000) :
    decodeChar position (UInt8.ofNat (v / 262144 % 8 + 240))
        (UInt8.ofNat (v / 4096 % 64 + 128) :: UInt8.ofNat (v / 64 % 64 + 128) ::
          UInt8.ofNat (v % 64 + 128) :: rest) =
      .ok (Char.ofNat v, rest) := by
  have hlead : lead? (v / 262144 % 8 + 240) = some ⟨3,
      if v / 262144 % 8 + 240 = 0xF0 then 0x90 else 0x80,
      if v / 262144 % 8 + 240 = 0xF4 then 0x8F else 0xBF, v / 262144 % 8 + 240 - 0xF0⟩ := by
    rw [lead?, if_neg (by omega), if_neg (by omega), if_neg (by omega), if_pos (by omega)]
  rw [decodeChar, toNat_ofNat (by omega), hlead]
  dsimp only
  rw [tail_cons (by split <;> omega) (by split <;> omega) (by omega),
    tail_cons (by omega) (by omega) (by omega), tail_cons (by omega) (by omega) (by omega), tail]
  have hvalue : (((v / 262144 % 8 + 240 - 0xF0) * 64 + (v / 4096 % 64 + 128 - 0x80)) * 64 +
      (v / 64 % 64 + 128 - 0x80)) * 64 + (v % 64 + 128 - 0x80) = v := by omega
  rw [hvalue]

end

theorem decodeFrom_of_decodeChar {position n : Nat} {rest left : List UInt8} {c : Char}
    {cs : List Char} (hleast : 0x80 ≤ n) (hbyte : n < 256)
    (hchar : ∀ position, decodeChar position (UInt8.ofNat n) rest = .ok (c, left))
    (hleft : ∀ position, decodeFrom position left = .ok cs) :
    decodeFrom position (UInt8.ofNat n :: rest) = .ok (c :: cs) := by
  rw [decodeFrom, toNat_ofNat hbyte, if_neg (by omega)]
  split
  · rename_i heq
    rw [hchar] at heq
    cases heq
  · rename_i heq
    rw [hchar] at heq
    cases heq
    rw [hleft]
    rfl

theorem decodeFrom_utf8EncodeChar {rest : List UInt8} {cs : List Char}
    (hrest : ∀ position, decodeFrom position rest = .ok cs) (c : Char) (position : Nat) :
    decodeFrom position (String.utf8EncodeChar c ++ rest) = .ok (c :: cs) := by
  have hc : Char.ofNat c.val.toNat = c := Char.ofNat_toNat c
  have hvalid : c.val.toNat < 0xD800 ∨ 0xDFFF < c.val.toNat ∧ c.val.toNat < 0x110000 := c.valid
  unfold String.utf8EncodeChar
  generalize c.val.toNat = v at hc hvalid ⊢
  dsimp only
  split
  · rw [List.singleton_append, decodeFrom, toNat_ofNat (by omega), if_pos (by omega), hrest, hc]
    rfl
  split
  · refine decodeFrom_of_decodeChar (by omega) (by omega) (fun position => ?_) hrest
    exact (decodeChar_two position rest (by omega) (by omega)).trans (by rw [hc])
  split
  · refine decodeFrom_of_decodeChar (by omega) (by omega) (fun position => ?_) hrest
    exact (decodeChar_three position rest (by omega) (by omega) (by omega)).trans (by rw [hc])
  · refine decodeFrom_of_decodeChar (by omega) (by omega) (fun position => ?_) hrest
    exact (decodeChar_four position rest (by omega) (by omega)).trans (by rw [hc])

theorem decodeFrom_flatMap (cs : List Char) (position : Nat) :
    decodeFrom position (cs.flatMap String.utf8EncodeChar) = .ok cs := by
  induction cs generalizing position with
  | nil => rw [List.flatMap_nil, decodeFrom]
  | cons c cs ih => exact decodeFrom_utf8EncodeChar ih c position

theorem decode_encode (s : String) : decode (encode s) = .ok s := by
  rw [decode, encode, decodeFrom_flatMap]
  exact congrArg Except.ok String.ofList_toList

end GuidedTrack.Text.Utf8
