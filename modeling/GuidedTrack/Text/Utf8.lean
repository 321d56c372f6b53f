import GuidedTrack.Text.Quoted

/-! # UTF-8

Texts as bytes. Bytes that encode no text are refused at the first sequence that is wrong.
-/

namespace GuidedTrack.Text.Utf8

inductive Reason where
  | badStart
  | badContinuation
  | truncated
  deriving DecidableEq, Repr

/-- A wrong sequence: where it starts, how many bytes belong to it, and its first byte. -/
structure Error where
  start : Nat
  length : Nat
  byte : UInt8
  reason : Reason
  deriving DecidableEq, Repr

namespace Reason

def message : Reason → String
  | badStart => "invalid start byte"
  | badContinuation => "invalid continuation byte"
  | truncated => "unexpected end of data"

end Reason

namespace Error

def message (error : Error) : String :=
  let place :=
    if error.length = 1 then
      s!"byte 0x{String.ofList (hexDigits 2 error.byte.toNat)} in position {error.start}"
    else s!"bytes in position {error.start}-{error.start + error.length - 1}"
  s!"'utf-8' codec can't decode {place}: {error.reason.message}"

end Error

/-- What a first byte above the ASCII range announces: the number of bytes to follow, the least and
the greatest value of the next one, and the bits that it gives itself. -/
structure Lead where
  following : Nat
  least : Nat
  greatest : Nat
  bits : Nat

/-- Reads a first byte above the ASCII range. Bounds on the next byte keep out long forms,
surrogates and what lies beyond the last character. -/
def lead? (b : Nat) : Option Lead :=
  if b < 0xC2 then none
  else if b < 0xE0 then some ⟨1, 0x80, 0xBF, b - 0xC0⟩
  else if b < 0xF0 then
    some ⟨2, if b = 0xE0 then 0xA0 else 0x80, if b = 0xED then 0x9F else 0xBF, b - 0xE0⟩
  else if b < 0xF5 then
    some ⟨3, if b = 0xF0 then 0x90 else 0x80, if b = 0xF4 then 0x8F else 0xBF, b - 0xF0⟩
  else none

/-- Reads `following` more bytes of a sequence: its value and what is left, or how many bytes were
right and why the next is not. -/
def tail : (following least greatest value taken : Nat) → List UInt8 →
    Except (Nat × Reason) (Nat × List UInt8)
  | 0, _, _, value, _, rest => .ok (value, rest)
  | _ + 1, _, _, _, taken, [] => .error (taken, .truncated)
  | following + 1, least, greatest, value, taken, b :: rest =>
    if least ≤ b.toNat ∧ b.toNat ≤ greatest then
      tail following 0x80 0xBF (value * 64 + (b.toNat - 0x80)) (taken + 1) rest
    else .error (taken, .badContinuation)

theorem tail_length {following least greatest value taken result : Nat} {bytes rest : List UInt8}
    (h : tail following least greatest value taken bytes = .ok (result, rest)) :
    rest.length ≤ bytes.length := by
  induction following generalizing least greatest value taken bytes with
  | zero => simp_all [tail]
  | succ following ih =>
    cases bytes with
    | nil => simp [tail] at h
    | cons b bytes =>
      simp only [tail] at h
      split at h
      · have := ih h
        simp only [List.length_cons]
        omega
      · simp at h

def decodeChar (position : Nat) (b : UInt8) (rest : List UInt8) :
    Except Error (Char × List UInt8) :=
  match lead? b.toNat with
  | none => .error ⟨position, 1, b, .badStart⟩
  | some lead =>
    match tail lead.following lead.least lead.greatest lead.bits 1 rest with
    | .ok (value, rest) => .ok (Char.ofNat value, rest)
    | .error (taken, reason) => .error ⟨position, taken, b, reason⟩

theorem decodeChar_length {position : Nat} {b : UInt8} {bytes rest : List UInt8} {c : Char}
    (h : decodeChar position b bytes = .ok (c, rest)) : rest.length ≤ bytes.length := by
  unfold decodeChar at h
  split at h
  · simp at h
  · split at h
    · rename_i htail
      have := tail_length htail
      simp_all
    · simp at h

def decodeFrom (position : Nat) : List UInt8 → Except Error (List Char)
  | [] => .ok []
  | b :: rest =>
    if b.toNat < 0x80 then
      (decodeFrom (position + 1) rest).map (Char.ofNat b.toNat :: ·)
    else
      match h : decodeChar position b rest with
      | .error error => .error error
      | .ok (c, left) =>
        have := decodeChar_length h
        (decodeFrom (position + 1 + (rest.length - left.length)) left).map (c :: ·)
termination_by bytes => bytes.length
decreasing_by all_goals simp <;> omega

def decode (bytes : List UInt8) : Except Error String :=
  (decodeFrom 0 bytes).map String.ofList

def encode (s : String) : List UInt8 :=
  s.toList.flatMap String.utf8EncodeChar

end GuidedTrack.Text.Utf8
