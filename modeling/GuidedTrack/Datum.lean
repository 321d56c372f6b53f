import GuidedTrack.Numeral

/-! # Configuration data

The values that a configuration file or a request holds before they are checked.
-/

namespace GuidedTrack

/-- A value. A decimal is kept as the bits of its binary64; a date has no use in a configuration, so
its value is not kept. -/
inductive Datum where
  | null
  | bool (value : Bool)
  | integer (value : Int)
  | decimal (bits : UInt64)
  | date
  | text (value : String)
  | list (items : List Datum)
  | map (entries : List (Datum × Datum))
  deriving Inhabited

namespace Datum

def integral? (bits : UInt64) : Option Int :=
  let n := bits.toNat
  let exponent : Int := (n % Numeral.signUnit / Numeral.exponentUnit : Nat)
  let fraction := n % Numeral.exponentUnit
  let significand := if exponent = 0 then fraction else fraction + Numeral.exponentUnit
  let scale := max exponent 1 - 1075
  let magnitude? :=
    if exponent = 0x7FF then none
    else if 0 ≤ scale then some (significand * Nat.pow 2 scale.toNat)
    else
      let divisor := Nat.pow 2 (-scale).toNat
      if significand % divisor = 0 then some (significand / divisor) else none
  magnitude?.map fun magnitude : Nat =>
    if Numeral.signUnit ≤ n then -(magnitude : Int) else magnitude

def isFinite (bits : UInt64) : Bool :=
  bits.toNat % Numeral.signUnit < Numeral.infinityBits

end Datum
end GuidedTrack
