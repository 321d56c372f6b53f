import GuidedTrack.Text.Blank
import GuidedTrack.Text.Digit
import GuidedTrack.Text.Quoted

/-! # Reading numerals

A numeral with a point is read as the nearest binary64, any other as an integer of any size. Digits
may be decimal digits of any script, single underscores may stand between digits, and blanks may
surround the whole.
-/

namespace GuidedTrack

/-- The value of a numeral. A decimal is kept as the bits of its nearest binary64. -/
inductive Number where
  | integer (value : Int)
  | decimal (bits : UInt64)
  deriving DecidableEq, Repr

namespace Numeral

inductive Error where
  | malformedInteger (text : String)
  | malformedDecimal (text : String)
  | tooManyDigits (count : Nat)
  deriving DecidableEq, Repr

def maxDigits : Nat := 4300

def maxQuotation : Nat := 200

namespace Error

def message : Error → String
  | malformedInteger text =>
    "invalid literal for int() with base 10: " ++
      String.ofList ((Text.quoted text).toList.take maxQuotation)
  | malformedDecimal text => "could not convert string to float: " ++ Text.quoted text
  | tooManyDigits count =>
    s!"Exceeds the limit ({maxDigits} digits) for integer string conversion: value has " ++
      s!"{count} digits; use sys.set_int_max_str_digits() to increase the limit"

end Error

/-- Blanks allowed around a numeral: of the ASCII characters, the information separators are not. -/
def isPadding (c : Char) : Bool :=
  Text.isBlank c && !(0x1C ≤ c.toNat && c.toNat ≤ 0x1F)

/-- Whether each underscore stands between two characters that are none. -/
def singleUnderscores : List Char → Bool
  | [] => true
  | [c] => c != '_'
  | c :: d :: rest => !(c == '_' && d == '_') && singleUnderscores (d :: rest)

/-- A run of digits and underscores in which every underscore divides two digits. -/
def isDigitRun (cs : List Char) : Bool :=
  cs.head? != some '_' && singleUnderscores cs

def digitValues (cs : List Char) : List Nat :=
  cs.filterMap Text.decimalValue?

def ofDigits (digits : List Nat) : Nat :=
  digits.foldl (fun n d => 10 * n + d) 0

/-- Takes a sign off the front: whether it is a minus, and what follows. -/
def takeSign : List Char → Bool × List Char
  | '-' :: rest => (true, rest)
  | '+' :: rest => (false, rest)
  | cs => (false, cs)

def isRunChar (c : Char) : Bool :=
  (Text.decimalValue? c).isSome || c == '_'

/-- Reads an integer. A run of digits that is too long is refused before what follows it is looked
at. -/
def readInteger (s : String) : Except Error Int :=
  let (negative, body) := takeSign (s.toList.dropWhile isPadding)
  let run := body.takeWhile isRunChar
  let digits := digitValues run
  if !isDigitRun run then .error (.malformedInteger s)
  else if maxDigits < digits.length then .error (.tooManyDigits digits.length)
  else if digits.isEmpty || !(body.dropWhile isRunChar).all isPadding then
    .error (.malformedInteger s)
  else
    let n : Int := ofDigits digits
    .ok (if negative then -n else n)

def exponentUnit : Nat := 0x10000000000000

def signUnit : Nat := 0x8000000000000000

def infinityBits : Nat := 0x7FF0000000000000

/-- The binary64 bits nearest to `num / den`, a tie going to the even significand; both must be
positive. The exponent `e` makes the significand `num / (den * 2 ^ e)` fill 53 bits, or is the least
one, and the bits of the double are `significand + (e + 1074) * 2 ^ 52` in all cases short of
infinity. -/
def nearestBits (num den : Nat) : Nat :=
  let guess : Int := (num.log2 : Int) - den.log2 - 52
  let scaled (e : Int) : Nat × Nat := (num * Nat.pow 2 (-e).toNat, den * Nat.pow 2 e.toNat)
  let fits (e : Int) : Bool := let (n, d) := scaled e; exponentUnit ≤ n / d
  let e : Int := max (-1074) (if fits guess then guess else guess - 1)
  let (n, d) := scaled e
  let q := n / d
  let r := n % d
  let rounded := if 2 * r < d || (2 * r == d && q % 2 == 0) then q else q + 1
  min infinityBits (rounded + (e + 1074).toNat * exponentUnit)

/-- The binary64 bits nearest to `significand * 10 ^ exponent`. Exponents beyond the range of the
format are settled before any power is taken. -/
def decimalBits (negative : Bool) (significand : Nat) (exponent : Int) : UInt64 :=
  let size : Int := (Nat.toDigits 10 significand).length + exponent
  let magnitude :=
    if significand = 0 || size < -400 then 0
    else if 400 < size then infinityBits
    else nearestBits (significand * Nat.pow 10 exponent.toNat) (Nat.pow 10 (-exponent).toNat)
  UInt64.ofNat (if negative then magnitude + signUnit else magnitude)

/-- Reads the exponent part of a decimal, which may be missing: its value, if it is well formed. -/
def readExponent? : List Char → Option Int
  | [] => some 0
  | e :: rest =>
    let (negative, run) := takeSign rest
    let n : Int := ofDigits (digitValues run)
    if (e == 'e' || e == 'E') && !run.isEmpty && run.all isRunChar && isDigitRun run then
      some (if negative then -n else n)
    else none

/-- Reads a decimal: digits around a point, of which one side may be empty, and an exponent. -/
def readDecimal (s : String) : Except Error UInt64 :=
  let padded := s.toList.dropWhile isPadding
  let (negative, body) := takeSign (Text.dropRightWhile isPadding padded)
  let whole := body.takeWhile isRunChar
  let (fraction, tail) :=
    match body.dropWhile isRunChar with
    | '.' :: rest => (rest.takeWhile isRunChar, rest.dropWhile isRunChar)
    | rest => ([], rest)
  match readExponent? tail with
  | none => .error (.malformedDecimal s)
  | some exponent =>
    if isDigitRun whole && isDigitRun fraction && !(whole.isEmpty && fraction.isEmpty) then
      let fractionDigits := digitValues fraction
      let significand := ofDigits (digitValues whole ++ fractionDigits)
      .ok (decimalBits negative significand (exponent - fractionDigits.length))
    else .error (.malformedDecimal s)

def read (s : String) : Except Error Number :=
  if s.toList.contains '.' then (readDecimal s).map .decimal else (readInteger s).map .integer

end Numeral

/-- A reading whose result passes a test has a result. -/
theorem exists_ok_of_any {α : Type} (result : Except Numeral.Error α) (test : α → Bool)
    (h : result.toOption.any test = true) : ∃ value, result = .ok value ∧ test value = true := by
  cases result with
  | error => cases h
  | ok value => exact ⟨value, rfl, h⟩

end GuidedTrack
