import GuidedTrack.Datum

/-! # Plain scalars

What an unquoted scalar stands for: a null, a truth value, a number, a date, or else its own text.
-/

namespace GuidedTrack.Yaml

def untypedWords : List String :=
  ["=", "<<"]

def nullWords : List String :=
  ["", "~", "null", "Null", "NULL"]

def trueWords : List String :=
  ["yes", "Yes", "YES", "true", "True", "TRUE", "on", "On", "ON"]

def falseWords : List String :=
  ["no", "No", "NO", "false", "False", "FALSE", "off", "Off", "OFF"]

def digitOf? (base : Nat) (c : Char) : Option Nat :=
  let n :=
    if c.isDigit then c.toNat - '0'.toNat
    else if 'a' ≤ c && c ≤ 'f' then c.toNat - 'a'.toNat + 10
    else if 'A' ≤ c && c ≤ 'F' then c.toNat - 'A'.toNat + 10
    else base
  if n < base then some n else none

def digits? (base : Nat) (cs : List Char) : Option Nat :=
  let digits := cs.filter (· != '_')
  if digits.isEmpty then none
  else (digits.mapM (digitOf? base)).map fun values => values.foldl (fun n d => base * n + d) 0

def splitColons : List Char → List (List Char)
  | [] => [[]]
  | c :: rest =>
    match splitColons rest with
    | [] => [[c]]
    | part :: more => if c == ':' then [] :: part :: more else (c :: part) :: more

/-- One place of a number to the base sixty: one digit, or two of which the first is below six. -/
def sixtieth? : List Char → Option Nat
  | [a] => digitOf? 10 a
  | [a, b] => do return 10 * (← digitOf? 6 a) + (← digitOf? 10 b)
  | _ => none

def natural? : List Char → Option Nat
  | ['0'] => some 0
  | '0' :: 'b' :: rest => digits? 2 rest
  | '0' :: 'x' :: rest => digits? 16 rest
  | '0' :: rest =>
    if rest.all (· == '_') then some 0 else digits? 8 rest
  | c :: rest =>
    if !c.isDigit then none
    else match splitColons (c :: rest) with
      | first :: more => do
          let first ← digits? 10 first
          let places ← more.mapM sixtieth?
          return places.foldl (fun n place => 60 * n + place) first
      | [] => none
  | [] => none

def integer? (cs : List Char) : Option Int :=
  let (negative, body) := Numeral.takeSign cs
  (natural? body).map fun n : Nat => if negative then -(n : Int) else n

def isDigits (cs : List Char) : Bool :=
  cs.head?.any Char.isDigit && cs.all fun c => c.isDigit || c == '_'

def isExponent : List Char → Bool
  | [] => true
  | e :: sign :: rest =>
    (e == 'e' || e == 'E') && (sign == '+' || sign == '-') &&
      !rest.isEmpty && rest.all Char.isDigit
  | _ => false

/-- The bits of a decimal. A sign stands only before digits or an infinity. -/
def decimal? (cs : List Char) : Option UInt64 :=
  let (negative, body) := Numeral.takeSign cs
  let signed := body.length < cs.length
  let whole := body.takeWhile (· != '.')
  let plain := body.filter (· != '_')
  match body.dropWhile (· != '.') with
  | '.' :: rest =>
    let fraction := rest.takeWhile fun c => c.isDigit || c == '_'
    let exponent := rest.dropWhile fun c => c.isDigit || c == '_'
    if rest == "inf".toList || rest == "Inf".toList || rest == "INF".toList then
      if whole.isEmpty then
        some (if negative then 0xFFF0000000000000 else 0x7FF0000000000000)
      else none
    else if rest == "nan".toList || rest == "NaN".toList || rest == "NAN".toList then
      if whole.isEmpty && !signed then some 0x7FF8000000000000 else none
    else if (isDigits whole || (whole.isEmpty && !signed && isDigits fraction)) &&
        isExponent exponent then
      (Numeral.readDecimal (String.ofList (if negative then '-' :: plain else plain))).toOption
    else none
  | _ => none

def isDate : List Char → Bool
  | [a, b, c, d, '-', e, f, '-', g, h] => [a, b, c, d, e, f, g, h].all Char.isDigit
  | _ => false

def ofPlain (text : String) : Datum :=
  let cs := text.toList
  if nullWords.contains text then .null
  else if trueWords.contains text then .bool true
  else if falseWords.contains text then .bool false
  else match decimal? cs, integer? cs with
    | some bits, _ => .decimal bits
    | none, some value => .integer value
    | none, none => if isDate cs then .date else .text text

end GuidedTrack.Yaml
