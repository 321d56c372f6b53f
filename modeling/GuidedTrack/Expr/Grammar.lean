import GuidedTrack.Expr
import GuidedTrack.Fault

/-! # The grammar of expressions

A reader by recursive descent. From loosest to tightest the operators are `or`, `and`, `=`, the
comparisons, `in`, the sums, the products, the signs and the postfix forms; all binary operators
associate to the left. How a string literal becomes an expression is a parameter, since it may embed
expressions.

The scanner folds a minus into a numeral that directly follows it. After a complete operand such a
numeral is read as the subtraction of the unsigned numeral.
-/

namespace GuidedTrack.Expr

/-- What is left to read, where it ends, and the faults met so far in embedded expressions. -/
structure Cursor where
  rest : List Token
  stop : Position
  faults : List Fault

inductive Stop where
  | fault (fault : Fault)
  | numeral (error : Numeral.Error)

abbrev Reader := EStateM Stop Cursor

/-- How the token of a string literal is read: its expression, and the faults inside it. -/
abbrev StringReader := Token → Except Numeral.Error (Expr × List Fault)

namespace Reader

def peek : Reader (Option Token) :=
  return (← get).rest.head?

def peekKind : Reader (Option Token.Kind) :=
  return (← get).rest.head?.map Token.kind

def skip : Reader Unit :=
  modify fun cursor => { cursor with rest := cursor.rest.tail }

def fail {α : Type} (cause : Fault.Found → Fault.Cause) : Reader α := do
  let cursor ← get
  let position := (cursor.rest.head?.map fun token => token.span.start).getD cursor.stop
  throw (.fault ⟨position, cause (.ofTokens cursor.rest)⟩)

def expect (kind : Token.Kind) : Reader Token := do
  match ← peek with
  | some token =>
    if token.kind = kind then skip; return token
    else fail (.expected kind)
  | none => fail (.expected kind)

def numeral (text : String) : Reader Literal :=
  match Numeral.read text with
  | .ok value => return .number value
  | .error error => throw (.numeral error)

def string (strings : StringReader) (token : Token) : Reader Expr :=
  match strings token with
  | .ok (value, faults) => do
      modify fun cursor => { cursor with faults := cursor.faults ++ faults }
      return value
  | .error error => throw (.numeral error)

end Reader

open Reader

abbrev Tier := List BinaryOp

/-- The levels above sums, loosest first. -/
def tiers : List Tier :=
  [[.or], [.and], [.equal], [.less, .greater, .atMost, .atLeast], [.isIn]]

def operator? (tier : Tier) (token : Token) : Option BinaryOp :=
  if token.kind = .operator then tier.find? fun op => op.symbol == token.text else none

def sign? (token : Token) : Option UnaryOp :=
  if token.kind = .operator then
    [UnaryOp.not, .negate].find? fun op => op.symbol == token.text
  else none

def negated? (token : Token) : Option String :=
  match token.kind, token.text.toList with
  | .number, '-' :: digits => some (String.ofList digits)
  | _, _ => none

def unsigned (token : Token) (raw : String) : Reader Expr := do
  let value ← numeral raw
  return .literal ⟨token.span.start.advance 1, token.span.stop⟩ value raw

mutual

/-- Reads an expression of the loosest of the given levels. The fuel bounds the depth of the
descent. -/
def readTiers (strings : StringReader) : Nat → List Tier → Reader Expr
  | 0, _ => fail .unexpected
  | fuel + 1, [] => readSum strings fuel
  | fuel + 1, tier :: tighter => do
      let left ← readTiers strings fuel tighter
      readTierTail strings fuel tier tighter left

def readTierTail (strings : StringReader) : Nat → Tier → List Tier → Expr → Reader Expr
  | 0, _, _, _ => fail .unexpected
  | fuel + 1, tier, tighter, left => do
      match (← peek).bind (operator? tier) with
      | none => return left
      | some op =>
        skip
        let right ← readTiers strings fuel tighter
        readTierTail strings fuel tier tighter (join op left right)

def readSum (strings : StringReader) : Nat → Reader Expr
  | 0 => fail .unexpected
  | fuel + 1 => do
      let first ← readSign strings fuel
      let left ← readProductTail strings fuel first
      readSumTail strings fuel left

def readSumTail (strings : StringReader) : Nat → Expr → Reader Expr
  | 0, _ => fail .unexpected
  | fuel + 1, left => do
      let some token ← peek | return left
      match operator? [.add, .subtract] token, negated? token with
      | some op, _ =>
        skip
        let first ← readSign strings fuel
        let right ← readProductTail strings fuel first
        readSumTail strings fuel (join op left right)
      | none, some raw =>
        skip
        let first ← unsigned token raw
        let right ← readProductTail strings fuel first
        readSumTail strings fuel (join .subtract left right)
      | none, none => return left

def readProductTail (strings : StringReader) : Nat → Expr → Reader Expr
  | 0, _ => fail .unexpected
  | fuel + 1, left => do
      match (← peek).bind (operator? [.multiply, .divide, .remainder]) with
      | none => return left
      | some op =>
        skip
        let right ← readSign strings fuel
        readProductTail strings fuel (join op left right)

def readSign (strings : StringReader) : Nat → Reader Expr
  | 0 => fail .unexpected
  | fuel + 1 => do
      let some token ← peek | readPostfix strings fuel
      match sign? token with
      | none => readPostfix strings fuel
      | some op =>
        skip
        let argument ← readSign strings fuel
        return .unary ⟨token.span.start, argument.span.stop⟩ op argument

def readPostfix (strings : StringReader) : Nat → Reader Expr
  | 0 => fail .unexpected
  | fuel + 1 => do
      let value ← readPrimary strings fuel
      readPostfixTail strings fuel value

def readPostfixTail (strings : StringReader) : Nat → Expr → Reader Expr
  | 0, _ => fail .unexpected
  | fuel + 1, value => do
      match ← peekKind with
      | some .leftParen =>
        skip
        let arguments ← readItems strings fuel .rightParen
        let close ← expect .rightParen
        readPostfixTail strings fuel
          (.call ⟨value.span.start, close.span.stop⟩ value arguments)
      | some .leftBracket =>
        skip
        let index ← readTiers strings fuel tiers
        let close ← expect .rightBracket
        readPostfixTail strings fuel (.index ⟨value.span.start, close.span.stop⟩ value index)
      | some .dot =>
        skip
        let name ← expect .identifier
        readPostfixTail strings fuel
          (.member ⟨value.span.start, name.span.stop⟩ value ⟨name.span, name.text⟩)
      | _ => return value

/-- Reads expressions between commas, up to the closing bracket; a comma may stand before it. -/
def readItems (strings : StringReader) : Nat → Token.Kind → Reader (List Expr)
  | 0, _ => fail .unexpected
  | fuel + 1, closing => do
      let kind ← peekKind
      if kind = none || kind = some closing then return []
      let item ← readTiers strings fuel tiers
      if (← peekKind) = some .comma then
        skip
        let more ← readItems strings fuel closing
        return item :: more
      else return [item]

def readEntries (strings : StringReader) : Nat → Reader (List Entry)
  | 0 => fail .unexpected
  | fuel + 1 => do
      let kind ← peekKind
      if kind = none || kind = some .rightBrace then return []
      let key ← readTiers strings fuel tiers
      let _ ← expect .arrow
      let value ← readTiers strings fuel tiers
      let entry := Entry.mk ⟨key.span.start, value.span.stop⟩ key value
      if (← peekKind) = some .comma then
        skip
        let more ← readEntries strings fuel
        return entry :: more
      else return [entry]

def readPrimary (strings : StringReader) : Nat → Reader Expr
  | 0 => fail .unexpected
  | fuel + 1 => do
      let some token ← peek | fail .unexpected
      match token.kind with
      | .number =>
        skip
        let value ← numeral token.text
        return .literal token.span value token.text
      | .string =>
        skip
        string strings token
      | .identifier =>
        skip
        return .identifier ⟨token.span, token.text⟩
      | .leftParen =>
        skip
        let inner ← readTiers strings fuel tiers
        let _ ← expect .rightParen
        return inner
      | .leftBracket =>
        skip
        let elements ← readItems strings fuel .rightBracket
        let close ← expect .rightBracket
        return .array ⟨token.span.start, close.span.stop⟩ elements
      | .leftBrace =>
        skip
        let entries ← readEntries strings fuel
        let close ← expect .rightBrace
        return .object ⟨token.span.start, close.span.stop⟩ entries
      | _ => fail .unexpected

end

/-- Fuel for any list of `n` tokens: between two tokens that are consumed the descent passes each of
its levels at most once. -/
def fuelFor (n : Nat) : Nat :=
  16 * (n + 1)

/-- Reads `target = value` if the tokens start so, else nothing. -/
def readAssignment (strings : StringReader) (fuel : Nat) : Reader (Option Expr) := do
  let target ← readPostfix strings fuel
  match (← peek).bind (operator? [.equal]) with
  | none => return none
  | some op =>
    skip
    let value ← readTiers strings fuel tiers
    return some (join op target value)

/-- Reads an expression. With `assignment`, an assignment is tried first; when it does not succeed
the reading starts over from the same place, and only a malformed numeral ends it for good. -/
def readExpression (strings : StringReader) (assignment : Bool) (fuel : Nat) : Reader Expr :=
  fun cursor =>
    if assignment then
      match readAssignment strings fuel cursor with
      | .ok (some value) after => .ok value after
      | .error (.numeral error) after => .error (.numeral error) after
      | _ => readTiers strings fuel tiers cursor
    else readTiers strings fuel tiers cursor

/-- Reads an expression and makes sure that no token is left over. -/
def readWhole (strings : StringReader) (assignment : Bool) (fuel : Nat) : Reader Expr := do
  let value ← readExpression strings assignment fuel
  match ← peek with
  | none => return value
  | some token => throw (.fault ⟨token.span.start, .leftover token.text⟩)

/-- Reads a list of tokens as one expression, comments left out. A fault in it leaves no expression
and is recorded after the faults of the strings read before it; an empty list is a fault at
`anchor`. -/
def ofTokensWith (strings : StringReader) (assignment : Bool) (anchor : Position)
    (tokens : List Token) : Except Numeral.Error (Option Expr × List Fault) :=
  let tokens := tokens.filter (·.kind ≠ .comment)
  match tokens.getLast? with
  | none => .ok (none, [⟨anchor, .missingExpression⟩])
  | some last =>
    match readWhole strings assignment (fuelFor tokens.length) ⟨tokens, last.span.stop, []⟩ with
    | .ok value cursor => .ok (some value, cursor.faults)
    | .error (.fault fault) cursor => .ok (none, cursor.faults ++ [fault])
    | .error (.numeral error) _ => .error error

end GuidedTrack.Expr
