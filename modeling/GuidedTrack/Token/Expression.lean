import GuidedTrack.Text.Blank
import GuidedTrack.Text.Digit
import GuidedTrack.Text.Lowercase
import GuidedTrack.Vocabulary

/-! # Scanning expressions

An expression is scanned to the end of its line; an expression inside `{ }` is scanned up to the
brace that closes it. A scan never fails: what starts no lexeme is a token of its own of kind
`error`.
-/

namespace GuidedTrack.Token

open Text

def isQuote (c : Char) : Bool :=
  c == '"' || c == '\''

def isIdentifierStart (c : Char) : Bool :=
  isLetter c || c == '_'

def isIdentifierChar (c : Char) : Bool :=
  isAlphanumeric c || c == '_'

def symbolOperators : List Char :=
  ['+', '-', '*', '/', '%', '=', '<', '>']

def punctuation? : Char → Option Kind
  | '(' => some .leftParen
  | ')' => some .rightParen
  | '[' => some .leftBracket
  | ']' => some .rightBracket
  | '{' => some .leftBrace
  | '}' => some .rightBrace
  | ',' => some .comma
  | '.' => some .dot
  | ':' => some .colon
  | _ => none

/-- The length of the longest unsigned numeral in front: digits, and a fraction if a digit follows
the point. -/
def numeralLength (cs : List Char) : Nat :=
  let whole := (cs.takeWhile isDigit).length
  match cs.dropWhile isDigit with
  | '.' :: rest =>
    let fraction := (rest.takeWhile isDigit).length
    if fraction = 0 then whole else whole + 1 + fraction
  | _ => whole

/-- The literal that an opening quote starts: up to the next such quote, or, when there is none, an
error to the end of the line. The length does not count the opening quote. -/
def quotedLexeme (quote : Char) (rest : List Char) : Kind × Nat :=
  match rest.findIdx? (· == quote) with
  | some i => (.string, i + 1)
  | none => (.error, rest.length)

def isWordOperator (word : List Char) : Bool :=
  Vocabulary.wordOperators.contains (lower (String.ofList word))

/-- The kind of the lexeme that starts with `c`, and how many characters of `rest` belong to it. -/
def lexeme (c : Char) (rest : List Char) : Kind × Nat :=
  if isDigit c then (.number, numeralLength (c :: rest) - 1)
  else if c == '-' && rest.head?.any isDigit then (.number, numeralLength rest)
  else if isQuote c then quotedLexeme c rest
  else if c == '-' && rest.head? == some '>' then (.arrow, 1)
  else if (c == '<' || c == '>') && rest.head? == some '=' then (.operator, 1)
  else if c == ':' && rest.head? == some ':' then (.doubleColon, 1)
  else if symbolOperators.contains c then (.operator, 0)
  else match punctuation? c with
    | some kind => (kind, 0)
    | none =>
      if isIdentifierStart c then
        let more := rest.takeWhile isIdentifierChar
        (if isWordOperator (c :: more) then .operator else .identifier, more.length)
      else (.error, 0)

/-- The text of a token: word operators are lower-cased, all else stands as it is. -/
def lexemeText (kind : Kind) (cs : List Char) : String :=
  let s := String.ofList cs
  if kind == .operator then lower s else s

def comment (p : Position) (cs : List Char) : Token :=
  covering .comment (String.ofList (cs.drop 2)) p cs.length

def braceDepth (kind : Kind) (depth : Nat) : Nat :=
  match kind with
  | .leftBrace => depth + 1
  | .rightBrace => depth - 1
  | _ => depth

/-- Scans expression tokens from the front of a line, and tells how many characters they cover. With
a depth, the scan is that of an interpolation: it stops before the first closing brace at depth
zero, and two dashes start no comment. -/
def scanExpression (depth : Option Nat) (p : Position) : List Char → List Token × Nat
  | [] => ([], 0)
  | c :: rest =>
    if isGap c then
      let (tokens, n) := scanExpression depth (p.advance 1) rest
      (tokens, n + 1)
    else if c == '}' && depth == some 0 then ([], 0)
    else if c == '-' && rest.head? == some '-' && depth.isNone then
      ([comment p (c :: rest)], rest.length + 1)
    else
      let (kind, extra) := lexeme c rest
      let token := covering kind (lexemeText kind (c :: rest.take extra)) p (extra + 1)
      let (tokens, n) :=
        scanExpression (depth.map (braceDepth kind)) (p.advance (extra + 1)) (rest.drop extra)
      (token :: tokens, n + extra + 1)
  termination_by cs => cs.length
  decreasing_by all_goals simp only [List.length_cons, List.length_drop]; omega

/-- The token of a line break, none at the end of the source. -/
def lineBreak (line : Source.Line) (p : Position) : List Token :=
  if line.ending.isEmpty then [] else [spelled .newline (p.advance line.content.length) line.ending]

def scanExpressionLines (p : Position) : List Source.Line → List Token
  | [] => [mark .endOfInput p]
  | line :: rest =>
    (scanExpression none p line.content).1 ++ lineBreak line p ++
      scanExpressionLines (line.after p) rest

/-- The tokens of a fragment of expression whose first character stands at `origin`. -/
def ofExpression (text : String) (origin : Position) : List Token :=
  scanExpressionLines origin (Source.lines text.toList)

end GuidedTrack.Token
