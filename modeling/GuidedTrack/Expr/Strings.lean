import GuidedTrack.Expr.Grammar
import GuidedTrack.Token.Expression

/-! # String literals

A string literal embeds the expressions that stand in its outermost balanced pairs of braces. Each
is scanned at the place where it really starts, so that nested literals keep true positions.
-/

namespace GuidedTrack.Expr

/-- A piece of the content of a string literal: text, or what stands between two braces together
with the place of its first character. -/
inductive Piece where
  | text (content : List Char)
  | braced (place : Nat) (content : List Char)
  deriving DecidableEq, Repr

/-- The number of characters before the brace that closes an open one, inside `depth` more. -/
def closingBrace? (depth : Nat) : List Char → Option Nat
  | [] => none
  | c :: rest =>
    if c == '{' then (closingBrace? (depth + 1) rest).map (· + 1)
    else if c == '}' then
      match depth with
      | 0 => some 0
      | depth + 1 => (closingBrace? depth rest).map (· + 1)
    else (closingBrace? depth rest).map (· + 1)

def textPiece (content : List Char) : List Piece :=
  if content.isEmpty then [] else [.text content]

/-- Cuts a content at its outermost balanced braces; from an unbalanced brace on, all is text. -/
def pieces (index : Nat) (cs : List Char) : List Piece :=
  let before := cs.takeWhile (· != '{')
  match _h : cs.dropWhile (· != '{') with
  | [] => textPiece before
  | brace :: rest =>
    match closingBrace? 0 rest with
    | none => textPiece (before ++ brace :: rest)
    | some n =>
      let start := index + before.length + 1
      textPiece before ++
        .braced start (rest.take n) :: pieces (start + n + 1) (rest.drop (n + 1))
  termination_by cs.length
  decreasing_by
    have := congrArg List.length _h
    have := (List.dropWhile_sublist (l := cs) (· != '{')).length_le
    simp only [List.length_drop, List.length_cons] at *
    omega

def unquoted (text : String) : List Char :=
  text.toList.tail.dropLast

/-- Reads the pieces of the literal at `token`. An expression that cannot be read stays as its text.
-/
def readPieces (strings : StringReader) (token : Token) :
    List Piece → Except Numeral.Error (List Part × List Fault)
  | [] => .ok ([], [])
  | .text content :: rest => do
      let (parts, faults) ← readPieces strings token rest
      return (.text (String.ofList content) :: parts, faults)
  | .braced place content :: rest => do
      let origin := token.span.start.advance (place + 1)
      let inner := (Token.ofExpression (String.ofList content) origin).dropLast
      let (value?, faults) ← ofTokensWith strings false token.span.start inner
      let part :=
        match value? with
        | some value => Part.expr value
        | none => .text (String.ofList ('{' :: content ++ ['}']))
      let (parts, more) ← readPieces strings token rest
      return (part :: parts, faults ++ more)

/-- Reads a string literal in which at most `depth` literals are nested. -/
def readString : Nat → StringReader
  | 0, token =>
    .ok (.literal token.span (.text (String.ofList (unquoted token.text))) token.text, [])
  | depth + 1, token =>
    let content := unquoted token.text
    if content.contains '{' then do
      let (parts, faults) ← readPieces (readString depth) token (pieces 0 content)
      return (.interpolated token.span parts, faults)
    else .ok (.literal token.span (.text (String.ofList content)) token.text, [])

/-- Reads a list of tokens as one expression. A literal nests in a longer one only, so the longest
of the tokens bounds the depth of nesting. -/
def ofTokens (assignment : Bool) (anchor : Position) (tokens : List Token) :
    Except Numeral.Error (Option Expr × List Fault) :=
  let depth := tokens.foldl (fun n token => max n token.text.length) 0
  ofTokensWith (readString depth) assignment anchor tokens

end GuidedTrack.Expr
