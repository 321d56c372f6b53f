import GuidedTrack.Source

/-! # Tokens

The vocabulary of kinds and the token record shared by the scanner, the reader of trees and the
rules.
-/

namespace GuidedTrack

namespace Token

inductive Kind where
  | newline | indent | dedent | endOfInput
  | keyword | subKeyword | expressionStart
  | string | number
  | operator | arrow
  | leftParen | rightParen | leftBracket | rightBracket | leftBrace | rightBrace
  | comma | dot | colon | doubleColon
  | identifier | text | comment | interpolationStart | interpolationEnd
  | error
  deriving DecidableEq, Repr, Inhabited

namespace Kind

def name : Kind → String
  | newline => "NEWLINE"
  | indent => "INDENT"
  | dedent => "DEDENT"
  | endOfInput => "EOF"
  | keyword => "KEYWORD"
  | subKeyword => "SUB_KEYWORD"
  | expressionStart => "EXPRESSION_START"
  | string => "STRING"
  | number => "NUMBER"
  | operator => "OPERATOR"
  | arrow => "ARROW"
  | leftParen => "LPAREN"
  | rightParen => "RPAREN"
  | leftBracket => "LBRACKET"
  | rightBracket => "RBRACKET"
  | leftBrace => "LBRACE"
  | rightBrace => "RBRACE"
  | comma => "COMMA"
  | dot => "DOT"
  | colon => "COLON"
  | doubleColon => "DOUBLE_COLON"
  | identifier => "IDENTIFIER"
  | text => "TEXT"
  | comment => "COMMENT"
  | interpolationStart => "INTERPOLATION_START"
  | interpolationEnd => "INTERPOLATION_END"
  | error => "ERROR"

def all : List Kind :=
  [newline, indent, dedent, endOfInput, keyword, subKeyword, expressionStart, string, number,
    operator, arrow, leftParen, rightParen, leftBracket, rightBracket, leftBrace, rightBrace,
    comma, dot, colon, doubleColon, identifier, text, comment, interpolationStart,
    interpolationEnd, error]

def ofName? (s : String) : Option Kind :=
  all.find? fun kind => kind.name == s

/-- Kinds that shape blocks and lines and carry no content. -/
def isStructural : Kind → Bool
  | newline | indent | dedent | endOfInput => true
  | _ => false

def isProse : Kind → Bool
  | text | interpolationStart | interpolationEnd => true
  | _ => false

end Kind
end Token

/-- A token and the stretch of source it covers. A directive's text is its lower-cased name, a
comment's the text after the dashes, a string's the whole literal with its quotes. -/
structure Token where
  kind : Token.Kind
  text : String
  span : Span
  deriving DecidableEq, Repr, Inhabited

namespace Token

def covering (kind : Kind) (text : String) (p : Position) (n : Nat) : Token :=
  ⟨kind, text, p, p.advance n⟩

def spelled (kind : Kind) (p : Position) (cs : List Char) : Token :=
  covering kind (String.ofList cs) p cs.length

def mark (kind : Kind) (p : Position) : Token :=
  covering kind "" p 0

end Token
end GuidedTrack
