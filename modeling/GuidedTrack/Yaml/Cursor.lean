import GuidedTrack.Yaml.Scalar

/-! # Reading YAML characters

A cursor over the text of a document, and the scalars that are read with it. Tabs separate nothing:
they may stand inside quotes and comments only.
-/

namespace GuidedTrack.Yaml

inductive Cause where
  | unprintable
  | unexpected
  | misplacedKey
  | misplacedEntry
  | missingColon
  | badIndentation
  | unclosedQuote
  | badEscape
  | unclosedFlow
  | untypedWord
  | unhashableKey
  | secondDocument
  deriving DecidableEq, Repr

namespace Cause

def message : Cause → String
  | unprintable => "a character that may not stand in a document"
  | unexpected => "a character that starts no token"
  | misplacedKey => "a mapping value is not allowed here"
  | misplacedEntry => "a sequence entry is not allowed here"
  | missingColon => "a key without a colon"
  | badIndentation => "inconsistent indentation"
  | unclosedQuote => "a quoted scalar that is not closed"
  | badEscape => "an unknown escape sequence"
  | unclosedFlow => "a flow collection that is not closed"
  | untypedWord => "a word that stands for no value"
  | unhashableKey => "a collection as a key"
  | secondDocument => "more than one document"

end Cause

/-- A cause and its place, both counted from zero. -/
structure Error where
  line : Nat
  column : Nat
  cause : Cause
  deriving DecidableEq, Repr

namespace Error

def message (error : Error) : String :=
  s!"line {error.line + 1}, column {error.column + 1}: {error.cause.message}"

end Error

structure Cursor where
  rest : List Char
  line : Nat
  column : Nat

def isBreak (c : Char) : Bool :=
  c == '\n' || c == '\r' || c == '\x85' || c == '\u2028' || c == '\u2029'

/-- A character that ends an indicator, or the end of the text. -/
def isBoundary : List Char → Bool
  | [] => true
  | c :: _ => c == ' ' || c == '\t' || isBreak c

namespace Cursor

def fail {α : Type} (cursor : Cursor) (cause : Cause) : Except Error α :=
  .error ⟨cursor.line, cursor.column, cause⟩

def advance (cursor : Cursor) (n : Nat) : Cursor :=
  ⟨cursor.rest.drop n, cursor.line, cursor.column + n⟩

def skipSpaces (cursor : Cursor) : Cursor :=
  cursor.advance (cursor.rest.takeWhile (· == ' ')).length

def skipAux (comment : Bool) (line column : Nat) : List Char → Cursor
  | [] => ⟨[], line, column⟩
  | c :: rest =>
    if isBreak c then skipAux false (line + 1) 0 rest
    else if comment || c == '#' then skipAux true line (column + 1) rest
    else if c == ' ' then skipAux false line (column + 1) rest
    else ⟨c :: rest, line, column⟩

def skip (cursor : Cursor) : Cursor :=
  skipAux false cursor.line cursor.column cursor.rest

/-- Whether a marker of three characters stands alone at the start of a line. -/
def atMarker (cursor : Cursor) (marker : List Char) : Bool :=
  cursor.column == 0 && cursor.rest.take 3 == marker && isBoundary (cursor.rest.drop 3)

def atAnyMarker (cursor : Cursor) : Bool :=
  cursor.atMarker ['-', '-', '-'] || cursor.atMarker ['.', '.', '.']

def atEnd (cursor : Cursor) : Bool :=
  cursor.rest.isEmpty || cursor.atAnyMarker

/-- Whether an indicator stands here with a boundary after it. -/
def atIndicator (cursor : Cursor) (c : Char) : Bool :=
  cursor.rest.head? == some c && isBoundary cursor.rest.tail

end Cursor

/-! ## Plain scalars -/

def isFlowIndicator (c : Char) : Bool :=
  c == ',' || c == '[' || c == ']' || c == '{' || c == '}'

def continuesPlain (flow : Bool) (c : Char) (rest : List Char) : Bool :=
  let ended := c == ' ' || c == '\t' || isBreak c
  let value := c == ':' && (isBoundary rest || (flow && rest.head?.any isFlowIndicator))
  let closed := flow && (c == '?' || isFlowIndicator c)
  !ended && !value && !closed

def plainRun (flow : Bool) : List Char → List Char
  | [] => []
  | c :: rest => if continuesPlain flow c rest then c :: plainRun flow rest else []

def startsPlain (flow : Bool) : List Char → Bool
  | [] => false
  | c :: rest =>
    let reserved := " \t-?:,[]\x7b\x7d#&*!|>'\"%@`".toList.contains c || isBreak c
    !reserved || (!isBoundary rest && (c == '-' || (!flow && (c == '?' || c == ':'))))

def breakChar (c : Char) : Char :=
  if c == '\u2028' || c == '\u2029' then c else '\n'

/-- Passes over line breaks and the spaces between them, and gathers the breaks. -/
def takeBreaks (tabs : Bool) (line column : Nat) : List Char → List Char × Cursor
  | [] => ([], ⟨[], line, column⟩)
  | c :: rest =>
    if Cursor.atAnyMarker ⟨c :: rest, line, column⟩ then ([], ⟨c :: rest, line, column⟩)
    else if isBreak c then
      let (breaks, cursor) := takeBreaks tabs (line + 1) 0 rest
      (breakChar c :: breaks, cursor)
    else if c == ' ' || (tabs && c == '\t') then takeBreaks tabs line (column + 1) rest
    else ([], ⟨c :: rest, line, column⟩)

/-- What line breaks inside a scalar stand for: one break is a space, of several the first goes. -/
def folded : List Char → List Char
  | [] => []
  | ['\n'] => [' ']
  | '\n' :: more => more
  | breaks => breaks

/-- Reads a plain scalar whose further lines must stand deeper than `indent`: its text, and the
cursor after its last character. The fuel bounds the number of its words. -/
def readPlain (flow : Bool) (indent : Int) : Nat → Cursor → List Char × Cursor
  | 0, cursor => ([], cursor)
  | fuel + 1, cursor =>
    let run := plainRun flow cursor.rest
    let stop := cursor.advance run.length
    let spaces := stop.rest.takeWhile (· == ' ')
    let after := stop.advance spaces.length
    let (gap, next) :=
      if after.rest.head?.any isBreak then
        let (breaks, next) := takeBreaks false after.line after.column after.rest
        (folded breaks, next)
      else (spaces, after)
    let ends := gap.isEmpty || next.rest.head? == some '#' || next.atAnyMarker ||
      (!flow && (next.column : Int) ≤ indent) || (plainRun flow next.rest).isEmpty
    if run.isEmpty || ends then (run, stop)
    else
      let (more, last) := readPlain flow indent fuel next
      (run ++ gap ++ more, last)

/-! ## Quoted scalars -/

def escape? : Char → Option Char
  | '0' => some '\x00'
  | 'a' => some '\x07'
  | 'b' => some '\x08'
  | 't' => some '\t'
  | '\t' => some '\t'
  | 'n' => some '\n'
  | 'v' => some '\x0b'
  | 'f' => some '\x0c'
  | 'r' => some '\r'
  | 'e' => some '\x1b'
  | ' ' => some ' '
  | '"' => some '"'
  | '\\' => some '\\'
  | '/' => some '/'
  | 'N' => some '\x85'
  | '_' => some '\xa0'
  | 'L' => some '\u2028'
  | 'P' => some '\u2029'
  | _ => none

def escapeWidth? : Char → Option Nat
  | 'x' => some 2
  | 'u' => some 4
  | 'U' => some 8
  | _ => none

def hexEscape? (width : Nat) (cs : List Char) : Option Char :=
  let digits := cs.take width
  if digits.length < width then none
  else do
    let value := (← digits.mapM (digitOf? 16)).foldl (fun n d => 16 * n + d) 0
    if value.isValidChar then some (Char.ofNat value) else none

/-- Reads an escape after its backslash: what it stands for, and where the text goes on. A line
break that is escaped stands for nothing, and the blanks after it are dropped. -/
def readEscape (cursor : Cursor) : Except Error (List Char × Cursor) :=
  match cursor.rest with
  | [] => cursor.fail .unclosedQuote
  | c :: rest =>
    match escape? c, escapeWidth? c with
    | some value, _ => .ok ([value], cursor.advance 1)
    | none, some width =>
      match hexEscape? width rest with
      | some value => .ok ([value], cursor.advance (width + 1))
      | none => cursor.fail .badEscape
    | none, none =>
      if isBreak c then
        let (breaks, next) := takeBreaks true (cursor.line + 1) 0 rest
        if next.atAnyMarker then next.fail .unclosedQuote else .ok (breaks, next)
      else cursor.fail .badEscape

/-- Reads a quoted scalar after its opening mark: its text, and the cursor after its closing mark.
The fuel bounds the number of its pieces. -/
def readQuoted (double : Bool) : Nat → Cursor → Except Error (List Char × Cursor)
  | 0, cursor => cursor.fail .unclosedQuote
  | fuel + 1, cursor =>
    let goOn (piece : List Char) (next : Cursor) : Except Error (List Char × Cursor) :=
      (readQuoted double fuel next).map fun (more, last) => (piece ++ more, last)
    match cursor.rest with
    | [] => cursor.fail .unclosedQuote
    | c :: rest =>
      if c == ' ' || c == '\t' || isBreak c then
        let blanks := cursor.rest.takeWhile fun c => c == ' ' || c == '\t'
        let after := cursor.advance blanks.length
        if after.rest.head?.any isBreak then
          let (breaks, next) := takeBreaks true after.line after.column after.rest
          if next.atAnyMarker then next.fail .unclosedQuote else goOn (folded breaks) next
        else goOn blanks after
      else if double then
        if c == '"' then .ok ([], cursor.advance 1)
        else if c == '\\' then do
          let (piece, next) ← readEscape (cursor.advance 1)
          goOn piece next
        else goOn [c] (cursor.advance 1)
      else if c == '\'' then
        if rest.head? == some '\'' then goOn ['\''] (cursor.advance 2)
        else .ok ([], cursor.advance 1)
      else goOn [c] (cursor.advance 1)

end GuidedTrack.Yaml
