import GuidedTrack.Layout.Style
import GuidedTrack.Token.Expression

/-! # Spacing of code

Operators, arrows, commas and brackets get the spaces that the style asks for. String literals and
comments stay as they are. Text written so far is kept in reverse, so that its end is at hand.
-/

namespace GuidedTrack.Layout

open Text

/-- The number of characters of a string literal after its opening quote, to the end of the text if
it is not closed. -/
def literalLength (quote : Char) (rest : List Char) : Nat :=
  match rest.findIdx? (· == quote) with
  | some i => i + 1
  | none => rest.length

def gapLength (cs : List Char) : Nat :=
  (cs.takeWhile isGap).length

def operatorChars : List Char :=
  ['+', '-', '*', '/', '%', '=', '<', '>']

def openingBrackets : List Char :=
  ['(', '[', '{']

def closingBrackets : List Char :=
  [')', ']', '}']

def signPreceders : List Char :=
  openingBrackets ++ ',' :: operatorChars

def isWordChar (c : Char) : Bool :=
  c.isAlphanum || c == '_'

/-- The ASCII word at the end of a text given in reverse, blanks and leading digits left out. -/
def lastWord (written : List Char) : String :=
  String.ofList (((written.dropWhile isBlank).takeWhile isWordChar).reverse.dropWhile Char.isDigit)

/-- Whether a minus after the text written so far is a sign: at the start, after an operator, a
comma or an opening bracket, or after an operator spelled as a word. -/
def isSignPosition (written : List Char) : Bool :=
  match written.dropWhile isGap with
  | [] => true
  | c :: before =>
    signPreceders.contains c ||
      Vocabulary.wordOperators.contains (lower (lastWord (c :: before)))

/-- Writes an operator with one space on each side, and tells how many gaps follow it. No space is
written at the start or at the end of the text. -/
def spaced (written operator rest : List Char) : List Char × Nat :=
  let before := written.dropWhile isGap
  let before := if before.isEmpty then [] else ' ' :: before
  let n := gapLength rest
  let after := if n < rest.length then [' '] else []
  (after ++ operator.reverse ++ before, n)

/-- Writes the code that starts with `c`: the text written then, in reverse, and how many characters
of `rest` it takes up. Without `operators` only commas and brackets are spaced. -/
def codeStep (style : Style) (operators : Bool) (written : List Char) (c : Char)
    (rest : List Char) : List Char × Nat :=
  let next := rest.head?
  if Token.isQuote c then
    let n := literalLength c rest
    ((c :: rest.take n).reverse ++ written, n)
  else if c == '-' && next == some '-' then ((c :: rest).reverse ++ written, rest.length)
  else if operators && c == '-' && next == some '>' then
    if style.spaceAroundArrow then
      let (written, n) := spaced written ['-', '>'] (rest.drop 1)
      (written, n + 1)
    else ('>' :: '-' :: written, 1)
  else if operators && style.spaceAroundOperators && (c == '<' || c == '>') && next == some '=' then
    let (written, n) := spaced written [c, '='] (rest.drop 1)
    (written, n + 1)
  else if operators && style.spaceAroundOperators && operatorChars.contains c then
    if c == '-' && isSignPosition written then (c :: written, 0) else spaced written [c] rest
  else if c == ',' && style.spaceAfterComma then
    let n := gapLength rest
    let written := ',' :: written.dropWhile (· == ' ')
    let follows := (rest.drop n).head?.any (!closingBrackets.contains ·)
    (if follows then ' ' :: written else written, n)
  else if openingBrackets.contains c then (c :: written, gapLength rest)
  else if closingBrackets.contains c then (c :: written.dropWhile (· == ' '), 0)
  else (c :: written, 0)

/-- Writes code after the text written so far; both are in reverse. -/
def writeCode (style : Style) (operators : Bool) (written : List Char) :
    List Char → List Char
  | [] => written
  | c :: rest =>
    let (written, n) := codeStep style operators written c rest
    writeCode style operators written (rest.drop n)
  termination_by cs => cs.length
  decreasing_by simp only [List.length_cons, List.length_drop]; omega

def code (style : Style) (operators : Bool) (cs : List Char) : List Char :=
  (writeCode style operators [] cs).reverse

/-- Makes each run of gaps one space, outside string literals and up to a comment. -/
def collapseRuns : List Char → List Char
  | [] => []
  | c :: rest =>
    if Token.isQuote c then
      let n := literalLength c rest
      c :: rest.take n ++ collapseRuns (rest.drop n)
    else if c == '-' && rest.head? == some '-' then c :: rest
    else if isGap c then ' ' :: collapseRuns (rest.drop (gapLength rest))
    else c :: collapseRuns rest
  termination_by cs => cs.length
  decreasing_by all_goals simp only [List.length_cons, List.length_drop]; omega

def collapse (cs : List Char) : List Char :=
  dropRightWhile (· == ' ') (collapseRuns cs)

end GuidedTrack.Layout
