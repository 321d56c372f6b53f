import GuidedTrack.Contract
import GuidedTrack.Token.Expression

/-! # Scanning documents

A document is scanned line by line. The tabs in front of a line give its depth; the first characters
after its leading gaps decide whether the rest is a comment, an expression, a directive or prose.
-/

namespace GuidedTrack.Token

open Text

/-- The length of an emphasised span after its opening marker: a star or a slash that a character
other than a gap or the same marker follows, closed by the same marker later on the line. -/
def emphasisLength? (marker : Char) : List Char → Option Nat
  | [] => none
  | c :: rest =>
    if isGap c || c == marker then none
    else (rest.findIdx? (· == marker)).map (· + 2)

def opensEmphasis (c : Char) (rest : List Char) : Bool :=
  (c == '*' || c == '/') && (emphasisLength? c rest).isSome

/-- The number of characters before the next interpolation or, where it counts, emphasised span. -/
def plainLength (emphasis : Bool) : List Char → Nat
  | [] => 0
  | c :: rest =>
    if c == '{' || (emphasis && opensEmphasis c rest) then 0 else plainLength emphasis rest + 1

def prose (p : Position) (cs : List Char) : List Token :=
  if allBlank cs then [] else [spelled .text p cs]

theorem length_lt_of_drop_eq_cons {n : Nat} {c : Char} {cs rest : List Char}
    (h : cs.drop n = c :: rest) : rest.length < cs.length := by
  have := congrArg List.length h
  simp only [List.length_drop, List.length_cons] at this
  omega

/-- Scans prose to the end of its line, with interpolations and, where it counts, emphasised spans
as tokens of their own. -/
def scanText (emphasis : Bool) (p : Position) (cs : List Char) : List Token :=
  let plain := plainLength emphasis cs
  let start := p.advance plain
  prose p (cs.take plain) ++
    match h : cs.drop plain with
    | [] => []
    | c :: rest =>
      have := length_lt_of_drop_eq_cons h
      if c == '{' then
        let (tokens, n) := scanExpression (some 0) (start.advance 1) rest
        let stop := start.advance (n + 1)
        covering .interpolationStart "\x7b" start 1 :: tokens ++
          match h' : rest.drop n with
          | [] => []
          | _ :: more =>
            have := length_lt_of_drop_eq_cons h'
            covering .interpolationEnd "\x7d" stop 1 :: scanText emphasis (stop.advance 1) more
      else
        let extra := (emphasisLength? c rest).getD 0
        prose start (c :: rest.take extra) ++
          scanText emphasis (start.advance (extra + 1)) (rest.drop extra)
  termination_by cs.length
  decreasing_by
    · omega
    · simp only [List.length_drop]; omega

def isNameChar (c : Char) : Bool :=
  isAlphanumeric c || c == '_' || c == '-'

/-- Whether what follows a star makes it a directive: a name, and no second star before a colon. -/
def startsDirective (rest : List Char) : Bool :=
  rest.head?.any isNameChar && rest.find? (fun c => c == ':' || c == '*') != some '*'

def scanArgument (kind : Kind) (name : String) (p : Position) (cs : List Char) : List Token :=
  let start := p.advance (cs.takeWhile isGap).length
  let body := cs.dropWhile isGap
  if kind == .keyword && Contract.takesExpression name then (scanExpression none start body).1
  else scanText (!Vocabulary.plainArguments.contains name) start body

/-- Scans a directive on a line of the given depth; `rest` follows the star at `p`. -/
def scanDirective (depth : Nat) (p : Position) (rest : List Char) : List Token :=
  let spelling := rest.takeWhile isNameChar
  let name := lower (String.ofList spelling)
  let kind := Vocabulary.directiveKind name depth
  let stop := p.advance (spelling.length + 1)
  covering kind name p (spelling.length + 1) ::
    match rest.dropWhile isNameChar with
    | ':' :: more => covering .colon ":" stop 1 :: scanArgument kind name (stop.advance 1) more
    | more => scanText true (stop.advance (more.takeWhile isGap).length) (more.dropWhile isGap)

/-- Scans a line that starts with a quote: a string literal, then prose. -/
def scanQuoted (p : Position) (quote : Char) (rest : List Char) : List Token :=
  let (kind, extra) := quotedLexeme quote rest
  spelled kind p (quote :: rest.take extra) ::
    scanText true (p.advance (extra + 1)) (rest.drop extra)

def scanContent (depth : Nat) (p : Position) : List Char → List Token
  | '-' :: '-' :: rest => [comment p ('-' :: '-' :: rest)]
  | '>' :: '>' :: rest =>
    covering .expressionStart ">>" p 2 :: (scanExpression none (p.advance 2) rest).1
  | c :: rest =>
    if c == '*' && startsDirective rest then scanDirective depth p rest
    else if isQuote c then scanQuoted p c rest
    else scanText true p (c :: rest)
  | [] => []

/-- The depth of the innermost open block, given the depths of all open blocks, innermost first. -/
def currentDepth (opened : List Nat) : Nat :=
  opened.headD 0

/-- Opens or closes blocks at the front of a line of `width` tabs: the tokens that say so, and the
depths of the blocks that are open then. -/
def indentation (opened : List Nat) (width : Nat) (lead : List Char) (p : Position) :
    List Token × List Nat :=
  if currentDepth opened < width then ([spelled .indent p lead], width :: opened)
  else
    let stop := p.advance lead.length
    ((opened.takeWhile (width < ·)).map fun _ => mark .dedent stop, opened.dropWhile (width < ·))

/-- Scans the lines of a document, given the depths of the open blocks. Blank lines leave no trace.
-/
def scanLines (opened : List Nat) (p : Position) : List Source.Line → List Token
  | [] => opened.map (fun _ => mark .dedent p) ++ [mark .endOfInput p]
  | line :: rest =>
    let lead := line.content.takeWhile isGap
    let body := line.content.dropWhile isGap
    if body.isEmpty then scanLines opened (line.after p) rest
    else
      let width := (line.content.takeWhile (· == '\t')).length
      let (blocks, opened) := indentation opened width lead p
      blocks ++ scanContent (currentDepth opened) (p.advance lead.length) body ++
        lineBreak line p ++ scanLines opened (line.after p) rest

def ofSource (source : String) : List Token :=
  scanLines [] .origin (Source.lines source.toList)

end GuidedTrack.Token
