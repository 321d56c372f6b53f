import GuidedTrack.Rule
import GuidedTrack.Token.Expression

/-! # Rules on lines

Indentation, string literals and brackets are checked line by line, on the text and on the tokens of
the document, when its tour starts.
-/

namespace GuidedTrack.Rule

/-- Makes a rule out of a check that runs once, when the tour of a document starts. -/
def onEnter (check : Document → List Report) : Document → Visit → List Report :=
  fun document visit =>
    match visit.phase, visit.node with
    | .enter, .program _ => check document
    | _, _ => []

/-! ## Indentation -/

/-- Leading gaps in tabs: two or more spaces become a tab, and a lone space goes. -/
def tabify : List Char → List Char
  | [] => []
  | c :: rest =>
    if c != ' ' then c :: tabify rest
    else
      let more := rest.dropWhile (· == ' ')
      if more.length < rest.length then '\t' :: tabify more else tabify more
  termination_by cs => cs.length
  decreasing_by
    all_goals
      have := (List.dropWhile_sublist (l := rest) (· == ' ')).length_le
      simp only [List.length_cons]
      omega

/-- The lines that are indented with spaces first, from line `number` at `offset` on. -/
def spaceIndents (number : Nat) (offset : Nat) : List Source.Line → List Report
  | [] => []
  | line :: rest =>
    let lead := line.content.takeWhile Text.isGap
    let here : List Report :=
      if lead.length < line.content.length && lead.head? == some ' ' then
        [{ text := "Use tabs for indentation, not spaces", line := number, column := 1,
           endLine := some number, endColumn := some (lead.length + 1),
           fix := some ⟨offset, offset + lead.length, String.ofList (tabify lead)⟩ }]
      else []
    here ++ spaceIndents (number + 1) (offset + line.length) rest

def indentStyle : Rule where
  name := "indent-style"
  severity := .error
  check := onEnter fun document => spaceIndents 1 0 (Source.lines document.source.toList)

/-! ## String literals -/

def unclosedString? (token : Token) : Option Report :=
  match token.kind, token.text.toList with
  | .error, quote :: _ =>
    if Token.isQuote quote then
      some {
        text := "Unclosed string literal"
        line := token.span.start.line
        column := token.span.start.column
        endLine := some token.span.stop.line
        endColumn := some token.span.stop.column
        fix := some ⟨token.span.stop.offset, token.span.stop.offset, String.singleton quote⟩ }
    else none
  | _, _ => none

def noUnclosedString : Rule where
  name := "no-unclosed-string"
  severity := .error
  check := onEnter fun document => document.tokens.filterMap unclosedString?

/-! ## Brackets -/

def closerOf? : Token.Kind → Option Token.Kind
  | .leftParen => some .rightParen
  | .leftBracket => some .rightBracket
  | .leftBrace => some .rightBrace
  | .interpolationStart => some .interpolationEnd
  | _ => none

def closerSpelling? : Token.Kind → Option String
  | .rightParen => some ")"
  | .rightBracket => some "]"
  | .rightBrace => some "\x7d"
  | .interpolationEnd => some "\x7d"
  | _ => none

def awaited (opener : Token) : String :=
  ((closerOf? opener.kind).bind closerSpelling?).getD ""

/-- The reports of the openers left at the end of a line, outermost first. The outermost carries a
fix that closes them all, innermost first, where the line ends. -/
def unclosedReports (openers : List Token) (lineEnd : Int) : List Report :=
  let closing := String.join (openers.reverse.map awaited)
  openers.zipIdx.map fun (opener, i) =>
    { Report.ofPosition opener.span.start s!"Unclosed '{opener.text}'" with
      fix := if i = 0 then some ⟨lineEnd, lineEnd, closing⟩ else none }

/-- Checks the brackets of a list of tokens; `openers` are open, innermost first, and the line has
reached the offset `lineEnd`. -/
def bracketReports (openers : List Token) (lineEnd : Int) : List Token → List Report
  | [] => []
  | token :: rest =>
    if token.kind.isStructural then
      unclosedReports openers.reverse lineEnd ++ bracketReports [] lineEnd rest
    else
      let lineEnd := if token.kind = .comment then lineEnd else token.span.stop.offset
      if (closerOf? token.kind).isSome then bracketReports (token :: openers) lineEnd rest
      else if (closerSpelling? token.kind).isSome then
        match openers with
        | [] =>
          .ofPosition token.span.start
              s!"Unexpected '{token.text}' without a matching opening bracket" ::
            bracketReports [] lineEnd rest
        | opener :: outer =>
          if closerOf? opener.kind = some token.kind then bracketReports outer lineEnd rest
          else
            .ofPosition token.span.start
                s!"Mismatched '{token.text}', expected '{awaited opener}'" ::
              bracketReports outer lineEnd rest
      else bracketReports openers lineEnd rest

def noUnclosedBracket : Rule where
  name := "no-unclosed-bracket"
  severity := .error
  check := onEnter fun document => bracketReports [] 0 document.tokens

end GuidedTrack.Rule
