import GuidedTrack.Expr.Strings
import GuidedTrack.Outline
import GuidedTrack.Statement
import GuidedTrack.Token.Document

/-! # Reading programs

A program is read from the outline of its tokens. Faults are recorded on the way and never stop the
reading; only a malformed numeral does.
-/

namespace GuidedTrack.Program

/-- A computation that records faults and that a malformed numeral ends. -/
abbrev Recorder := StateT (List Fault) (Except Numeral.Error)

def record (position : Position) (cause : Fault.Cause) : Recorder Unit :=
  modify (· ++ [⟨position, cause⟩])

def readExpr (assignment : Bool) (anchor : Token) (tokens : List Token) :
    Recorder (Option Expr) := do
  let (value?, faults) ← Expr.ofTokens assignment anchor.span.start tokens
  modify (· ++ faults)
  return value?

def gap (start stop : Int) : String :=
  String.ofList (List.replicate (stop - start).toNat ' ')

def textPart (text : String) : List Part :=
  if text.isEmpty then [] else [.text text]

/-- Reads prose: text between interpolations, with spaces for what no token covers. `cursor` is the
offset where the token before ends, `text` what has been gathered since the last interpolation. -/
def readParts (cursor : Option Int) (text : String) : List Token → Recorder (List Part)
  | [] => return textPart text
  | token :: rest =>
    if token.kind = .comment then readParts cursor text rest
    else
      let text := text ++ gap (cursor.getD token.span.start.offset) token.span.start.offset
      if token.kind ≠ .interpolationStart then
        readParts (some token.span.stop.offset) (text ++ token.text) rest
      else do
        let inner := rest.takeWhile (·.kind ≠ .interpolationEnd)
        let value? ← readExpr false token inner
        let parts := textPart text ++ value?.toList.map .expr
        match _h : rest.dropWhile (·.kind ≠ .interpolationEnd) with
        | [] =>
          record token.span.start .unclosedInterpolation
          return parts
        | close :: more =>
          let others ← readParts (some close.span.stop.offset) "" more
          return parts ++ others
  termination_by tokens => tokens.length
  decreasing_by
    all_goals first
      | (simp only [List.length_cons]; omega)
      | (have h₁ := congrArg List.length _h
         have h₂ := (List.dropWhile_sublist (l := rest) (·.kind ≠ .interpolationEnd)).length_le
         simp only [List.length_cons] at *
         omega)

def spanOf (first : Token) (rest : List Token) : Span :=
  ⟨first.span.start, (rest.getLastD first).span.stop⟩

def readProse (first : Token) (rest : List Token) : Recorder Prose := do
  let parts ← readParts none "" (first :: rest)
  return ⟨spanOf first rest, parts⟩

/-- The text that some tokens of a line were scanned from, starting at offset `cursor`. -/
def spelling (cursor : Int) : List Token → String
  | [] => ""
  | token :: rest =>
    gap cursor token.span.start.offset ++
      (if token.kind = .comment then "--" ++ token.text else token.text) ++
      spelling token.span.stop.offset rest

/-- The tokens of an expression argument. Where it was scanned as prose its text is scanned anew. -/
def expressionTokens (first : Token) (rest : List Token) : List Token :=
  let tokens := first :: rest
  if tokens.any (·.kind.isProse) then
    (Token.ofExpression (spelling first.span.start.offset tokens) first.span.start).dropLast
  else tokens

/-- Whether a directive takes an expression, as a sub-keyword of `parent` or as a keyword. -/
def takesExpression (parent : Option String) (name : String) : Bool :=
  match parent with
  | none => Contract.takesExpression name
  | some keyword => Contract.subTakesExpression keyword name

def readArgument (parent : Option String) (name : String) (head : Token) :
    List Token → Recorder (Option Argument)
  | [] => return none
  | first :: rest => do
      if first.kind = .colon then
        match rest with
        | [] => return none
        | first :: rest =>
          if takesExpression parent name then
            let value? ← readExpr false head (expressionTokens first rest)
            return value?.map .expr
          else
            let prose ← readProse first rest
            return some (.prose prose)
      else
        match (first :: rest).find? (·.kind ≠ .comment) with
        | none => return none
        | some token =>
          record token.span.start (.missingColon name)
          return none

/-- What a block holds: statements, and sub-keywords of the keyword that owns it. -/
structure Block where
  body : List Statement := []
  subKeywords : List SubKeyword := []

namespace Block

def append (a b : Block) : Block :=
  ⟨a.body ++ b.body, a.subKeywords ++ b.subKeywords⟩

instance : Append Block := ⟨append⟩

def ofStatement (statement : Statement) : Block :=
  { body := [statement] }

def ofSubKeyword (sub : SubKeyword) : Block :=
  { subKeywords := [sub] }

end Block

inductive Role where
  | comment
  | expression
  | keyword
  | subKeyword (parent : String)
  | strayDirective
  | answer
  | prose
  deriving DecidableEq

/-- The role of a line by its first token, in a block owned by `parent`. -/
def Role.of (parent : Option String) (first : Token) : Role :=
  match first.kind, parent with
  | .comment, _ => comment
  | .expressionStart, _ => expression
  | .keyword, _ => keyword
  | .subKeyword, some parent => subKeyword parent
  | .subKeyword, none => strayDirective
  | _, some _ => answer
  | _, none => prose

def Role.ownsBlock : Role → Bool
  | keyword | subKeyword _ | strayDirective | answer => true
  | comment | expression | prose => false

/-- The keyword that owns the sub-keywords in the block of a line. -/
def Role.owner (role : Role) (first : Token) : Option String :=
  match role with
  | keyword | strayDirective => some (Text.lower first.text)
  | _ => none

inductive Heading where
  | complete (block : Block)
  | keyword (name : String) (argument : Option Argument)
  | subKeyword (name : String) (argument : Option Argument)
  | answer (text : Prose)

def readHeading (role : Role) (first : Token) (rest : List Token) : Recorder Heading := do
  let name := Text.lower first.text
  match role with
  | .comment => return .complete (.ofStatement (.comment first.span first.text))
  | .expression =>
    let value? ← readExpr true first rest
    return .complete
      { body := value?.toList.map fun value =>
          .expression ⟨first.span.start, value.span.stop⟩ value }
  | .keyword =>
    let argument ← readArgument none name first rest
    return .keyword name argument
  | .strayDirective =>
    record first.span.start (.strayDirective first.text)
    let argument ← readArgument none name first rest
    return .keyword name argument
  | .subKeyword parent =>
    let argument ← readArgument (some parent) name first rest
    return .subKeyword name argument
  | .answer =>
    let text ← readProse first rest
    return .answer text
  | .prose =>
    let text ← readProse first rest
    return .complete (.ofStatement (.prose text))

/-- Joins a line and the block it owns, which together end at `stop`. -/
def Heading.close (start stop : Position) (block : Block) : Heading → Block
  | complete whole => whole
  | keyword name argument =>
    .ofStatement (.keyword ⟨start, stop⟩ name argument block.subKeywords block.body)
  | subKeyword name argument => .ofSubKeyword (.mk ⟨start, stop⟩ name argument block.body)
  | answer text => .ofStatement (.answer ⟨start, stop⟩ text block.body)

/-- Reads the items of a block owned by `parent`: the keyword that takes its sub-keywords, if any.
-/
def readItems (parent : Option String) : List Outline.Item → Recorder Block
  | [] => return {}
  | .newline :: rest => readItems parent rest
  | .block indent items :: rest => do
      record indent.span.start .unexpectedIndentation
      let nested ← readItems parent items
      let others ← readItems parent rest
      return nested ++ others
  | .line first more :: .block indent items :: rest => do
      let role := Role.of parent first
      let heading ← readHeading role first more
      let last := more.getLastD first
      if role.ownsBlock then
        let block ← readItems (role.owner first) items
        let stop := (Outline.lastToken last items).span.stop
        let others ← readItems parent rest
        return heading.close first.span.start stop block ++ others
      else
        let others ← readItems parent (.block indent items :: rest)
        return heading.close first.span.start last.span.stop {} ++ others
  | .line first more :: rest => do
      let heading ← readHeading (Role.of parent first) first more
      let others ← readItems parent rest
      return heading.close first.span.start (more.getLastD first).span.stop {} ++ others
  termination_by items => sizeOf items

def readSections : List (Token × List Outline.Item) → Recorder (List Statement)
  | [] => return []
  | (dedent, items) :: rest => do
      record dedent.span.start .unexpectedDedent
      let block ← readItems none items
      let others ← readSections rest
      return block.body ++ others

def readOutline (outline : Outline) : Recorder (List Statement) := do
  let block ← readItems none outline.items
  let others ← readSections outline.strays
  return block.body ++ others

/-- The program that a list of tokens makes, and the faults in it. Any list will do. -/
def ofTokens (tokens : List Token) : Except Numeral.Error (Program × List Fault) := do
  let (body, faults) ← (readOutline (.ofTokens tokens)).run []
  let stop := (tokens.getLast?.map fun token => token.span.stop).getD .origin
  return (⟨⟨.origin, stop⟩, body⟩, faults)

def ofSource (source : String) : Except Numeral.Error (Program × List Fault) :=
  ofTokens (Token.ofSource source)

end GuidedTrack.Program
