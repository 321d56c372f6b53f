import GuidedTrack.Layout.Code

/-! # Layout of documents

A document is laid out line by line. Lines keep their order and their indentation; what changes is
the spacing inside code, trailing gaps, runs of blank lines, and blank lines between blocks. Between
a `gtformat-disable` and a `gtformat-enable` comment nothing changes.
-/

namespace GuidedTrack.Layout

open Text

def codeDirectives : List String :=
  ["component", "for", "goto", "if", "program", "repeat", "return", "service", "set", "switch",
    "trigger", "wait", "while"]

def isDirectiveChar (c : Char) : Bool :=
  c.isAlphanum || c == '_' || c == '-'

/-- The name of the directive that a line starts with. A second star before the first colon makes
the first one emphasis. -/
def directiveName? : List Char → Option (List Char)
  | '*' :: rest =>
    let name := rest.takeWhile isDirectiveChar
    let after := (rest.dropWhile isDirectiveChar).takeWhile (· != ':')
    if name.isEmpty || after.contains '*' then none else some name
  | _ => none

/-- Lays out a line that starts with a directive. Without a colon after the name it stays as it is.
-/
def layoutDirective (style : Style) (content name : List Char) : List Char :=
  match content.drop (name.length + 1) with
  | ':' :: rest =>
    let head := content.take (name.length + 2)
    let argument := rest.dropWhile isGap
    if argument.isEmpty then head
    else if codeDirectives.contains (lower (String.ofList name)) then
      head ++ ' ' :: code style false (collapse argument)
    else head ++ ' ' :: argument
  | _ => content

/-- Lays out the content of a line, its indentation and trailing gaps taken off. -/
def layoutContent (style : Style) (content : List Char) : List Char :=
  match content with
  | '-' :: '-' :: _ => content
  | '>' :: '>' :: rest =>
    let expression := rest.dropWhile isGap
    if expression.isEmpty then ['>', '>']
    else '>' :: '>' :: ' ' :: code style true expression
  | _ =>
    match directiveName? content with
    | none => content
    | some name => layoutDirective style content name

/-- The most recent line at one depth, and whether it is a directive. -/
structure Sibling where
  depth : Nat
  isKeyword : Bool
  deriving DecidableEq, Repr

/-- What has been laid out so far: whether the last line written is blank, the most recent line of
each depth that is still open, deepest first, and whether layout is switched off. -/
structure State where
  lastBlank : Option Bool := none
  siblings : List Sibling := []
  disabled : Bool := false

/-- Whether a new block starts with a line, and the open depths after it. It does if the line before
it at its depth had deeper lines, or if only one of the two is a directive. -/
def startsBlock (siblings : List Sibling) (line : Sibling) : Bool × List Sibling :=
  let deeper := siblings.takeWhile fun sibling => line.depth < sibling.depth
  let outer := siblings.dropWhile fun sibling => line.depth < sibling.depth
  match outer with
  | [] => (false, [line])
  | previous :: rest =>
    if previous.depth = line.depth then
      (!deeper.isEmpty || previous.isKeyword != line.isKeyword, line :: rest)
    else (false, line :: outer)

def isSwitch (word : String) (line : List Char) : Bool :=
  match trim line with
  | '-' :: '-' :: rest => trim rest == word.toList
  | _ => false

def splitCarriage (raw : List Char) : List Char × List Char :=
  if raw.getLast? == some '\r' then (raw.dropLast, ['\r']) else (raw, [])

/-- Lays out a line that is not blank: the lines written for it, and the state after it. -/
def layoutText (style : Style) (state : State) (line carriage : List Char) :
    List (List Char) × State :=
  let indent := line.takeWhile isGap
  let body := line.dropWhile isGap
  let content := dropRightWhile isGap body
  let trailing := if style.trimTrailingWhitespace then [] else body.drop content.length
  let written := indent ++ layoutContent style content ++ trailing ++ carriage
  if content.take 2 == ['-', '-'] then ([written], { state with lastBlank := some false })
  else
    let here : Sibling := ⟨indent.count '\t', (directiveName? content).isSome⟩
    let (starts, siblings) := startsBlock state.siblings here
    let separate := 0 < style.blankLinesBetweenBlocks && starts && state.lastBlank == some false
    (if separate then [[], written] else [written],
      { state with lastBlank := some false, siblings })

def layoutLine (style : Style) (state : State) (raw : List Char) : List (List Char) × State :=
  let (line, carriage) := splitCarriage raw
  if state.disabled then
    let state := { state with lastBlank := some (allBlank raw) }
    if isSwitch "gtformat-enable" line then
      ([raw], { state with disabled := false, siblings := [] })
    else ([raw], state)
  else if isSwitch "gtformat-disable" line then
    ([raw], { state with lastBlank := some (allBlank raw), disabled := true })
  else if allBlank line then
    if state.lastBlank == some true then ([], state)
    else
      let kept := if style.trimTrailingWhitespace then dropRightWhile isGap line else line
      ([kept ++ carriage], { state with lastBlank := some true })
  else layoutText style state line carriage

def layoutLines (style : Style) (state : State) : List (List Char) → List (List Char)
  | [] => []
  | raw :: rest =>
    let (lines, state) := layoutLine style state raw
    lines ++ layoutLines style state rest

def splitFeeds : List Char → List (List Char)
  | [] => [[]]
  | c :: rest =>
    if c == '\n' then [] :: splitFeeds rest
    else match splitFeeds rest with
      | [] => [[c]]
      | line :: more => (c :: line) :: more

def joinFeeds (lines : List (List Char)) : List Char :=
  ['\n'].intercalate lines

def dropBlankEnd (lines : List (List Char)) : List (List Char) :=
  (lines.reverse.dropWhile allBlank).reverse

def layout (style : Style) (source : List Char) : List Char :=
  let finalFeed := source.getLast? == some '\n'
  let lines := splitFeeds source
  let lines := layoutLines style {} (if finalFeed then lines.dropLast else lines)
  if style.insertFinalNewline then
    match dropBlankEnd lines with
    | [] => []
    | kept => joinFeeds kept ++ ['\n']
  else joinFeeds lines ++ (if finalFeed then ['\n'] else [])

def format (style : Style) (source : String) : String :=
  String.ofList (layout style source.toList)

end GuidedTrack.Layout
