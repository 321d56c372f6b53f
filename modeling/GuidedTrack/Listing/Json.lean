import GuidedTrack.Listing

/-! # Listings as JSON

A listing for other programs. A value is a block of lines; a value inside another one is indented by
two spaces. Only printable ASCII characters stand for themselves.
-/

namespace GuidedTrack.Listing.Json

abbrev Block := List String

def unitEscape (n : Nat) : List Char :=
  '\\' :: 'u' :: Text.hexDigits 4 n

/-- One character of a text. One beyond sixteen bits is written as two surrogates. -/
def escaped (c : Char) : List Char :=
  match c with
  | '"' => ['\\', '"']
  | '\\' => ['\\', '\\']
  | '\n' => ['\\', 'n']
  | '\r' => ['\\', 'r']
  | '\t' => ['\\', 't']
  | '\x08' => ['\\', 'b']
  | '\x0c' => ['\\', 'f']
  | c =>
    let n := c.toNat
    if 0x20 ≤ n && n ≤ 0x7E then [c]
    else if n < 0x10000 then unitEscape n
    else
      let offset := n - 0x10000
      unitEscape (0xD800 + offset / 0x400) ++ unitEscape (0xDC00 + offset % 0x400)

def text (s : String) : Block :=
  [String.ofList ('"' :: s.toList.flatMap escaped ++ ['"'])]

def integer (n : Int) : Block :=
  [s!"{n}"]

def optional {α : Type} (write : α → Block) : Option α → Block
  | none => ["null"]
  | some a => write a

def withComma : Block → Block
  | [] => []
  | [line] => [line ++ ","]
  | line :: more => line :: withComma more

/-- Blocks one after the other, with commas between them. -/
def separated : List Block → Block
  | [] => []
  | [block] => block
  | block :: more => withComma block ++ separated more

def enclosed (opening closing : String) (blocks : List Block) : Block :=
  if blocks.isEmpty then [opening ++ closing]
  else opening :: (separated blocks).map ("  " ++ ·) ++ [closing]

def array (items : List Block) : Block :=
  enclosed "[" "]" items

def named : String × Block → Block
  | (_, []) => []
  | (name, line :: more) => s!"\"{name}\": {line}" :: more

def object (fields : List (String × Block)) : Block :=
  enclosed "\x7b" "\x7d" (fields.map named)

def fix (fix : Fix) : Block :=
  object [("range", array [integer fix.start, integer fix.stop]), ("text", text fix.text)]

def message (message : Lint.Message) : Block :=
  let report := message.report
  object
    [("rule_id", text message.rule), ("severity", text message.severity.name),
      ("message", text report.text), ("line", integer report.line),
      ("column", integer report.column), ("end_line", optional integer report.endLine),
      ("end_column", optional integer report.endColumn), ("fix", optional fix report.fix)]

def entry (entry : Entry) : Block :=
  let messages := entry.messages
  object
    [("file_path", text entry.path), ("messages", array (messages.map message)),
      ("error_count", integer (Lint.count .error messages)),
      ("warning_count", integer (Lint.count .warning messages)),
      ("fixable_error_count", integer (Lint.fixableCount .error messages)),
      ("fixable_warning_count", integer (Lint.fixableCount .warning messages))]

def listing (listing : Listing) : Block :=
  array (listing.map entry)

end GuidedTrack.Listing.Json
