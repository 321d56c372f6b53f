import GuidedTrack.Yaml.Cursor

/-! # YAML documents

A text holds one document: mappings and sequences in block or in flow form, and scalars. A key
stands on one line with its colon. Block collections are told apart by their columns.
-/

namespace GuidedTrack.Yaml

def isKey : Datum → Bool
  | .list _ | .map _ => false
  | _ => true

def sameKey : Datum → Datum → Bool
  | .null, .null => true
  | .bool a, .bool b => a == b
  | .integer a, .integer b => a == b
  | .decimal a, .decimal b => a == b
  | .text a, .text b => a == b
  | _, _ => false

/-- Sets the value of a key: in its place if it is there, else at the end. -/
def insert (entries : List (Datum × Datum)) (key value : Datum) : List (Datum × Datum) :=
  if entries.any fun entry => sameKey entry.1 key then
    entries.map fun entry => if sameKey entry.1 key then (entry.1, value) else entry
  else entries ++ [(key, value)]

def insertAt (cursor : Cursor) (entries : List (Datum × Datum)) (key value : Datum) :
    Except Error (List (Datum × Datum)) :=
  if isKey key then .ok (insert entries key value) else cursor.fail .unhashableKey

abbrev Reading := Except Error (Datum × Cursor)

/-- Reads a scalar; `indent` is the column that further lines of a plain one must exceed in a block.
-/
def readScalar (flow : Bool) (indent : Int) (cursor : Cursor) : Reading :=
  let fuel := cursor.rest.length + 1
  match cursor.rest.head? with
  | some '\'' => (readQuoted false fuel (cursor.advance 1)).map fun (cs, next) =>
    (.text (String.ofList cs), next)
  | some '"' => (readQuoted true fuel (cursor.advance 1)).map fun (cs, next) =>
    (.text (String.ofList cs), next)
  | _ =>
    if startsPlain flow cursor.rest then
      let (cs, next) := readPlain flow indent fuel cursor
      let text := String.ofList cs
      if untypedWords.contains text then cursor.fail .untypedWord else .ok (ofPlain text, next)
    else cursor.fail .unexpected

def maxKeyLength : Nat := 1024

def isKeyBefore (start stop colon : Cursor) : Bool :=
  start.line == stop.line && stop.line == colon.line && colon.column - start.column ≤ maxKeyLength

mutual

def readInline (flow : Bool) (indent : Int) (cursor : Cursor) : Nat → Reading
  | 0 => cursor.fail .unexpected
  | fuel + 1 =>
    match cursor.rest.head? with
    | some '[' => readItems (cursor.advance 1) [] fuel
    | some '{' => readPairs (cursor.advance 1) [] fuel
    | _ => readScalar flow indent cursor

def readFlow (cursor : Cursor) : Nat → Reading
  | 0 => cursor.fail .unclosedFlow
  | fuel + 1 =>
    if cursor.atEnd then cursor.fail .unclosedFlow else readInline true 0 cursor fuel

def readFlowValue (colon : Cursor) : Nat → Reading
  | 0 => colon.fail .unclosedFlow
  | fuel + 1 =>
    let next := (colon.advance 1).skip
    match next.rest.head? with
    | some ',' | some ']' | some '}' => .ok (.null, next)
    | _ => readFlow next fuel

/-- Reads a key of a flow collection with its value. After a question mark a key may be missing and
need not stand on one line; without one, a node that is no key has no value. -/
def readFlowPair (start : Cursor) : Nat → Except Error (Datum × Option Datum × Cursor)
  | 0 => start.fail .unclosedFlow
  | fuel + 1 => do
      let marked := start.rest.head? == some '?'
      let opening := if marked then (start.advance 1).skip else start
      let missing := marked && opening.rest.head?.any fun c => c == ':' || isFlowIndicator c
      let (key, stop) ← if missing then pure (Datum.null, opening) else readFlow opening fuel
      let colon := stop.skip
      if colon.rest.head? == some ':' && (marked || isKeyBefore start stop colon) then
        let (value, stop) ← readFlowValue colon fuel
        return (key, some value, stop)
      else return (key, if marked then some .null else none, stop)

/-- Reads the items of a flow sequence, given the last ones first. An item may be a single pair. -/
def readItems (cursor : Cursor) (items : List Datum) : Nat → Reading
  | 0 => cursor.fail .unclosedFlow
  | fuel + 1 => do
      let start := cursor.skip
      if start.rest.head? == some ']' then
        return (.list items.reverse, start.advance 1)
      let (node, value?, stop) ← readFlowPair start fuel
      let item ← match value? with
        | some value => (insertAt start [] node value).map Datum.map
        | none => pure node
      let next := stop.skip
      match next.rest.head? with
      | some ',' => readItems (next.advance 1) (item :: items) fuel
      | some ']' => return (.list (item :: items).reverse, next.advance 1)
      | _ => next.fail .unclosedFlow

def readPairs (cursor : Cursor) (entries : List (Datum × Datum)) : Nat → Reading
  | 0 => cursor.fail .unclosedFlow
  | fuel + 1 => do
      let start := cursor.skip
      if start.rest.head? == some '}' then
        return (.map entries, start.advance 1)
      let (key, value?, stop) ← readFlowPair start fuel
      let entries ← insertAt start entries key (value?.getD .null)
      let next := stop.skip
      match next.rest.head? with
      | some ',' => readPairs (next.advance 1) entries fuel
      | some '}' => return (.map entries, next.advance 1)
      | _ => next.fail .unclosedFlow

end

mutual

/-- Reads a block node that stands deeper than `indent`. Only a `fresh` one, which starts a line or
follows a dash, may be a collection. -/
def readNode (indent : Int) (fresh : Bool) (cursor : Cursor) : Nat → Reading
  | 0 => cursor.fail .unexpected
  | fuel + 1 => do
      if cursor.atIndicator '-' then
        if fresh then readSequence false cursor.column cursor [] fuel
        else cursor.fail .misplacedEntry
      else
        let (node, stop) ← readInline false indent cursor fuel
        let colon := stop.skipSpaces
        if colon.atIndicator ':' then
          if fresh && isKeyBefore cursor stop colon then
            readMapping cursor.column colon node [] fuel
          else colon.fail .misplacedKey
        else return (node, stop)

def readMapping (column : Nat) (colon : Cursor) (key : Datum) (entries : List (Datum × Datum)) :
    Nat → Reading
  | 0 => colon.fail .unexpected
  | fuel + 1 => do
      let next := (colon.advance 1).skip
      let (value, stop) ←
        if next.atEnd then pure (Datum.null, next)
        else if column < next.column then readNode column (next.line != colon.line) next fuel
        else if next.column == column && next.atIndicator '-' then
          readSequence true column next [] fuel
        else pure (Datum.null, next)
      let entries ← insertAt colon entries key value
      let start := stop.skip
      if start.atEnd || start.column < column then return (.map entries, start)
      else if column < start.column then start.fail .badIndentation
      else if start.atIndicator '-' then start.fail .misplacedEntry
      else
        let (key, stop) ← readInline false column start fuel
        let colon := stop.skipSpaces
        if colon.atIndicator ':' && isKeyBefore start stop colon then
          readMapping column colon key entries fuel
        else start.fail .missingColon

/-- Reads a block sequence at a column, from a dash on, given the last items first. One that stands
at the column of the mapping around it ends where a key follows. -/
def readSequence (insideMapping : Bool) (column : Nat) (dash : Cursor) (items : List Datum) :
    Nat → Reading
  | 0 => dash.fail .unexpected
  | fuel + 1 => do
      let next := (dash.advance 1).skip
      let (item, stop) ←
        if next.atEnd || next.column ≤ column then pure (Datum.null, next)
        else readNode column true next fuel
      let start := stop.skip
      if start.atEnd || start.column < column then return (.list (item :: items).reverse, start)
      else if column < start.column then start.fail .badIndentation
      else if start.atIndicator '-' then
        readSequence insideMapping column start (item :: items) fuel
      else if insideMapping then return (.list (item :: items).reverse, start)
      else start.fail .misplacedKey

end

def isAllowed (c : Char) : Bool :=
  let n := c.toNat
  c == '\t' || c == '\n' || c == '\r' || (0x20 ≤ n && n ≤ 0x7E) || n == 0x85 ||
    (0xA0 ≤ n && n ≤ 0xFFFD) || 0x10000 ≤ n

/-- Passes over markers of a document's end; nothing else may follow. -/
def readEnd (cursor : Cursor) : Nat → Except Error Unit
  | 0 => cursor.fail .secondDocument
  | fuel + 1 =>
    let next := cursor.skip
    if next.rest.isEmpty then .ok ()
    else if next.atMarker ['.', '.', '.'] then readEnd (next.advance 3) fuel
    else next.fail .secondDocument

/-- Reads the one document of a text; an empty one is null. A byte order mark before it is dropped.
-/
def readDocument (cs : List Char) : Except Error Datum := do
  let origin : Cursor := ⟨if cs.head? == some '\uFEFF' then cs.tail else cs, 0, 0⟩
  if !cs.all isAllowed then origin.fail .unprintable
  let fuel := 4 * cs.length + 8
  let first := origin.skip
  let marked := first.atMarker ['-', '-', '-']
  let body := if marked then (first.advance 3).skip else first
  if !marked && body.atAnyMarker then body.fail .unexpected
  let (datum, stop) ←
    if body.atEnd then pure (Datum.null, body)
    else readNode (-1) (!marked || body.line != first.line) body fuel
  readEnd stop fuel
  return datum

def read (s : String) : Except Error Datum :=
  readDocument s.toList

end GuidedTrack.Yaml
