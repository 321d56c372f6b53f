import GuidedTrack.Token

/-! # Outlines

The outline of a list of tokens says how its lines nest: every indent opens a block that the
matching dedent closes. Any list of tokens has an outline. A block that nothing closes runs to the
end, and dedents that close nothing divide the top level into sections.
-/

namespace GuidedTrack

namespace Outline

/-- A line with content, a line break that ends no such line, or a block. -/
inductive Item where
  | line (first : Token) (rest : List Token)
  | newline
  | block (indent : Token) (items : List Item)

end Outline

/-- The items up to the first dedent that closes nothing, and for each such dedent the items after
it. -/
structure Outline where
  items : List Outline.Item
  strays : List (Token × List Outline.Item)

namespace Outline

/-- Puts a content token in front. It joins the line that follows it directly, or takes the line
break that follows it as its own. -/
def prepend (token : Token) : List Item → List Item
  | .line first rest :: items => .line token (first :: rest) :: items
  | .newline :: items => .line token [] :: items
  | items => .line token [] :: items

/-- Puts a token in front of an outline. An indent takes the items up to the next dedent as its
block. -/
def cons (token : Token) (outline : Outline) : Outline :=
  match token.kind with
  | .dedent => ⟨[], (token, outline.items) :: outline.strays⟩
  | .indent =>
    match outline.strays with
    | [] => ⟨[.block token outline.items], []⟩
    | (_, after) :: strays => ⟨.block token outline.items :: after, strays⟩
  | .newline => { outline with items := .newline :: outline.items }
  | _ => { outline with items := prepend token outline.items }

def ofTokens (tokens : List Token) : Outline :=
  (tokens.takeWhile (·.kind ≠ .endOfInput)).foldr cons ⟨[], []⟩

mutual

/-- The last content token of an item, `last` if it has none. -/
def Item.lastToken (last : Token) : Item → Token
  | .line first rest => rest.getLastD first
  | .newline => last
  | .block _ items => lastToken last items

def lastToken (last : Token) : List Item → Token
  | [] => last
  | item :: rest => lastToken (item.lastToken last) rest

end

end Outline
end GuidedTrack
