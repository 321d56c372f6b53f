import GuidedTrack.Expr.Grammar

/-! # The grammar as a relation

`Derives S phrase ts rest value` says that the tokens of `ts` before `rest` are a phrase of the
grammar, with `value` as its tree. What a string literal stands for is the parameter `S`. A phrase
may end anywhere: which end the reader finds is a matter of the reader.

    or      := and ("or" and)*          and     := equality ("and" equality)*
    equality := order ("=" order)*      order   := member (("<" | ">" | "<=" | ">=") member)*
    member  := sum ("in" sum)*          sum     := product (("+" | "-") product | NEG factors)*
    product := sign factors             factors := (("*" | "/" | "%") sign)*
    sign    := ("not" | "-") sign | suffixed
    suffixed := primary ("(" items ")" | "[" or "]" | "." NAME)*
    primary := NUMBER | STRING | NAME | "(" or ")" | "[" items "]" | "{" entries "}"
    items   := (or ("," or)* ","?)?     entries := (or "->" or ("," or "->" or)* ","?)?
-/

namespace GuidedTrack.Expr

/-- The nonterminals. The first five levels are given by the tiers of operators they use, loosest
first; a repetition carries the tree of what stands before it. -/
inductive Phrase where
  | tiers (levels : List Tier)
  | tierTail (tier : Tier) (tighter : List Tier) (left : Expr)
  | sum
  | sumTail (left : Expr)
  | product
  | productTail (left : Expr)
  | sign
  | suffixed
  | suffixTail (value : Expr)
  | primary
  | items (closing : Token.Kind)
  | entries

namespace Phrase

@[reducible] def Value : Phrase → Type
  | items _ => List Expr
  | entries => List Entry
  | _ => Expr

abbrev whole : Phrase := tiers Expr.tiers

end Phrase

def Spells (token : Token) (op : BinaryOp) : Prop :=
  token.kind = .operator ∧ token.text = op.symbol

def SpellsSign (token : Token) (op : UnaryOp) : Prop :=
  token.kind = .operator ∧ token.text = op.symbol

/-- The token is a numeral with a minus in front of the unsigned numeral `raw`. -/
def Negates (token : Token) (raw : String) : Prop :=
  token.kind = .number ∧ token.text.toList = '-' :: raw.toList

inductive Derives (S : Token → Expr → Prop) :
    (phrase : Phrase) → List Token → List Token → phrase.Value → Prop where
  | sum {ts rest : List Token} {value : Expr} (inner : Derives S .sum ts rest value) :
      Derives S (.tiers []) ts rest value
  | tier {tier : Tier} {tighter : List Tier} {ts us rest : List Token} {first value : Expr}
      (operand : Derives S (.tiers tighter) ts us first)
      (tail : Derives S (.tierTail tier tighter first) us rest value) :
      Derives S (.tiers (tier :: tighter)) ts rest value
  | tierStop {tier : Tier} {tighter : List Tier} {ts : List Token} {left : Expr} :
      Derives S (.tierTail tier tighter left) ts ts left
  | tierStep {tier : Tier} {tighter : List Tier} {token : Token} {op : BinaryOp}
      {ts us rest : List Token} {left right value : Expr} (mem : op ∈ tier)
      (spells : Spells token op) (operand : Derives S (.tiers tighter) ts us right)
      (tail : Derives S (.tierTail tier tighter (join op left right)) us rest value) :
      Derives S (.tierTail tier tighter left) (token :: ts) rest value
  | terms {ts us rest : List Token} {first value : Expr} (operand : Derives S .product ts us first)
      (tail : Derives S (.sumTail first) us rest value) : Derives S .sum ts rest value
  | sumStop {ts : List Token} {left : Expr} : Derives S (.sumTail left) ts ts left
  | sumStep {token : Token} {op : BinaryOp} {ts us rest : List Token} {left right value : Expr}
      (mem : op = .add ∨ op = .subtract) (spells : Spells token op)
      (operand : Derives S .product ts us right)
      (tail : Derives S (.sumTail (join op left right)) us rest value) :
      Derives S (.sumTail left) (token :: ts) rest value
  | sumNegated {token : Token} {raw : String} {number : Number} {ts us rest : List Token}
      {left right value : Expr} (negates : Negates token raw) (read : Numeral.read raw = .ok number)
      (operand : Derives S (.productTail (.literal ⟨token.span.start.advance 1, token.span.stop⟩
        (.number number) raw)) ts us right)
      (tail : Derives S (.sumTail (join .subtract left right)) us rest value) :
      Derives S (.sumTail left) (token :: ts) rest value
  | factors {ts us rest : List Token} {first value : Expr} (operand : Derives S .sign ts us first)
      (tail : Derives S (.productTail first) us rest value) : Derives S .product ts rest value
  | productStop {ts : List Token} {left : Expr} : Derives S (.productTail left) ts ts left
  | productStep {token : Token} {op : BinaryOp} {ts us rest : List Token} {left right value : Expr}
      (mem : op = .multiply ∨ op = .divide ∨ op = .remainder) (spells : Spells token op)
      (operand : Derives S .sign ts us right)
      (tail : Derives S (.productTail (join op left right)) us rest value) :
      Derives S (.productTail left) (token :: ts) rest value
  | signed {token : Token} {op : UnaryOp} {ts rest : List Token} {argument : Expr}
      (spells : SpellsSign token op) (operand : Derives S .sign ts rest argument) :
      Derives S .sign (token :: ts) rest (.unary ⟨token.span.start, argument.span.stop⟩ op argument)
  | unsigned {ts rest : List Token} {value : Expr} (inner : Derives S .suffixed ts rest value) :
      Derives S .sign ts rest value
  | suffixed {ts us rest : List Token} {first value : Expr} (inner : Derives S .primary ts us first)
      (tail : Derives S (.suffixTail first) us rest value) : Derives S .suffixed ts rest value
  | suffixStop {ts : List Token} {value : Expr} : Derives S (.suffixTail value) ts ts value
  | call {opening closing : Token} {ts us rest : List Token} {arguments : List Expr}
      {callee value : Expr} (opens : opening.kind = .leftParen)
      (closes : closing.kind = .rightParen)
      (inner : Derives S (.items .rightParen) ts (closing :: us) arguments)
      (tail : Derives S (.suffixTail (.call ⟨callee.span.start, closing.span.stop⟩ callee
          arguments))
        us rest value) : Derives S (.suffixTail callee) (opening :: ts) rest value
  | index {opening closing : Token} {ts us rest : List Token} {object index value : Expr}
      (opens : opening.kind = .leftBracket) (closes : closing.kind = .rightBracket)
      (inner : Derives S .whole ts (closing :: us) index)
      (tail : Derives S (.suffixTail (.index ⟨object.span.start, closing.span.stop⟩ object index))
        us rest value) : Derives S (.suffixTail object) (opening :: ts) rest value
  | member {dot name : Token} {ts rest : List Token} {object value : Expr} (opens : dot.kind = .dot)
      (names : name.kind = .identifier)
      (tail : Derives S (.suffixTail (.member ⟨object.span.start, name.span.stop⟩ object
        ⟨name.span, name.text⟩)) ts rest value) :
      Derives S (.suffixTail object) (dot :: name :: ts) rest value
  | number {token : Token} {number : Number} {ts : List Token} (kind : token.kind = .number)
      (read : Numeral.read token.text = .ok number) :
      Derives S .primary (token :: ts) ts (.literal token.span (.number number) token.text)
  | string {token : Token} {ts : List Token} {value : Expr} (kind : token.kind = .string)
      (stands : S token value) : Derives S .primary (token :: ts) ts value
  | identifier {token : Token} {ts : List Token} (kind : token.kind = .identifier) :
      Derives S .primary (token :: ts) ts (.identifier ⟨token.span, token.text⟩)
  | bracketed {opening closing : Token} {ts rest : List Token} {value : Expr}
      (opens : opening.kind = .leftParen) (closes : closing.kind = .rightParen)
      (inner : Derives S .whole ts (closing :: rest) value) :
      Derives S .primary (opening :: ts) rest value
  | array {opening closing : Token} {ts rest : List Token} {elements : List Expr}
      (opens : opening.kind = .leftBracket) (closes : closing.kind = .rightBracket)
      (inner : Derives S (.items .rightBracket) ts (closing :: rest) elements) :
      Derives S .primary (opening :: ts) rest
        (.array ⟨opening.span.start, closing.span.stop⟩ elements)
  | object {opening closing : Token} {ts rest : List Token} {entries : List Entry}
      (opens : opening.kind = .leftBrace) (closes : closing.kind = .rightBrace)
      (inner : Derives S .entries ts (closing :: rest) entries) :
      Derives S .primary (opening :: ts) rest
        (.object ⟨opening.span.start, closing.span.stop⟩ entries)
  | noItems {closing : Token.Kind} {ts : List Token} : Derives S (.items closing) ts ts []
  | lastItem {closing : Token.Kind} {ts rest : List Token} {item : Expr}
      (inner : Derives S .whole ts rest item) : Derives S (.items closing) ts rest [item]
  | moreItems {closing : Token.Kind} {comma : Token} {ts us rest : List Token} {item : Expr}
      {items : List Expr} (inner : Derives S .whole ts (comma :: us) item)
      (divides : comma.kind = .comma) (more : Derives S (.items closing) us rest items) :
      Derives S (.items closing) ts rest (item :: items)
  | noEntries {ts : List Token} : Derives S .entries ts ts []
  | lastEntry {arrow : Token} {ts us rest : List Token} {key value : Expr}
      (left : Derives S .whole ts (arrow :: us) key) (points : arrow.kind = .arrow)
      (right : Derives S .whole us rest value) :
      Derives S .entries ts rest [.mk ⟨key.span.start, value.span.stop⟩ key value]
  | moreEntries {arrow comma : Token} {ts us vs rest : List Token} {key value : Expr}
      {entries : List Entry} (left : Derives S .whole ts (arrow :: us) key)
      (points : arrow.kind = .arrow) (right : Derives S .whole us (comma :: vs) value)
      (divides : comma.kind = .comma) (more : Derives S .entries vs rest entries) :
      Derives S .entries ts rest (.mk ⟨key.span.start, value.span.stop⟩ key value :: entries)

end GuidedTrack.Expr
