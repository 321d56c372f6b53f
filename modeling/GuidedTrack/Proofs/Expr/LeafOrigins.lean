import GuidedTrack.Proofs.Expr.MovedReadings
import GuidedTrack.Proofs.Node.SpanNesting

/-! # Where the leaves of expressions come from

Names, literals and strings with embedded expressions are the leaves that tokens give to a tree; the
grammar puts all else together from them. What holds of every leaf that a token can give holds so of
all leaves of a tree, those inside nested literals included.
-/

namespace GuidedTrack

open List

variable {assignment : Bool} {value : Expr} {faults : List Fault} {parts : List Part}
  {list : List Piece} {ts tokens : List Token} {depth : Nat} {anchor : Position}

namespace Node

def isLeaf : Node → Bool
  | expr (.identifier _) | expr (.literal ..) | expr (.interpolated ..) => true
  | _ => false

def Deep (Q : Node → Prop) (node : Node) : Prop :=
  ∀ other ∈ node.walk, Q other

theorem deep_iff {Q : Node → Prop} {node : Node} :
    Deep Q node ↔ Q node ∧ ∀ child ∈ node.children, Deep Q child :=
  forall_mem_walk

end Node

namespace Expr

open Node (Deep deep_iff)

variable {Q : Node → Prop} {S : Token → Expr → Prop} {token : Token}

structure Gives (Q : Node → Prop) (S : Token → Expr → Prop) (token : Token) : Prop where
  number : token.kind = .number → ∀ n, Q (.expr (.literal token.span (.number n) token.text))
  negated : ∀ raw n, Negates token raw →
    Q (.expr (.literal ⟨token.span.start.advance 1, token.span.stop⟩ (.number n) raw))
  identifier : token.kind = .identifier → Q (.expr (.identifier ⟨token.span, token.text⟩))
  string : token.kind = .string → ∀ value, S token value → Deep Q (.expr value)

/-- A property of all that a phrase puts together; a repetition goes on from the tree before it. -/
def Phrase.Deep (Q : Node → Prop) : (phrase : Phrase) → phrase.Value → Prop
  | tierTail _ _ left, value | sumTail left, value | productTail left, value
  | suffixTail left, value => Node.Deep Q (.expr left) → Node.Deep Q (.expr value)
  | items _, values => ∀ value ∈ values, Node.Deep Q (.expr value)
  | entries, values => ∀ value ∈ values, Node.Deep Q (.entry value)
  | tiers _, value | sum, value | product, value | sign, value | suffixed, value
  | primary, value => Node.Deep Q (.expr value)

section

variable (hmade : ∀ node : Node, node.isLeaf = false → Q node)

include hmade

theorem deep_join {op : BinaryOp} {left right : Expr} (hleft : Deep Q (.expr left))
    (hright : Deep Q (.expr right)) : Deep Q (.expr (join op left right)) :=
  deep_iff.mpr ⟨hmade _ rfl, by simp [join, Node.children, hleft, hright]⟩

theorem deep_entry {span : Span} {key : Expr} (hkey : Deep Q (.expr key))
    (hvalue : Deep Q (.expr value)) : Deep Q (.entry (.mk span key value)) :=
  deep_iff.mpr ⟨hmade _ rfl, by simp [Node.children, hkey, hvalue]⟩

/-- What holds of all that the tokens give holds of all that a phrase of them stands for. -/
theorem Derives.deep {phrase : Phrase} {rest : List Token} {value : phrase.Value}
    (h : Derives S phrase ts rest value) (htokens : ∀ token ∈ ts, Gives Q S token) :
    phrase.Deep Q value := by
  have hrest {phrase : Phrase} {ts rest : List Token} {value : phrase.Value}
      (h : Derives S phrase ts rest value) (htokens : ∀ token ∈ ts, Gives Q S token) :
      ∀ token ∈ rest, Gives Q S token := fun token htoken => htokens token (h.subset token htoken)
  have htail {token : Token} {ts : List Token} (h : ∀ other ∈ token :: ts, Gives Q S other) :
      ∀ other ∈ ts, Gives Q S other := fun other hother => h other (mem_cons_of_mem token hother)
  have hhead {token : Token} {ts : List Token} (h : ∀ other ∈ token :: ts, Gives Q S other) :
      Gives Q S token := h token mem_cons_self
  have hleaf {node : Node} (hchildren : node.children = []) (hnode : Q node) : Deep Q node :=
    deep_iff.mpr ⟨hnode, by simp [hchildren]⟩
  induction h with
  | sum inner ih | unsigned inner ih => exact ih htokens
  | tier operand tail ih ihTail | terms operand tail ih ihTail | factors operand tail ih ihTail
  | suffixed operand tail ih ihTail => exact ihTail (hrest operand htokens) (ih htokens)
  | tierStop | sumStop | productStop | suffixStop => exact id
  | tierStep mem spells operand tail ih ihTail | sumStep mem spells operand tail ih ihTail
  | productStep mem spells operand tail ih ihTail =>
    exact fun hleft => ihTail (hrest operand (htail htokens))
      (deep_join hmade hleft (ih (htail htokens)))
  | sumNegated negates read operand tail ih ihTail =>
    have hright := ih (htail htokens) (hleaf rfl ((hhead htokens).negated _ _ negates))
    exact fun hleft => ihTail (hrest operand (htail htokens)) (deep_join hmade hleft hright)
  | signed spells operand ih =>
    exact deep_iff.mpr ⟨hmade _ rfl, forall_mem_singleton.mpr (ih (htail htokens))⟩
  | call opens closes inner tail ih ihTail =>
    refine fun hcallee => ihTail (htail (hrest inner (htail htokens)))
      (deep_iff.mpr ⟨hmade _ rfl, ?_⟩)
    exact forall_mem_cons.mpr ⟨hcallee, forall_mem_map.mpr (ih (htail htokens))⟩
  | index opens closes inner tail ih ihTail =>
    refine fun hobject => ihTail (htail (hrest inner (htail htokens)))
      (deep_iff.mpr ⟨hmade _ rfl, ?_⟩)
    exact forall_mem_cons.mpr ⟨hobject, forall_mem_singleton.mpr (ih (htail htokens))⟩
  | member opens names tail ihTail =>
    have hname := hleaf rfl ((hhead (htail htokens)).identifier names)
    refine fun hobject => ihTail (htail (htail htokens)) (deep_iff.mpr ⟨hmade _ rfl, ?_⟩)
    exact forall_mem_cons.mpr ⟨hobject, forall_mem_singleton.mpr hname⟩
  | number kind read => exact hleaf rfl ((hhead htokens).number kind _)
  | string kind stands => exact (hhead htokens).string kind _ stands
  | identifier kind => exact hleaf rfl ((hhead htokens).identifier kind)
  | bracketed opens closes inner ih => exact ih (htail htokens)
  | array opens closes inner ih | object opens closes inner ih =>
    exact deep_iff.mpr ⟨hmade _ rfl, forall_mem_map.mpr (ih (htail htokens))⟩
  | noItems | noEntries => exact fun value hvalue => absurd hvalue not_mem_nil
  | lastItem inner ih => exact forall_mem_singleton.mpr (ih htokens)
  | moreItems inner divides more ih ihMore =>
    exact forall_mem_cons.mpr ⟨ih htokens, ihMore (htail (hrest inner htokens))⟩
  | lastEntry left points right ihLeft ihRight =>
    exact forall_mem_singleton.mpr
      (deep_entry hmade (ihLeft htokens) (ihRight (htail (hrest left htokens))))
  | moreEntries left points right divides more ihLeft ihRight ihMore =>
    have hright := htail (hrest left htokens)
    exact forall_mem_cons.mpr ⟨deep_entry hmade (ihLeft htokens) (ihRight hright),
      ihMore (htail (hrest right hright))⟩

theorem Whole.deep (h : Whole S assignment ts value) (htokens : ∀ token ∈ ts, Gives Q S token) :
    Deep Q (.expr value) := by
  cases assignment with
  | false => exact Derives.deep hmade h htokens
  | true =>
    rcases h with ⟨target, token, us, source, htarget, -, hsource, rfl⟩ | ⟨-, hwhole⟩
    · refine deep_join hmade (htarget.deep hmade htokens)
        (hsource.deep hmade fun other hother => ?_)
      exact htokens other (htarget.subset other (mem_cons_of_mem token hother))
    · exact Derives.deep hmade hwhole htokens

end

/-! ## Literals -/

inductive Within (token : Token) : Token → Prop where
  | self : Within token token
  | inside {outer inner : Token} {place : Nat} {content : List Char} (around : Within token outer)
      (kind : outer.kind = .string)
      (piece : Piece.braced place content ∈ pieces 0 (unquoted outer.text))
      (mem : inner ∈ embedded outer place content) : Within token inner

theorem Within.trans {outer inner : Token} (h : Within token outer) (hinner : Within outer inner) :
    Within token inner := by
  induction hinner with
  | self => exact h
  | inside around kind piece mem ih => exact .inside ih kind piece mem

/-- What is read between two braces of the literal at `token`, with a depth that allows for the
literals inside. -/
def ReadsBraced (token : Token) (place : Nat) (content : List Char) (value? : Option Expr) : Prop :=
  ∃ depth faults, (∀ inner ∈ embedded token place content, inner.kind = .string →
      inner.text.length ≤ depth) ∧
    ofTokensWith (readString depth) false token.span.start (embedded token place content) =
      .ok (value?, faults)

def Fills (token : Token) : Piece → Part → Prop
  | .text content, part => part = .text (String.ofList content)
  | .braced place content, part =>
    ∃ value?, ReadsBraced token place content value? ∧ part = bracedPart content value?

structure Seeds (Q : Node → Prop) (token : Token) : Prop where
  number : token.kind = .number → ∀ n, Q (.expr (.literal token.span (.number n) token.text))
  negated : ∀ raw n, Negates token raw →
    Q (.expr (.literal ⟨token.span.start.advance 1, token.span.stop⟩ (.number n) raw))
  identifier : token.kind = .identifier → Q (.expr (.identifier ⟨token.span, token.text⟩))
  plain : token.kind = .string →
    Q (.expr (.literal token.span (.text (String.ofList (unquoted token.text))) token.text))
  interpolated : token.kind = .string → '{' ∈ unquoted token.text → ∀ parts,
    Forall₂ (Fills token) (pieces 0 (unquoted token.text)) parts →
      Q (.expr (.interpolated token.span parts))

theorem fills_of_readPieces (h : readPieces (readString depth) token list = .ok (parts, faults))
    (hdepth : ∀ place content, Piece.braced place content ∈ list →
      ∀ inner ∈ embedded token place content, inner.kind = .string → inner.text.length ≤ depth) :
    Forall₂ (Fills token) list parts := by
  induction list generalizing parts faults with
  | nil =>
    cases h
    exact .nil
  | cons piece list ih =>
    have hrest := fun place content hmem => hdepth place content (mem_cons_of_mem piece hmem)
    cases piece with
    | text content =>
      rw [readPieces] at h
      obtain ⟨⟨others, more⟩, hothers, h⟩ := exists_of_bind_eq_ok h
      cases h
      exact .cons rfl (ih hothers hrest)
    | braced place content =>
      rw [readPieces] at h
      obtain ⟨⟨value?, found⟩, hvalue, h⟩ := exists_of_bind_eq_ok h
      obtain ⟨⟨others, more⟩, hothers, h⟩ := exists_of_bind_eq_ok h
      cases h
      refine .cons ⟨value?, ⟨depth, found, hdepth place content mem_cons_self, hvalue⟩, ?_⟩
        (ih hothers hrest)
      cases value? <;> rfl

theorem fills_of_readString (h : readString depth token = .ok (value, faults))
    (hbrace : '{' ∈ unquoted token.text) (hdepth : token.text.length ≤ depth) :
    ∃ parts, value = .interpolated token.span parts ∧
      Forall₂ (Fills token) (pieces 0 (unquoted token.text)) parts := by
  cases depth with
  | zero =>
    have hpositive := length_pos_of_mem hbrace
    simp only [unquoted, length_dropLast, length_tail, String.length_toList] at hpositive
    omega
  | succ depth =>
    rw [readString, if_pos (contains_iff_mem.mpr hbrace)] at h
    obtain ⟨⟨parts, found⟩, hparts, h⟩ := exists_of_bind_eq_ok h
    cases h
    refine ⟨parts, rfl, fills_of_readPieces hparts
      fun place content hpiece inner hinner hkind => ?_⟩
    have := text_lt_of_mem_embedded hpiece hinner hkind
    omega

theorem exists_of_mem_ofParts {child : Node} (h : Forall₂ (Fills token) list parts)
    (hchild : child ∈ Node.ofParts parts) :
    ∃ place content value, Piece.braced place content ∈ list ∧
      ReadsBraced token place content (some value) ∧ child = .expr value := by
  induction h with
  | nil => cases hchild
  | @cons piece part list parts fills rest ih =>
    have hrest (hchild : child ∈ Node.ofParts parts) : ∃ place content value,
        Piece.braced place content ∈ piece :: list ∧
          ReadsBraced token place content (some value) ∧ child = .expr value := by
      obtain ⟨place, content, value, hpiece, hfound⟩ := ih hchild
      exact ⟨place, content, value, mem_cons_of_mem piece hpiece, hfound⟩
    cases piece with
    | text content =>
      subst fills
      exact hrest hchild
    | braced place content =>
      obtain ⟨value?, hreads, rfl⟩ := fills
      cases value? with
      | none => exact hrest hchild
      | some value =>
        rcases mem_cons.mp hchild with rfl | hchild
        · exact ⟨place, content, value, mem_cons_self, hreads, rfl⟩
        · exact hrest hchild

theorem Seeds.gives (h : Seeds Q token)
    (hstring : token.kind = .string → ∀ value faults, readString depth token = .ok (value, faults) →
      Deep Q (.expr value)) : Gives Q (Stands (readString depth) fun _ => True) token where
  number := h.number
  negated := h.negated
  identifier := h.identifier
  string kind value stands := by
    obtain ⟨faults, hread, -⟩ := stands
    exact hstring kind value faults hread

section

variable (hmade : ∀ node : Node, node.isLeaf = false → Q node)

include hmade

theorem deep_of_gives {strings : StringReader}
    (h : ofTokensWith strings assignment anchor tokens = .ok (some value, faults))
    (htokens : ∀ token ∈ tokens, Gives Q (Stands strings fun _ => True) token) :
    Deep Q (.expr value) := by
  rcases whole_of_ofTokensWith (p := fun _ => True) h (fun _ _ => trivial) with
    ⟨_, ⟨⟩, hwhole⟩ | ⟨hnone, -⟩
  · exact hwhole.deep hmade fun token htoken => htokens token (mem_filter.mp htoken).1
  · cases hnone

/-- What holds of all leaves that the tokens inside a literal give holds of all that the literal is
read as. -/
theorem deep_of_readString (h : readString depth token = .ok (value, faults))
    (hkind : token.kind = .string) (hdepth : token.text.length ≤ depth)
    (hseeds : ∀ other, Within token other → Seeds Q other) : Deep Q (.expr value) := by
  induction hn : token.text.length using Nat.strongRecOn generalizing token depth value faults with
  | _ n ih =>
    have htoken := hseeds token .self
    by_cases hbrace : '{' ∈ unquoted token.text
    · obtain ⟨parts, rfl, hfills⟩ := fills_of_readString h hbrace hdepth
      refine deep_iff.mpr ⟨htoken.interpolated hkind hbrace parts hfills, fun child hchild => ?_⟩
      obtain ⟨place, content, inner, hpiece, ⟨deeper, more, hdeep, hread⟩, rfl⟩ :=
        exists_of_mem_ofParts hfills hchild
      refine deep_of_gives hmade hread fun other hother => ?_
      have hwithin : Within token other := .inside .self hkind hpiece hother
      refine (hseeds other hwithin).gives fun hstring value found hvalue => ?_
      exact ih _ (hn ▸ text_lt_of_mem_embedded hpiece hother hstring) hvalue hstring
        (hdeep other hother hstring) (fun deepest h => hseeds deepest (hwithin.trans h)) rfl
    · rw [readString_plain hbrace] at h
      cases h
      exact deep_iff.mpr ⟨htoken.plain hkind, by simp [Node.children]⟩

/-- What holds of all leaves that tokens can give holds of all that is read from them. -/
theorem deep_of_ofTokens (h : ofTokens assignment anchor tokens = .ok (some value, faults))
    (hseeds : ∀ token ∈ tokens, ∀ other, Within token other → Seeds Q other) :
    Deep Q (.expr value) :=
  deep_of_gives hmade h fun token htoken => (hseeds token htoken token .self).gives
    fun hkind _ _ hread => deep_of_readString hmade hread hkind (text_le_depth htoken)
      (hseeds token htoken)

end

end Expr
end GuidedTrack
