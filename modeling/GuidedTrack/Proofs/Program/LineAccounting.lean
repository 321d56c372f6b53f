import GuidedTrack.Proofs.Program.RecordedFaults
import GuidedTrack.Proofs.Program.SpanNesting

/-! # Every line is accounted for

Each line of a document makes one node that starts with its first token, and the tree has no other
statements, answers or sub-keywords. Only a line of code that cannot be read leaves none, and then a
fault of that line is recorded.
-/

namespace GuidedTrack

open List Node

variable {faults before after : List Fault} {nodes : List Node} {node : Node}
  {parent : Option String} {P : Position → Prop} {first : Token} {heading : Heading}
  {lines : List (List Token)} {text : List Char} {items : List Item} {child : Node} {p : Position}

namespace Node

def isLine : Node → Bool
  | statement _ | subKeyword _ => true
  | _ => false

def directive? : Node → Option (Position × String)
  | statement (.keyword span name _ _ _) => some (span.start, name)
  | subKeyword (.mk span name _ _) => some (span.start, name)
  | _ => none

def lineNodes (node : Node) : List Node :=
  node.walk.filter isLine

theorem lineNodes_eq (node : Node) :
    node.lineNodes = (if node.isLine then [node] else []) ++ node.children.flatMap lineNodes := by
  rw [lineNodes, walk_eq, filter_cons, filter_flatMap]
  split <;> rfl

theorem lineNodes_of_isWithinLine (h : node.isWithinLine = true) : node.lineNodes = [] := by
  refine filter_eq_nil_iff.mpr fun other hother => Bool.not_eq_true _ ▸ ?_
  have hwithin := isWithinLine_of_mem_walk h other hother
  cases other <;> first | rfl | cases hwithin

end Node

namespace Program

open Outline (Item linesOf)
open Token (SolidChain Written Lined)

/-! ## Lines and their nodes -/

/-- The node that a line makes, by the first token of the line. -/
inductive Opens (first : Token) : Node → Prop where
  | comment (kind : first.kind = .comment) :
      Opens first (.statement (.comment first.span first.text))
  | expression {span : Span} {value : Expr} (kind : first.kind = .expressionStart)
      (start : span.start = first.span.start) : Opens first (.statement (.expression span value))
  | keyword {span : Span} {argument : Option Argument} {subKeywords : List SubKeyword}
      {body : List Statement} (kind : first.kind.isDirective = true)
      (start : span.start = first.span.start) :
      Opens first (.statement (.keyword span (Text.lower first.text) argument subKeywords body))
  | subKeyword {span : Span} {argument : Option Argument} {body : List Statement}
      (kind : first.kind = .subKeyword) (start : span.start = first.span.start) :
      Opens first (.subKeyword (.mk span (Text.lower first.text) argument body))
  | answer {span : Span} {text : Prose} {body : List Statement}
      (kind : first.kind.opensProse = true)
      (start : span.start = first.span.start) : Opens first (.statement (.answer span text body))
  | prose {text : Prose} (kind : first.kind.opensProse = true)
      (start : text.span.start = first.span.start) : Opens first (.statement (.prose text))

/-- Lines and the nodes they make, one for each. A line of code may leave none if a fault says
so. -/
inductive Accounts (faults : List Fault) : List (List Token) → List Node → Prop where
  | nil : Accounts faults [] []
  | node {first : Token} {line : List Token} {lines : List (List Token)} {node : Node}
      {nodes : List Node} (opens : Opens first node) (rest : Accounts faults lines nodes) :
      Accounts faults ((first :: line) :: lines) (node :: nodes)
  | lost {first : Token} {line : List Token} {lines : List (List Token)} {nodes : List Node}
      (kind : first.kind = .expressionStart)
      (reported : ∃ fault ∈ faults, ∃ rest,
        fault.message = s!"Line {first.span.start.line}," ++ rest)
      (rest : Accounts faults lines nodes) : Accounts faults ((first :: line) :: lines) nodes

theorem Accounts.append {faults : List Fault} {lines others : List (List Token)}
    {nodes more : List Node} (h : Accounts faults lines nodes)
    (hmore : Accounts faults others more) :
    Accounts faults (lines ++ others) (nodes ++ more) := by
  induction h with
  | nil => exact hmore
  | node opens rest ih => exact .node opens ih
  | lost kind reported rest ih => exact .lost kind reported ih

theorem message_eq (fault : Fault) :
    ∃ rest, fault.message = s!"Line {fault.position.line}," ++ rest := by
  refine ⟨s!" column {fault.position.column}: {fault.cause.message}", ?_⟩
  apply String.toList_inj.mp
  simp [Fault.message, toString]

/-- A line of code that makes no tree has a fault of its own. -/
theorem exists_reported {line : List Token} (hlined : Lined P p text (first :: line))
    (h : Expr.ofTokens true first.span.start line = .ok (none, faults)) :
    ∃ fault ∈ faults, ∃ rest, fault.message = s!"Line {first.span.start.line}," ++ rest := by
  have hsolid := hlined.onLine.solidChain.solid
  have hfirst := hlined.row.line_eq mem_cons_self
  obtain ⟨fault, hfault, hplace⟩ := Expr.exists_fault_of_none h
    (fun token htoken => hsolid token (mem_cons_of_mem first htoken)) hfirst
  obtain ⟨rest, hmessage⟩ := message_eq fault
  rw [hplace, ← hfirst] at hmessage
  exact ⟨fault, hfault, rest, hmessage⟩

/-- What a line makes with the nodes `inner` of its block: one node that starts with the line and
has them as its last children, or nothing if it is a line of code that cannot be read. -/
inductive Makes (first : Token) (line : List Token) (before after : List Fault)
    (inner : List Node) :
    List Node → Prop where
  | node {node : Node} {within : List Node} (opens : Opens first node) (made : node.isLine = true)
      (children : node.children = within ++ inner)
      (inline : ∀ child ∈ within, child.isWithinLine = true) :
      Makes first line before after inner [node]
  | lost {faults : List Fault} (kind : first.kind = .expressionStart)
      (unread : Expr.ofTokens true first.span.start line = .ok (none, faults))
      (recorded : after = before ++ faults) : Makes first line before after inner []

theorem Heads.makes {line : List Token} {start stop : Position} {lo hi : Int}
    (h : Heads parent first line before heading after) (hstart : start = first.span.start)
    (hchained : Chained lo hi (nodes.map Node.span))
    (hblock : ∀ node ∈ nodes, InBlock ((Role.of parent first).owner first) node)
    (hplain : (Role.of parent first).ownsBlock = false → nodes = []) :
    Makes first line before after nodes (heading.nodes start stop nodes) := by
  subst hstart
  have hkeyword (argument : Option Argument) (hkind : first.kind.isDirective = true) :
      Makes first line before after nodes
        ((Heading.keyword (Text.lower first.text) argument).nodes first.span.start stop nodes) := by
    refine .node (.keyword hkind rfl) rfl ?_ (isWithinLine_of_mem_argument argument)
    rw [children, mergeSort_eq_of_chained (perm_of_inBlock hblock) hchained]
  cases h with
  | comment kind =>
    obtain rfl := hplain (by simp [Role.of, kind, Role.ownsBlock])
    exact .node (.comment kind) rfl (show _ = [] ++ [] from rfl) (by simp)
  | @expression value? found kind tree =>
    obtain rfl := hplain (by simp [Role.of, kind, Role.ownsBlock])
    cases value? with
    | none => exact .lost kind tree rfl
    | some value =>
      exact .node (.expression kind rfl) rfl (show _ = [.expr value] ++ [] from rfl)
        (by simp [isWithinLine])
  | keyword kind reads | stray kind alone reads => exact hkeyword _ (by rw [kind]; rfl)
  | @subKeyword owner argument after kind owned reads =>
    have hbody : ∀ node ∈ nodes, InBlock none node := by
      simpa [Role.of, kind, owned, Role.owner] using hblock
    refine .node (.subKeyword kind rfl) rfl ?_ (isWithinLine_of_mem_argument argument)
    rw [children, map_statement_of_inBlock hbody]
  | @answer owner prose after kind owned reads =>
    have hbody : ∀ node ∈ nodes, InBlock none node := by
      simpa [owned, (Role.of_opensProse kind).2, Role.owner] using hblock
    refine .node (.answer kind rfl) rfl (show _ = [.prose prose] ++ nodes from ?_)
      (by simp [isWithinLine])
    rw [children, map_statement_of_inBlock hbody]
    rfl
  | @prose prose after kind alone reads =>
    obtain rfl := hplain (by rw [alone, (Role.of_opensProse kind).1]; rfl)
    obtain ⟨parts, mid, -, hresult⟩ := exists_of_run_bind reads
    cases hresult
    refine .node (.prose kind rfl) rfl (show _ = ofParts parts ++ [] from ?_)
      fun child hchild => isWithinLine_of_isCode (isCode_of_mem_ofParts hchild)
    rw [append_nil]
    rfl

theorem Makes.accounts {line : List Token} {inner : List Node}
    (h : Makes first line before after inner nodes) (hlined : Lined P p text (first :: line))
    (hplain : first.kind = .expressionStart → inner = []) (hfaults : after ⊆ faults)
    (hinner : Accounts faults lines (inner.flatMap lineNodes)) :
    Accounts faults ((first :: line) :: lines) (nodes.flatMap lineNodes) := by
  cases h with
  | @node node within opens made children inline =>
    have hnone : within.flatMap lineNodes = [] := flatMap_eq_nil_iff.mpr
      fun child hchild => lineNodes_of_isWithinLine (inline child hchild)
    rw [flatMap_singleton, lineNodes_eq, made, children, flatMap_append, hnone]
    exact .node opens hinner
  | lost kind unread recorded =>
    obtain ⟨fault, hfault, hmessage⟩ := exists_reported hlined unread
    rw [hplain kind] at hinner
    exact .lost kind ⟨fault, hfaults (recorded ▸ mem_append_right _ hfault), hmessage⟩ hinner

structure Laid (P : Position → Prop) (items : List Item) : Prop where
  lined : ∀ line ∈ linesOf items, ∃ p text, Lined P p text line
  solidChain : ∃ lo hi, SolidChain P lo hi (linesOf items).flatten

namespace Laid

variable {P : Position → Prop} {items others : List Item}

theorem block {indent : Token} (h : Laid P (.block indent items :: others)) :
    Laid P items ∧ Laid P others := by
  obtain ⟨lined, lo, hi, solidChain⟩ := h
  obtain ⟨hinside, hothers⟩ := forall_mem_append.mp lined
  rw [linesOf, flatten_append] at solidChain
  obtain ⟨mid, hfront, hback⟩ := solidChain.split
  exact ⟨⟨hinside, lo, mid, hfront⟩, hothers, mid, hi, hback⟩

theorem line {first : Token} {rest : List Token} (h : Laid P (.line first rest :: items)) :
    (∃ p text, Lined P p text (first :: rest)) ∧ Laid P items := by
  obtain ⟨lined, lo, hi, solidChain⟩ := h
  obtain ⟨hline, hothers⟩ := forall_mem_append.mp lined
  rw [linesOf, flatten_append] at solidChain
  obtain ⟨mid, -, hback⟩ := solidChain.split
  exact ⟨hline _ (mem_singleton.mpr rfl), hothers, mid, hi, hback⟩

theorem owned {owns : Prop} {inner : List Item}
    (howned : items = [] ∧ inner = [] ∨ owns ∧ ∃ indent, items = [.block indent inner])
    (h : Laid P (items ++ others)) : Laid P inner ∧ Laid P others := by
  rcases howned with ⟨rfl, rfl⟩ | ⟨-, indent, rfl⟩
  · exact ⟨⟨by simp [linesOf], 0, 0, ⟨.nil (Int.le_refl 0), by simp [linesOf]⟩⟩, h⟩
  · exact h.block

end Laid

/-- A line makes its node over the nodes of the items it owns. -/
theorem Reads.makes {line : List Token} {owned : List Item} {mid late : List Fault}
    (inner : Reads ((Role.of parent first).owner first) items mid nodes late)
    (owns : owned = [] ∧ items = [] ∨ (Role.of parent first).ownsBlock = true ∧
      ∃ indent, owned = [.block indent items]) (heads : Heads parent first line before heading mid)
    (hlaid : Laid P items) (stop : Position) :
    Makes first line before mid nodes (heading.nodes first.span.start stop nodes) ∧
      ((Role.of parent first).ownsBlock = false → nodes = []) := by
  have hplain : (Role.of parent first).ownsBlock = false → nodes = [] := by
    intro hplain
    rcases owns with ⟨rfl, rfl⟩ | ⟨howns, -⟩
    · exact inner.nodes_of_nil
    · rw [howns] at hplain
      cases hplain
  obtain ⟨lo, hi, hchain⟩ := hlaid.solidChain
  exact ⟨heads.makes rfl (inner.strung hlaid.lined hchain).chained inner.inBlock hplain, hplain⟩

theorem Reads.accounts (h : Reads parent items before nodes after) (hlaid : Laid P items)
    (hfaults : after ⊆ faults) :
    Accounts faults (linesOf items) (nodes.flatMap lineNodes) := by
  induction h with
  | nil => exact .nil
  | newline rest ih => exact ih ⟨hlaid.lined, hlaid.solidChain⟩ hfaults
  | block inner rest ihInner ih =>
    obtain ⟨hinside, hothers⟩ := hlaid.block
    rw [linesOf, flatMap_append]
    exact (ihInner hinside (List.Subset.trans rest.subset hfaults)).append (ih hothers hfaults)
  | @line parent first line owned items others heading before mid late after nodes more owns taken
      heads inner rest ihInner ih =>
    have howned : linesOf (owned ++ others) = linesOf items ++ linesOf others := by
      rcases owns with ⟨rfl, rfl⟩ | ⟨-, indent, rfl⟩ <;> rfl
    obtain ⟨⟨p, text, hlined⟩, hrest⟩ := hlaid.line
    obtain ⟨hinside, hothers⟩ := hrest.owned owns
    have hlate := List.Subset.trans rest.subset hfaults
    obtain ⟨hmakes, hplain⟩ := inner.makes owns heads hinside _
    rw [linesOf, howned, Outline.Item.lines, singleton_append, flatMap_append,
      ← cons_append]
    refine (hmakes.accounts hlined (fun hkind => hplain ?_) (List.Subset.trans inner.subset hlate)
      (ihInner hinside hlate)).append (ih hothers hfaults)
    simp [Role.of, hkind, Role.ownsBlock]

/-! ## Directives -/

def directiveOf (token : Token) : Position × String :=
  (token.span.start, Text.lower token.text)

theorem Opens.directive? (h : Opens first node) :
    node.directive? = if first.kind.isDirective then some (directiveOf first) else none := by
  cases h with
  | comment kind => rw [kind]; rfl
  | expression kind start => rw [kind]; rfl
  | keyword kind start => rw [kind, if_pos rfl, directive?, start]; rfl
  | subKeyword kind start => rw [kind, directive?, start]; rfl
  | answer kind start | prose kind start =>
    cases hkind : first.kind <;> simp_all [Token.Kind.opensProse] <;> rfl

/-- Where every line is accounted for, and only first tokens of lines are directives, the directives
of the nodes are those of the tokens. -/
theorem Accounts.directives (h : Accounts faults lines nodes)
    (hleading : ∀ line ∈ lines, ∀ token ∈ line.tail, token.kind.isDirective = false) :
    nodes.filterMap directive? =
      (lines.flatten.filter (·.kind.isDirective)).map directiveOf := by
  have hrest {line : List Token} (h : ∀ token ∈ line, token.kind.isDirective = false) :
      line.filter (·.kind.isDirective) = [] := by
    simpa [filter_eq_nil_iff] using h
  induction h with
  | nil => rfl
  | @node first line lines node nodes opens rest ih =>
    obtain ⟨hline, hlines⟩ := forall_mem_cons.mp hleading
    rw [List.tail_cons] at hline
    rw [filterMap_cons, opens.directive?, ih hlines, flatten_cons, cons_append,
      filter_cons, filter_append, hrest hline, nil_append]
    cases first.kind.isDirective <;> rfl
  | @lost first line lines nodes kind reported rest ih =>
    obtain ⟨hline, hlines⟩ := forall_mem_cons.mp hleading
    rw [List.tail_cons] at hline
    rw [ih hlines, flatten_cons, cons_append, filter_cons, filter_append,
      hrest hline, nil_append, kind]
    rfl

theorem filterMap_directive?_lineNodes (node : Node) :
    node.lineNodes.filterMap directive? = node.walk.filterMap directive? := by
  rw [lineNodes, filterMap_filter]
  refine filterMap_congr fun node _ => ?_
  cases node <;> rfl

/-- Every line of a source is accounted for by the nodes of its tree, and its directives are the
keywords and sub-keywords of the tree, in order. -/
theorem ofSource_accounted {source : String} {program : Program} {faults : List Fault}
    (h : ofSource source = .ok (program, faults)) :
    Accounts faults (Token.contentLines (Token.ofSource source)) (Node.program program).lineNodes ∧
      (Node.program program).walk.filterMap Node.directive? =
        ((Token.ofSource source).filter (·.kind.isDirective)).map directiveOf := by
  obtain ⟨items, stop, hreading⟩ := reading_ofSource h
  have haccounts := hreading.reads.accounts ⟨hreading.lined, _, _, hreading.solidChain⟩
    (List.Subset.refl faults)
  have hlines : (Node.program program).children.flatMap Node.lineNodes =
      (Node.program program).lineNodes := by
    rw [Node.lineNodes_eq (.program program)]
    rfl
  have htokens : (Token.ofSource source).filter (·.kind.isDirective) =
      (linesOf items).flatten.filter (·.kind.isDirective) := by
    rw [hreading.lines, Token.contentLines, flatten_splitBy, filter_filter]
    refine filter_congr fun token _ => ?_
    cases token.kind <;> rfl
  have hdirectives := haccounts.directives fun line hline => by
    obtain ⟨p, text, hlined⟩ := hreading.lined line hline
    exact hlined.leading
  rw [hlines] at haccounts hdirectives
  rw [filterMap_directive?_lineNodes, ← htokens] at hdirectives
  rw [hreading.lines] at haccounts
  exact ⟨haccounts, hdirectives⟩

/-- A keyword with an answer, a line of code that cannot be read, and a comment. -/
theorem ofSource_accounted_lost :
    ∃ program faults, ofSource "*if: 1\n\t2\n>>(\n-- 4" = .ok (program, faults) ∧
      faults.length = 1 ∧
      Accounts faults (Token.contentLines (Token.ofSource "*if: 1\n\t2\n>>(\n-- 4"))
        (Node.program program).lineNodes ∧
      (Node.program program).walk.filterMap Node.directive? =
        ((Token.ofSource "*if: 1\n\t2\n>>(\n-- 4").filter (·.kind.isDirective)).map
          directiveOf := by
  obtain ⟨⟨program, faults⟩, hread, hcount⟩ := exists_ok_of_any
    (ofSource "*if: 1\n\t2\n>>(\n-- 4") (·.2.length == 1) (by decide +kernel)
  exact ⟨program, faults, hread, beq_iff_eq.mp hcount, ofSource_accounted hread⟩

end Program
end GuidedTrack
