import GuidedTrack.Proofs.Expr.SpanNesting
import GuidedTrack.Proofs.Program.ReadingRelation
import GuidedTrack.Proofs.Program.SpelledArguments

/-! # Where the nodes of a program stand

Every node of a program stands inside the one around it, apart from its siblings and at its true
line and column, and the order of the document never goes back in the text.
-/

namespace GuidedTrack

open List Node Token

variable {before after : List Fault} {tokens : List Token} {parent : Option String} {first : Token}
  {text : List Char} {faults : List Fault} {nodes : List Node} {rest : List Token} {p : Position}

namespace Program

open Outline (Item linesOf)
open Token (SolidChain Written Lined)

variable {P : Position → Prop} {lo hi : Int}

/-! ## Prose and arguments -/

theorem ofParts_textPart (text : String) : ofParts (textPart text) = [] := by
  unfold textPart
  split <;> rfl

theorem ofParts_append (parts others : List Part) :
    ofParts (parts ++ others) = ofParts parts ++ ofParts others :=
  filterMap_append

theorem strung_value {assignment : Bool} {anchor : Position} {value? : Option Expr}
    (h : Expr.ofTokens assignment anchor tokens = .ok (value?, faults))
    (htokens : SolidChain P lo hi tokens) : Strung P lo hi (value?.toList.map .expr) := by
  cases value? with
  | none => exact .nil htokens.chained.le
  | some value => exact Expr.strung_ofTokens h htokens

theorem later_solidChain {token : Token} (h : SolidChain P lo hi (token :: tokens)) :
    SolidChain P lo hi tokens := by
  obtain ⟨-, hstart, hfilled, hrest⟩ := h.uncons
  exact hrest.widen (by omega) (Int.le_refl _)

theorem strung_readParts {cursor : Option Int} {text : String} {parts : List Part}
    (h : (readParts cursor text tokens).run before = .ok (parts, after))
    (htokens : SolidChain P lo hi tokens) : Strung P lo hi (ofParts parts) := by
  have hembedded (text : String) (value? : Option Expr) :
      ofParts (textPart text ++ value?.toList.map .expr) = value?.toList.map .expr := by
    rw [ofParts_append, ofParts_textPart]
    cases value? <;> rfl
  induction tokens using parts_induction generalizing cursor text before parts lo with
  | nil =>
    rw [readParts] at h
    cases h
    rw [ofParts_textPart]
    exact .nil htokens.chained.le
  | comment token rest hkind ih =>
    rw [readParts_comment _ _ _ hkind] at h
    exact ih h (later_solidChain htokens)
  | plain token rest hcomment hstart ih =>
    rw [readParts_plain _ _ _ hcomment hstart] at h
    exact ih h (later_solidChain htokens)
  | unclosed token inner hkind hinner =>
    rw [readParts_open _ _ hkind hinner] at h
    obtain ⟨value?, mid, hread, h⟩ := exists_of_run_bind h
    obtain ⟨faults, htree, rfl⟩ := run_readExpr hread
    obtain ⟨_, mid, hrecord, h⟩ := exists_of_run_bind h
    cases h
    rw [hembedded]
    exact strung_value htree (later_solidChain htokens)
  | hole token inner close more hkind hinner hclose ih =>
    rw [readParts_hole _ _ hkind hinner hclose] at h
    obtain ⟨value?, mid, hread, h⟩ := exists_of_run_bind h
    obtain ⟨faults, htree, rfl⟩ := run_readExpr hread
    obtain ⟨others, mid, hothers, h⟩ := exists_of_run_bind h
    cases h
    obtain ⟨middle, hinside, houter⟩ := (later_solidChain htokens).split
    rw [ofParts_append, hembedded]
    exact (strung_value htree hinside).append (ih hothers (later_solidChain houter))

theorem strung_readProse {text : Prose} (h : (readProse first rest).run before = .ok (text, after))
    (htokens : SolidChain P lo hi (first :: rest)) :
    text.span = spanOf first rest ∧ Strung P first.span.start.offset
      (rest.getLastD first).span.stop.offset (ofParts text.parts) := by
  obtain ⟨parts, mid, hparts, h⟩ := exists_of_run_bind h
  cases h
  exact ⟨rfl, strung_readParts hparts htokens.fitted⟩

theorem strung_spanning {node : Node} (htokens : SolidChain P lo hi (first :: rest))
    (hspan : node.span = spanOf first rest)
    (h : Strung P first.span.start.offset (rest.getLastD first).span.stop.offset
      node.children) : Strung P lo hi [node] := by
  obtain ⟨⟨piece, hfirst⟩, hstart, hfilled, hrest⟩ := htokens.uncons
  have hlast : rest.getLastD first ∈ first :: rest := getLastD_mem_cons
  obtain ⟨piece', hsolid⟩ := htokens.solid _ hlast
  have hbounds := htokens.chained.bounds (mem_map_of_mem hlast)
  have hreach := htokens.fitted.uncons.2.2.2.chained.le
  exact .wrap hspan h hfirst.start_place hsolid.stop_place (by omega) hstart hbounds.2.2

/-- The argument of a directive stands among the tokens behind its name. -/
theorem strung_readArgument {name : String} {head : Token} {argument : Option Argument}
    (h : (readArgument parent name head tokens).run before = .ok (argument, after))
    (htokens : SolidChain P lo hi tokens) (hwritten : Written P p text tokens)
    (hkinds : ∀ token ∈ tokens, token.kind.isDirective = false) :
    Strung P lo hi (argument.toList.map ofArgument) := by
  have hnone : Strung P lo hi ((none : Option Argument).toList.map ofArgument) :=
    .nil htokens.chained.le
  rcases argument_cases h with rfl | ⟨colon, first, rest, rfl, -, hcases⟩
  · exact hnone
  obtain ⟨-, hstart, hfilled, hrest⟩ := htokens.uncons
  have hlater : SolidChain P lo hi (first :: rest) := hrest.widen (by omega) (Int.le_refl _)
  rcases hcases with ⟨value?, faults, htree, -, rfl⟩ | ⟨prose, hprose, -, rfl⟩
  · have hcolon : Written P p text ([colon] ++ first :: rest) := hwritten
    obtain ⟨as, bs, -, -, hbehind⟩ := hcolon.split
    have hcode := hlater.expressionTokens hbehind
      fun token htoken => hkinds token (mem_cons_of_mem colon htoken)
    have hvalue := strung_value htree hcode
    cases value? <;> exact hvalue
  · obtain ⟨hspan, hparts⟩ := strung_readProse hprose hlater
    exact strung_spanning hlater hspan hparts

/-! ## Lines and blocks -/

/-- A line stands from its first token to its last or, if it owns a block, to the end of that. -/
theorem Heads.strung {line : List Token} {heading : Heading} {stop : Position}
    (h : Heads parent first line before heading after) (hlined : Lined P p text (first :: line))
    (htokens : SolidChain P lo hi (first :: line))
    (hinner : Strung P (line.getLastD first).span.stop.offset stop.offset nodes)
    (hblock : ∀ node ∈ nodes, InBlock ((Role.of parent first).owner first) node) (hstop : P stop) :
    Strung P lo stop.offset (heading.nodes first.span.start stop nodes) := by
  obtain ⟨⟨piece, hfirst⟩, hstart, hfilled, -⟩ := htokens.uncons
  obtain ⟨-, -, -, hline⟩ := htokens.fitted.uncons
  have hreach := hline.chained.le
  have hend := hinner.chained.le
  have hargument {parent : Option String} {argument : Option Argument} {before after : List Fault}
      (reads : (readArgument parent (Text.lower first.text) first line).run before =
        .ok (argument, after)) : Strung P first.span.stop.offset
        (line.getLastD first).span.stop.offset (argument.toList.map ofArgument) := by
    have hwritten : Written P p text ([first] ++ line) := hlined.toWritten
    obtain ⟨as, bs, -, -, hbehind⟩ := hwritten.split
    exact strung_readArgument reads hline hbehind hlined.leading
  have hwrap {node : Node} (hspan : node.span = ⟨first.span.start, stop⟩)
      (hchildren : Strung P first.span.start.offset stop.offset node.children) :
      Strung P lo stop.offset [node] :=
    .wrap hspan hchildren hfirst.start_place hstop (by omega) hstart (Int.le_refl _)
  have hkeyword {argument : Option Argument} (hargument : Strung P first.span.stop.offset
      (line.getLastD first).span.stop.offset (argument.toList.map ofArgument)) :
      Strung P lo stop.offset
        ((Heading.keyword (Text.lower first.text) argument).nodes first.span.start stop nodes) := by
    refine hwrap rfl ?_
    rw [children, mergeSort_eq_of_chained (perm_of_inBlock hblock) hinner.chained]
    exact (hargument.append hinner).widen (by omega) (Int.le_refl _)
  cases h with
  | comment kind =>
    exact Expr.strung_leaf hfirst (length_pos_iff.mpr hfirst.filled) hstart (by omega) rfl
      (by simp; rfl)
  | @expression value? faults kind tree =>
    have hvalue := strung_value tree hline
    cases value? with
    | none => exact .nil (by omega)
    | some value =>
      obtain ⟨hnested, hbegin, hwhole, hlast⟩ := hvalue.single
      refine .wrap rfl (hvalue.tight.widen ?_ (Int.le_refl _)) hfirst.start_place hnested.stop
        (Int.lt_of_lt_of_le hfilled (Int.le_trans hbegin (Int.le_of_lt hwhole))) hstart
        (Int.le_trans hlast hend)
      exact Int.le_trans (Int.le_of_lt hfilled) hbegin
  | keyword kind reads | stray kind alone reads => exact hkeyword (hargument reads)
  | subKeyword kind owned reads =>
    have hbody : ∀ node ∈ nodes, InBlock none node := by
      simpa [Role.of, kind, owned, Role.owner] using hblock
    refine hwrap rfl ?_
    rw [children, map_statement_of_inBlock hbody]
    exact ((hargument reads).append hinner).widen (by omega) (Int.le_refl _)
  | @answer owner prose after kind owned reads =>
    have hbody : ∀ node ∈ nodes, InBlock none node := by
      simpa [owned, (Role.of_opensProse kind).2, Role.owner] using hblock
    obtain ⟨hspan, hparts⟩ := strung_readProse reads htokens
    have hprose : Strung P _ _ [.prose prose] := strung_spanning htokens.fitted hspan hparts
    refine hwrap rfl ?_
    rw [children, map_statement_of_inBlock hbody]
    exact hprose.append hinner
  | @prose text after kind alone reads =>
    obtain ⟨hspan, hparts⟩ := strung_readProse reads htokens
    have hprose : Strung P _ _ [.statement (.prose text)] :=
      strung_spanning htokens.fitted hspan hparts
    exact hprose.widen hstart hend

/-- The nodes of a block stand in a row over the lines of the block. -/
theorem Reads.strung {items : List Item} (h : Reads parent items before nodes after)
    (hlines : ∀ line ∈ linesOf items, ∃ p text, Lined P p text line)
    (htokens : SolidChain P lo hi (linesOf items).flatten) : Strung P lo hi nodes := by
  induction h generalizing lo hi with
  | nil => exact .nil htokens.chained.le
  | newline rest ih => exact ih hlines htokens
  | block inner rest ihInner ih =>
    obtain ⟨hinside, hothers⟩ := forall_mem_append.mp hlines
    rw [linesOf, flatten_append] at htokens
    obtain ⟨mid, htokens, hmore⟩ := htokens.split
    exact (ihInner hinside htokens).append (ih hothers hmore)
  | @line parent first line owned items others heading before mid late after nodes more owns taken
      heads inner rest ihInner ih =>
    have howned : linesOf (owned ++ others) = linesOf items ++ linesOf others := by
      rcases owns with ⟨rfl, rfl⟩ | ⟨-, indent, rfl⟩ <;> rfl
    rw [linesOf, howned] at hlines htokens
    simp only [Outline.Item.lines, singleton_append, forall_mem_cons,
      forall_mem_append, flatten_cons, flatten_append] at hlines htokens
    obtain ⟨⟨p, text, hlined⟩, hinside, hothers⟩ := hlines
    rw [← append_assoc] at htokens
    have hend : (first :: line).getLast? = some (line.getLastD first) := by
      rw [getLast?_cons, getLastD_eq_getLast?]
    have hlast : ((first :: line) ++ (linesOf items).flatten).getLast? =
        some (Outline.lastToken (line.getLastD first) items) := by
      rw [Outline.lastToken_eq, getLast?_append, hend, Option.or_some]
      exact congrArg some getLastD_eq_getLast?.symm
    obtain ⟨hfront, hmore⟩ := htokens.cut hlast
    obtain ⟨hline, hblock⟩ := hfront.cut hend
    obtain ⟨piece, hsolid⟩ := hfront.solid _ (mem_of_getLast? hlast)
    exact (heads.strung hlined hline (ihInner hinside hblock) inner.inBlock
        hsolid.stop_place).append
      (ih hothers hmore)

/-! ## Programs -/

/-- How a source was read: the nodes of its items, the items over the lines of its content, and the
program from the front of the source to the mark at its end. -/
structure Reading (source : String) (program : Program) (faults : List Fault) (items : List Item)
    (stop : Position) : Prop where
  outline : items = (Outline.ofTokens (Token.ofSource source)).items
  reads : Reads none items [] (Node.program program).children faults
  lines : linesOf items = Token.contentLines (Token.ofSource source)
  lined : ∀ line ∈ linesOf items, ∃ p text, Lined (InSource source.toList) p text line
  solidChain : SolidChain (InSource source.toList) 0 stop.offset (linesOf items).flatten
  span : program.span = ⟨.origin, stop⟩
  stop : InSource source.toList stop

theorem reading_ofSource {source : String} {program : Program}
    (h : ofSource source = .ok (program, faults)) :
    ∃ items stop, Reading source program faults items stop := by
  have hstrays := strays_ofSource source
  obtain ⟨nodes, hreads, rfl⟩ := reads_of_ofTokens h hstrays
  obtain ⟨rows, hdocument, -⟩ := linedDocument_ofSource source
  obtain ⟨p, hp, hlast, hchain⟩ := solidChain_ofSource source
  have hlines : linesOf (Outline.ofTokens (Token.ofSource source)).items =
      rows.filter (· ≠ []) := by
    rw [← hdocument.lines_ofTokens, Outline.lines, hstrays, flatMap_nil, append_nil]
  refine ⟨_, p, rfl, ?_, hlines.trans hdocument.contentLines_eq.symm, fun line hline => ?_,
      ?_, ?_, hp⟩
  · rw [Node.children, map_statement_of_inBlock hreads.inBlock]
    exact hreads
  · rw [hlines] at hline
    obtain ⟨q, text, hlined, -⟩ := hdocument.lined_of_mem (mem_filter.mp hline).1
    exact ⟨q, text, hlined⟩
  · rw [hlines, flatten_filter_ne_nil, hdocument.flatten_eq]
    exact hchain
  · rw [hlast]
    simp [mark, covering]

namespace Reading

variable {source : String} {program : Program} {faults : List Fault} {items : List Item}
  {stop : Position}

theorem nested (h : Reading source program faults items stop) :
    (Node.program program).Nested (Token.InSource source.toList) := by
  have hstrung := h.reads.strung h.lined h.solidChain
  refine .mk ?_ ?_ ?_ hstrung.nested <;> rw [show (Node.program program).span = _ from h.span]
  · exact ⟨0, Nat.zero_le _, rfl⟩
  · exact h.stop
  · exact hstrung.chained

end Reading

/-- The nodes of a tree over the text `cs`, each in its place. -/
structure Arranged (cs : List Char) (root : Node) : Prop where
  /-- The nodes directly inside a node are those it holds, each once. -/
  complete : ∀ node ∈ root.walk, node.children.Perm node.held
  /-- They stand in the order of the text and do not overlap. -/
  apart : ∀ node ∈ root.walk, node.children.Pairwise fun a b =>
    a.span.start.offset < b.span.start.offset ∧ a.span.stop.offset ≤ b.span.start.offset
  /-- They are not empty and lie within the node. -/
  inside : ∀ node ∈ root.walk, ∀ child ∈ node.children,
    node.span.start.offset ≤ child.span.start.offset ∧
      child.span.start.offset < child.span.stop.offset ∧
      child.span.stop.offset ≤ node.span.stop.offset
  /-- Every position has the line and the column of its offset. -/
  places : ∀ node ∈ root.walk, InSource cs node.span.start ∧ InSource cs node.span.stop
  /-- The order of the document never goes back in the text. -/
  ordered : root.walk.Pairwise fun a b => a.span.start.offset ≤ b.span.start.offset

/-- The tree of a source is arranged as its text is. -/
theorem ofSource_arranged {source : String} {program : Program} {faults : List Fault}
    (h : ofSource source = .ok (program, faults)) :
    Arranged source.toList (.program program) := by
  obtain ⟨items, stop, hreading⟩ := reading_ofSource h
  have hnested : ∀ node ∈ (Node.program program).walk, node.Nested (Token.InSource source.toList) :=
    fun node hnode => hreading.nested.of_mem_walk hnode
  have hinside : ∀ node ∈ (Node.program program).walk, ∀ child ∈ node.children, _ :=
    fun node hnode child hchild =>
      (hnested node hnode).strung.chained.bounds (mem_map_of_mem hchild)
  refine ⟨fun node _ => node.children_perm_held, fun node hnode => ?_, hinside,
    fun node hnode => ⟨(hnested node hnode).start, (hnested node hnode).stop⟩,
    hreading.nested.pairwise_walk⟩
  have hordered := pairwise_map.mp (hnested node hnode).strung.chained.pairwise
  refine hordered.imp_of_mem fun ha _ hle => ⟨?_, hle⟩
  exact Int.lt_of_lt_of_le (hinside node hnode _ ha).2.1 hle

/-- A keyword with an answer that embeds a literal, which embeds a number in turn. -/
theorem ofSource_arranged_embedded :
    ∃ program, ofSource "*if: 1\n\t2 \x7b\"\x7b3\x7d\"\x7d" = .ok (program, []) ∧
      Arranged "*if: 1\n\t2 \x7b\"\x7b3\x7d\"\x7d".toList (.program program) := by
  obtain ⟨⟨program, faults⟩, hread, hclean⟩ := exists_ok_of_any
    (ofSource "*if: 1\n\t2 \x7b\"\x7b3\x7d\"\x7d") (·.2.isEmpty) (by decide +kernel)
  obtain rfl := List.isEmpty_iff.mp hclean
  exact ⟨program, hread, ofSource_arranged hread⟩

end Program
end GuidedTrack
