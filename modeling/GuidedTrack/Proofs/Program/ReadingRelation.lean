import GuidedTrack.Node
import GuidedTrack.Program
import GuidedTrack.Proofs.Expr.MovedReadings

/-! # Readings

How a document is read, said as a relation between the items of its outline and the nodes they make
in the order of the document. `Heads` says what a line makes of itself and `Reads` what a block
makes of its lines; both carry the faults recorded before and after.
-/

namespace GuidedTrack

open List Node

variable {before after : List Fault} {parent : Option String} {first : Token} {heading : Heading}
  {items : List Item} {tokens line : List Token}

namespace Token

def Kind.opensProse : Kind → Bool
  | comment | expressionStart | keyword | subKeyword => false
  | _ => true

end Token

namespace Statement

def isAnswer : Statement → Bool
  | answer .. => true
  | _ => false

def isProse : Statement → Bool
  | prose _ => true
  | _ => false

end Statement

namespace Node

def statement? : Node → Option Statement
  | statement value => some value
  | _ => none

def subKeyword? : Node → Option SubKeyword
  | subKeyword value => some value
  | _ => none

end Node

namespace Program

open Outline (Item)
open GuidedTrack.Expr (exists_of_bind_eq_ok)

/-! ## Recorded faults -/

section

variable {α β : Type} {before after : List Fault}

theorem exists_of_run_bind {x : Recorder α} {f : α → Recorder β} {b : β}
    (h : (x >>= f).run before = .ok (b, after)) :
    ∃ a mid, x.run before = .ok (a, mid) ∧ (f a).run mid = .ok (b, after) := by
  rw [StateT.run_bind] at h
  obtain ⟨⟨a, mid⟩, hfirst, hrest⟩ := exists_of_bind_eq_ok h
  exact ⟨a, mid, hfirst, hrest⟩

theorem run_readExpr {assignment : Bool} {anchor : Token} {value? : Option Expr}
    (h : (readExpr assignment anchor tokens).run before = .ok (value?, after)) :
    ∃ faults, Expr.ofTokens assignment anchor.span.start tokens = .ok (value?, faults) ∧
      after = before ++ faults := by
  obtain ⟨⟨value, faults⟩, mid, hread, hrest⟩ := exists_of_run_bind h
  obtain ⟨⟨value', faults'⟩, hvalue, hmid⟩ := exists_of_bind_eq_ok hread
  cases hmid
  cases hrest
  exact ⟨faults, hvalue, rfl⟩

end

/-! ## Prose -/

section

variable {token close : Token} {inner more : List Token} (cursor : Option Int) (text : String)
  (rest : List Token)

theorem readParts_comment (h : token.kind = .comment) :
    readParts cursor text (token :: rest) = readParts cursor text rest := by
  rw [readParts, if_pos h]

theorem readParts_plain (hcomment : token.kind ≠ .comment)
    (hstart : token.kind ≠ .interpolationStart) :
    readParts cursor text (token :: rest) =
      readParts (some token.span.stop.offset)
        (text ++ gap (cursor.getD token.span.start.offset) token.span.start.offset ++ token.text)
        rest := by
  rw [readParts, if_neg hcomment]
  exact if_pos hstart

theorem readParts_open (hkind : token.kind = .interpolationStart)
    (hinner : ∀ t ∈ inner, t.kind ≠ .interpolationEnd) :
    readParts cursor text (token :: inner) = (do
      let value? ← readExpr false token inner
      record token.span.start .unclosedInterpolation
      return textPart (text ++ gap (cursor.getD token.span.start.offset) token.span.start.offset) ++
        value?.toList.map .expr) := by
  have hall : ∀ t ∈ inner, decide (t.kind ≠ .interpolationEnd) = true :=
    fun t ht => decide_eq_true (hinner t ht)
  rw [readParts, if_neg (by rw [hkind]; rintro ⟨⟩)]
  dsimp only
  rw [if_neg (not_not_intro hkind), takeWhile_eq_self_iff.mpr hall]
  congr 1
  funext value?
  split
  · rfl
  · rename_i hcons
    rw [dropWhile_eq_nil_iff.mpr hall] at hcons
    cases hcons

theorem readParts_hole (hkind : token.kind = .interpolationStart)
    (hinner : ∀ t ∈ inner, t.kind ≠ .interpolationEnd) (hclose : close.kind = .interpolationEnd) :
    readParts cursor text (token :: (inner ++ close :: more)) = (do
      let value? ← readExpr false token inner
      let others ← readParts (some close.span.stop.offset) "" more
      return textPart (text ++ gap (cursor.getD token.span.start.offset) token.span.start.offset) ++
        value?.toList.map .expr ++ others) := by
  have hall : ∀ t ∈ inner, decide (t.kind ≠ .interpolationEnd) = true :=
    fun t ht => decide_eq_true (hinner t ht)
  have hdrop : (inner ++ close :: more).dropWhile (·.kind ≠ .interpolationEnd) = close :: more := by
    rw [dropWhile_append_of_pos hall, dropWhile_cons_of_neg (by simp [hclose])]
  rw [readParts, if_neg (by rw [hkind]; rintro ⟨⟩)]
  dsimp only
  rw [if_neg (not_not_intro hkind), takeWhile_append_of_pos hall,
    takeWhile_cons_of_neg (by simp [hclose]), append_nil]
  congr 1
  funext value?
  split
  · rename_i hnil
    rw [hdrop] at hnil
    cases hnil
  · rename_i other others hcons
    rw [hdrop] at hcons
    obtain ⟨rfl, rfl⟩ := List.cons.inj hcons
    rfl

end

/-- Induction on the way prose is read: token by token, and over an interpolation at once. -/
theorem parts_induction {motive : List Token → Prop} (nil : motive [])
    (comment : ∀ token rest, token.kind = .comment → motive rest → motive (token :: rest))
    (plain : ∀ token rest, token.kind ≠ .comment → token.kind ≠ .interpolationStart → motive rest →
      motive (token :: rest))
    (unclosed : ∀ token inner, token.kind = .interpolationStart →
      (∀ t ∈ inner, t.kind ≠ .interpolationEnd) → motive (token :: inner))
    (hole : ∀ token inner close more, token.kind = .interpolationStart →
      (∀ t ∈ inner, t.kind ≠ .interpolationEnd) → close.kind = .interpolationEnd → motive more →
      motive (token :: (inner ++ close :: more))) (tokens : List Token) : motive tokens := by
  induction hn : tokens.length using Nat.strongRecOn generalizing tokens with
  | _ n ih =>
    cases tokens with
    | nil => exact nil
    | cons token rest =>
      rw [length_cons] at hn
      by_cases hcomment : token.kind = .comment
      · exact comment token rest hcomment (ih rest.length (by omega) rest rfl)
      by_cases hstart : token.kind = .interpolationStart
      · cases hfind : rest.find? fun t => t.kind = .interpolationEnd with
        | none => exact unclosed token rest hstart (by simpa using hfind)
        | some close =>
          obtain ⟨hclose, inner, more, rfl, hinner⟩ := find?_eq_some_iff_append.mp hfind
          rw [length_append, length_cons] at hn
          exact hole token inner close more hstart (by simpa using hinner) (by simpa using hclose)
            (ih more.length (by omega) more rfl)
      · exact plain token rest hcomment hstart (ih rest.length (by omega) rest rfl)

/-! ## Lines -/

/-- What stands behind the name of a directive is no argument, or an expression or prose behind a
colon. -/
theorem argument_cases {name : String} {head : Token} {argument : Option Argument}
    (h : (readArgument parent name head line).run before = .ok (argument, after)) :
    argument = none ∨ ∃ colon first rest, line = colon :: first :: rest ∧ colon.kind = .colon ∧
      ((∃ value? faults, Expr.ofTokens false head.span.start (expressionTokens first rest) =
          .ok (value?, faults) ∧ takesExpression parent name = true ∧ argument = value?.map .expr) ∨
        ∃ prose, (readProse first rest).run before = .ok (prose, after) ∧
          takesExpression parent name = false ∧ argument = some (.prose prose)) := by
  cases line with
  | nil =>
    cases h
    exact .inl rfl
  | cons colon rest =>
    unfold readArgument at h
    dsimp only at h
    split at h
    · rename_i hcolon
      split at h
      · cases h
        exact .inl rfl
      · rename_i first rest
        refine .inr ⟨colon, first, rest, rfl, hcolon, ?_⟩
        split at h
        · rename_i htakes
          obtain ⟨value?, mid, hread, h⟩ := exists_of_run_bind h
          obtain ⟨faults, htree, -⟩ := run_readExpr hread
          cases h
          exact .inl ⟨value?, faults, htree, htakes, rfl⟩
        · rename_i htakes
          obtain ⟨prose, mid, hprose, h⟩ := exists_of_run_bind h
          cases h
          exact .inr ⟨prose, hprose, by simpa using htakes, rfl⟩
    · split at h
      · cases h
        exact .inl rfl
      · obtain ⟨_, mid, -, h⟩ := exists_of_run_bind h
        cases h
        exact .inl rfl

/-- What a line in a block owned by `parent` makes of itself, case by case of its first token. The
faults before it are `before`, those after it `after`. -/
inductive Heads (parent : Option String) (first : Token) (line : List Token) (before : List Fault) :
    Heading → List Fault → Prop where
  | comment (kind : first.kind = .comment) : Heads parent first line before
      (.complete (.ofStatement (.comment first.span first.text))) before
  | expression {value? : Option Expr} {faults : List Fault} (kind : first.kind = .expressionStart)
      (value : Expr.ofTokens true first.span.start line = .ok (value?, faults)) :
      Heads parent first line before (.complete ⟨value?.toList.map fun value =>
        .expression ⟨first.span.start, value.span.stop⟩ value, []⟩) (before ++ faults)
  | keyword {argument : Option Argument} {after : List Fault} (kind : first.kind = .keyword)
      (reads : (readArgument none (Text.lower first.text) first line).run before =
        .ok (argument, after)) :
      Heads parent first line before (.keyword (Text.lower first.text) argument) after
  | stray {argument : Option Argument} {after : List Fault} (kind : first.kind = .subKeyword)
      (alone : parent = none)
      (reads : (readArgument none (Text.lower first.text) first line).run
        (before ++ [⟨first.span.start, .strayDirective first.text⟩]) = .ok (argument, after)) :
      Heads parent first line before (.keyword (Text.lower first.text) argument) after
  | subKeyword {owner : String} {argument : Option Argument} {after : List Fault}
      (kind : first.kind = .subKeyword) (owned : parent = some owner)
      (reads : (readArgument (some owner) (Text.lower first.text) first line).run before =
        .ok (argument, after)) :
      Heads parent first line before (.subKeyword (Text.lower first.text) argument) after
  | answer {owner : String} {text : Prose} {after : List Fault}
      (kind : first.kind.opensProse = true) (owned : parent = some owner)
      (reads : (readProse first line).run before = .ok (text, after)) :
      Heads parent first line before (.answer text) after
  | prose {text : Prose} {after : List Fault} (kind : first.kind.opensProse = true)
      (alone : parent = none) (reads : (readProse first line).run before = .ok (text, after)) :
      Heads parent first line before (.complete (.ofStatement (.prose text))) after

theorem heads_of_readHeading
    (h : (readHeading (Role.of parent first) first line).run before = .ok (heading, after)) :
    Heads parent first line before heading after := by
  unfold Role.of at h
  split at h
  · rename_i hkind
    cases h
    exact .comment hkind
  · rename_i hkind
    obtain ⟨value?, mid, hvalue, hrest⟩ := exists_of_run_bind h
    obtain ⟨faults, hread, rfl⟩ := run_readExpr hvalue
    cases hrest
    exact .expression hkind hread
  · rename_i hkind
    obtain ⟨argument, mid, hread, hrest⟩ := exists_of_run_bind h
    cases hrest
    exact .keyword hkind hread
  · rename_i owner hkind
    obtain ⟨argument, mid, hread, hrest⟩ := exists_of_run_bind h
    cases hrest
    exact .subKeyword hkind rfl hread
  · rename_i hkind
    obtain ⟨_, mid, hrecord, h⟩ := exists_of_run_bind h
    cases hrecord
    obtain ⟨argument, mid, hread, hrest⟩ := exists_of_run_bind h
    cases hrest
    exact .stray hkind rfl hread
  · obtain ⟨text, mid, hread, hrest⟩ := exists_of_run_bind h
    cases hrest
    refine .answer ?_ rfl hread
    cases hkind : first.kind <;> simp_all [Token.Kind.opensProse]
  · obtain ⟨text, mid, hread, hrest⟩ := exists_of_run_bind h
    cases hrest
    refine .prose ?_ rfl hread
    cases hkind : first.kind <;> simp_all [Token.Kind.opensProse]

/-- The nodes that a line makes with the nodes `inner` of the block it owns; it ends at `stop`. -/
def Heading.nodes (start stop : Position) (inner : List Node) : Heading → List Node
  | complete whole => whole.body.map .statement ++ whole.subKeywords.map .subKeyword
  | keyword name argument => [.statement (.keyword ⟨start, stop⟩ name argument
      (inner.filterMap subKeyword?) (inner.filterMap statement?))]
  | subKeyword name argument =>
    [.subKeyword (.mk ⟨start, stop⟩ name argument (inner.filterMap statement?))]
  | answer text => [.statement (.answer ⟨start, stop⟩ text (inner.filterMap statement?))]

/-! ## Blocks -/

def Block.ofNodes (nodes : List Node) : Block :=
  ⟨nodes.filterMap statement?, nodes.filterMap subKeyword?⟩

theorem Block.ofNodes_append (nodes others : List Node) :
    Block.ofNodes (nodes ++ others) = Block.ofNodes nodes ++ Block.ofNodes others := by
  simp only [ofNodes, filterMap_append]
  rfl

theorem Heading.close_ofNodes (start stop : Position) (inner : List Node) (heading : Heading) :
    heading.close start stop (.ofNodes inner) = .ofNodes (heading.nodes start stop inner) := by
  cases heading with
  | complete whole =>
    obtain ⟨body, subKeywords⟩ := whole
    simp [close, nodes, Block.ofNodes, statement?, subKeyword?, Function.comp_def]
  | _ => rfl

/-- The nodes that the items of a block owned by `parent` make, in the order of the document, with
the faults recorded before and after. -/
inductive Reads : Option String → List Item → List Fault → List Node → List Fault → Prop where
  | nil {parent : Option String} {faults : List Fault} : Reads parent [] faults [] faults
  | newline {parent : Option String} {items : List Item} {before after : List Fault}
      {nodes : List Node} (rest : Reads parent items before nodes after) :
      Reads parent (.newline :: items) before nodes after
  | block {parent : Option String} {indent : Token} {items others : List Item}
      {before mid after : List Fault} {nodes more : List Node}
      (inner : Reads parent items (before ++ [⟨indent.span.start, .unexpectedIndentation⟩])
          nodes mid)
      (rest : Reads parent others mid more after) :
      Reads parent (.block indent items :: others) before (nodes ++ more) after
  | line {parent : Option String} {first : Token} {line : List Token}
      {owned items others : List Item} {heading : Heading} {before mid late after : List Fault}
      {nodes more : List Node}
      (owns : owned = [] ∧ items = [] ∨ (Role.of parent first).ownsBlock = true ∧
        ∃ indent, owned = [.block indent items])
      (taken : owned = [] → (Role.of parent first).ownsBlock = true →
        ∀ indent inside rest, others ≠ .block indent inside :: rest)
      (heads : Heads parent first line before heading mid)
      (inner : Reads ((Role.of parent first).owner first) items mid nodes late)
      (rest : Reads parent others late more after) :
      Reads parent (.line first line :: (owned ++ others)) before
        (heading.nodes first.span.start
          (Outline.lastToken (line.getLastD first) items).span.stop nodes ++ more) after

theorem reads_of_readItems {block : Block}
    (h : (readItems parent items).run before = .ok (block, after)) :
    ∃ nodes, Reads parent items before nodes after ∧ block = .ofNodes nodes := by
  induction parent, items using readItems.induct generalizing before after block with
  | case1 parent =>
    rw [readItems] at h
    cases h
    exact ⟨[], .nil, rfl⟩
  | case2 parent rest ih =>
    rw [readItems] at h
    obtain ⟨nodes, hreads, hblock⟩ := ih h
    exact ⟨nodes, .newline hreads, hblock⟩
  | case3 parent indent items rest ihItems ih =>
    rw [readItems] at h
    obtain ⟨_, mid, hrecord, h⟩ := exists_of_run_bind h
    cases hrecord
    obtain ⟨nested, mid, hitems, h⟩ := exists_of_run_bind h
    obtain ⟨others, last, hothers, h⟩ := exists_of_run_bind h
    cases h
    obtain ⟨nodes, hreads, rfl⟩ := ihItems hitems
    obtain ⟨more, hmore, rfl⟩ := ih hothers
    exact ⟨nodes ++ more, .block hreads hmore, (Block.ofNodes_append nodes more).symm⟩
  | case4 parent first line indent items rest role ihItems ih =>
    rename_i ihBlock
    rw [readItems] at h
    obtain ⟨heading, mid, hheading, h⟩ := exists_of_run_bind h
    have hheads := heads_of_readHeading hheading
    dsimp only at h
    split at h
    · rename_i howns
      obtain ⟨block, late, hblock, h⟩ := exists_of_run_bind h
      obtain ⟨others, last, hothers, h⟩ := exists_of_run_bind h
      cases h
      obtain ⟨nodes, hreads, rfl⟩ := ihItems hblock
      obtain ⟨more, hmore, rfl⟩ := ih hothers
      refine ⟨_, .line (.inr ⟨howns, indent, rfl⟩) (by rintro ⟨⟩) hheads hreads hmore, ?_⟩
      rw [Block.ofNodes_append, Heading.close_ofNodes]
    · rename_i hplain
      obtain ⟨others, last, hothers, h⟩ := exists_of_run_bind h
      cases h
      obtain ⟨more, hmore, rfl⟩ := ihBlock hothers
      refine ⟨_, .line (.inl ⟨rfl, rfl⟩) (fun _ howns => absurd howns hplain) hheads .nil hmore, ?_⟩
      rw [Block.ofNodes_append, ← Heading.close_ofNodes]
      rfl
  | case5 parent first line rest hnone ih =>
    rw [readItems] at h
    · obtain ⟨heading, mid, hheading, h⟩ := exists_of_run_bind h
      obtain ⟨others, last, hothers, h⟩ := exists_of_run_bind h
      cases h
      obtain ⟨more, hmore, rfl⟩ := ih hothers
      refine ⟨_, .line (.inl ⟨rfl, rfl⟩) (fun _ _ => hnone)
          (heads_of_readHeading hheading) .nil hmore,
        ?_⟩
      rw [Block.ofNodes_append, ← Heading.close_ofNodes]
      rfl
    · exact hnone

/-- A program whose blocks are all closed is read as one block. -/
theorem reads_of_ofTokens {program : Program} {faults : List Fault}
    (h : ofTokens tokens = .ok (program, faults))
    (hstrays : (Outline.ofTokens tokens).strays = []) :
    ∃ nodes, Reads none (Outline.ofTokens tokens).items [] nodes faults ∧
      program = ⟨⟨.origin, (tokens.getLast?.map fun token => token.span.stop).getD .origin⟩,
        nodes.filterMap statement?⟩ := by
  obtain ⟨⟨body, after⟩, hread, hprogram⟩ := exists_of_bind_eq_ok h
  cases hprogram
  obtain ⟨block, mid, hitems, hrest⟩ := exists_of_run_bind hread
  rw [hstrays, readSections] at hrest
  cases hrest
  obtain ⟨nodes, hreads, rfl⟩ := reads_of_readItems hitems
  refine ⟨nodes, hreads, ?_⟩
  rw [append_nil]
  rfl

/-! ## The nodes of a block -/

theorem Role.of_opensProse (h : first.kind.opensProse = true) :
    Role.of none first = .prose ∧ ∀ owner, Role.of (some owner) first = .answer := by
  unfold Role.of
  cases hkind : first.kind <;> simp_all [Token.Kind.opensProse]

/-- A node of a block: a statement, or a sub-keyword where a keyword owns the block. Lines of text
are answers there, and prose in every other block. -/
def InBlock (parent : Option String) (node : Node) : Prop :=
  (∃ value, node = .statement value ∧
    if parent = none then value.isAnswer = false else value.isProse = false) ∨
    parent ≠ none ∧ ∃ value, node = .subKeyword value

theorem Heads.inBlock (h : Heads parent first line before heading after) (start stop : Position)
    (inner : List Node) : ∀ node ∈ heading.nodes start stop inner, InBlock parent node := by
  intro node hnode
  have hmade (value : Statement) (hanswer : value.isAnswer = false)
      (hprose : value.isProse = false) :
      InBlock parent (.statement value) :=
    .inl ⟨value, rfl, by rw [hanswer, hprose, ite_self]⟩
  cases h with
  | expression kind value =>
    simp only [Heading.nodes, map_nil, append_nil, map_map] at hnode
    obtain ⟨value, -, rfl⟩ := mem_map.mp hnode
    exact hmade _ rfl rfl
  | subKeyword kind owned reads =>
    rw [owned]
    exact .inr ⟨Option.some_ne_none _, _, mem_singleton.mp hnode⟩
  | answer kind owned reads =>
    rw [owned]
    exact .inl ⟨_, mem_singleton.mp hnode, rfl⟩
  | prose kind alone reads =>
    rw [alone]
    exact .inl ⟨_, mem_singleton.mp hnode, rfl⟩
  | _ =>
    rw [mem_singleton.mp hnode]
    exact hmade _ rfl rfl

theorem Reads.inBlock {nodes : List Node} (h : Reads parent items before nodes after) :
    ∀ node ∈ nodes, InBlock parent node := by
  induction h with
  | nil => simp
  | newline rest ih => exact ih
  | block inner rest ihInner ih => exact forall_mem_append.mpr ⟨ihInner, ih⟩
  | line owns taken heads inner rest ihInner ih =>
    exact forall_mem_append.mpr ⟨heads.inBlock _ _ _, ih⟩

theorem Reads.nodes_of_nil {nodes : List Node} (h : Reads parent [] before nodes after) :
    nodes = [] := by
  cases h
  rfl

theorem map_statement_of_inBlock {nodes : List Node} (h : ∀ node ∈ nodes, InBlock none node) :
    (nodes.filterMap statement?).map .statement = nodes := by
  induction nodes with
  | nil => rfl
  | cons node nodes ih =>
    obtain ⟨hnode, hnodes⟩ := forall_mem_cons.mp h
    rcases hnode with ⟨value, rfl, -⟩ | ⟨hnone, -⟩
    · exact congrArg (statement value :: ·) (ih hnodes)
    · exact absurd rfl hnone

/-- The sub-keywords and the statements of a block are its nodes. -/
theorem perm_of_inBlock {nodes : List Node} (h : ∀ node ∈ nodes, InBlock parent node) :
    ((nodes.filterMap subKeyword?).map subKeyword ++
      (nodes.filterMap statement?).map statement).Perm nodes := by
  induction nodes with
  | nil => exact .nil
  | cons node nodes ih =>
    obtain ⟨hnode, hnodes⟩ := forall_mem_cons.mp h
    rcases hnode with ⟨value, rfl, -⟩ | ⟨-, value, rfl⟩
    · exact perm_middle.trans ((ih hnodes).cons _)
    · exact (ih hnodes).cons _

end Program
end GuidedTrack
