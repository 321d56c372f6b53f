import Mathlib.Data.List.Perm.Basic
import GuidedTrack.Proofs.Program.LineAccounting
import GuidedTrack.Proofs.Program.NodeOrigins

/-! # The shape of programs

Answers stand directly in the bodies of keywords and nowhere else, and no prose stands there. Every
sub-keyword is kept by the keyword that owns the block it stands in. This is so for any list of
tokens, however its blocks nest.
-/

namespace GuidedTrack

open List Node

variable {heading : Heading} {lines : List (Token × Token)} {before after : List Fault}
  {items : List Item} {inner nodes : List Node} {line : List Token} {node : Node}
  {parent : Option String} {owner : Option Token} {stop : Position} {first : Token}

def SubKeyword.directive : SubKeyword → Position × String
  | mk span name _ _ => (span.start, name)

namespace Node

def body : Node → List Statement
  | program value => value.body
  | statement (.keyword _ _ _ _ body) | statement (.answer _ _ body) => body
  | subKeyword (.mk _ _ _ body) => body
  | _ => []

def isKeyword : Node → Bool
  | statement (.keyword ..) => true
  | _ => false

/-- A body that fits its node: there is no prose in that of a keyword, and there are no answers in
any other. -/
def Fits (node : Node) : Prop :=
  ∀ value ∈ node.body, if node.isKeyword then value.isProse = false else value.isAnswer = false

theorem fits_of_body_eq_nil (h : node.body = []) : node.Fits := by
  rw [Fits, h]
  simp

def kept : Node → List ((Position × String) × (Position × String))
  | statement (.keyword span name _ subKeywords _) =>
    subKeywords.map fun sub => ((span.start, name), sub.directive)
  | _ => []

def allKept (node : Node) : List ((Position × String) × (Position × String)) :=
  node.walk.flatMap kept

variable {node root : Node}

theorem allKept_eq (node : Node) : node.allKept = node.kept ++ node.children.flatMap allKept := by
  rw [allKept, walk_eq, flatMap_cons, flatMap_assoc]
  rfl

theorem allKept_of_isWithinLine (h : node.isWithinLine = true) : node.allKept = [] := by
  refine flatMap_eq_nil_iff.mpr fun other hother => ?_
  have hwithin := isWithinLine_of_mem_walk h other hother
  cases other <;> first | rfl | cases hwithin

theorem allKept_perm {within : List Node} (hchildren : node.children.Perm (within ++ inner))
    (hwithin : ∀ child ∈ within, child.isWithinLine = true) :
    node.allKept.Perm (node.kept ++ inner.flatMap allKept) := by
  have hnone : within.flatMap allKept = [] := flatMap_eq_nil_iff.mpr
    fun child hchild => allKept_of_isWithinLine (hwithin child hchild)
  have hflat := hchildren.flatMap_right allKept
  rw [flatMap_append, hnone] at hflat
  rw [allKept_eq]
  exact hflat.append_left _

theorem mem_body_of_mem_children {value : Statement} (h : statement value ∈ node.children) :
    value ∈ node.body := by
  by_cases hwithin : node.isWithinLine = true
  · cases isCode_children hwithin h
  have hpart (argument : Option Argument) :
      statement value ∉ argument.toList.map ofArgument := fun hmem => by
    cases isWithinLine_of_mem_argument argument _ hmem
  rw [(children_perm_held node).mem_iff] at h
  cases node with
  | program root => simpa [held, body] using h
  | subKeyword sub =>
    obtain ⟨span, name, argument, body⟩ := sub
    simpa [held, Node.body, hpart] using h
  | statement around =>
    cases around with
    | keyword span name argument subKeywords body => simpa [held, Node.body, hpart] using h
    | answer span text body => simpa [held, Node.body] using h
    | prose text => cases isCode_of_mem_ofParts h
    | expression span value => simp [held] at h
    | comment span text => cases h
  | _ => exact absurd rfl hwithin

theorem exists_parent_of_mem_walk (h : node ∈ root.walk) :
    node = root ∨ ∃ parent ∈ root.walk, node ∈ parent.children := by
  induction root using inductionOnChildren with
  | step root ih =>
    have hself := root.self_mem_walk
    rw [walk_eq] at h ⊢
    refine (mem_cons.mp h).imp_right fun hbelow => ?_
    obtain ⟨child, hchild, hnode⟩ := mem_flatMap.mp hbelow
    rcases ih _ hchild hnode with rfl | ⟨parent, hparent, hmem⟩
    · exact ⟨root, mem_cons_self, hchild⟩
    · exact ⟨parent, mem_cons_of_mem _ (mem_flatMap.mpr ⟨child, hchild, hparent⟩), hmem⟩

end Node

namespace Program

open Outline (Item linesOf)

/-! ## Bodies -/

theorem Heads.fits {start : Position} (h : Heads parent first line before heading after)
    (hinner : ∀ node ∈ inner, InBlock ((Role.of parent first).owner first) node) :
    ∀ node ∈ heading.nodes start stop inner, node.Fits := by
  have hbody (owner : Option String) (howner : (Role.of parent first).owner first = owner) :
      ∀ value ∈ inner.filterMap statement?,
        if owner = none then value.isAnswer = false else value.isProse = false := by
    intro value hvalue
    rcases hinner _ (mem_statement? hvalue) with ⟨other, hother, hkind⟩ | ⟨-, other, hother⟩
    · cases hother
      rwa [howner] at hkind
    · cases hother
  intro node hnode
  cases h with
  | expression kind value =>
    simp only [Heading.nodes, map_nil, append_nil, map_map] at hnode
    obtain ⟨value, -, rfl⟩ := mem_map.mp hnode
    exact fits_of_body_eq_nil rfl
  | keyword kind reads =>
    rw [mem_singleton.mp hnode]
    exact hbody (some (Text.lower first.text)) (by simp [Role.of, kind, Role.owner])
  | stray kind alone reads =>
    rw [mem_singleton.mp hnode]
    exact hbody (some (Text.lower first.text)) (by simp [Role.of, kind, alone, Role.owner])
  | subKeyword kind owned reads =>
    rw [mem_singleton.mp hnode]
    exact hbody none (by simp [Role.of, kind, owned, Role.owner])
  | answer kind owned reads =>
    rw [mem_singleton.mp hnode]
    exact hbody none (by rw [owned, (Role.of_opensProse kind).2]; rfl)
  | _ =>
    rw [mem_singleton.mp hnode]
    exact fits_of_body_eq_nil rfl

theorem Heads.isWithinLine (h : Heads parent first line before heading after) :
    ∀ part ∈ heading.parts, part.isWithinLine = true := by
  cases h with
  | comment kind => simp [Heading.parts, Block.ofStatement, children]
  | expression kind value =>
    intro part hpart
    simp only [Heading.parts, map_nil, append_nil, map_map, flatMap_map] at hpart
    obtain ⟨value, -, hvalue⟩ := mem_flatMap.mp hpart
    rw [mem_singleton.mp hvalue]
    rfl
  | answer kind owned reads => simp [Heading.parts, isWithinLine]
  | prose kind alone reads =>
    simp only [Heading.parts, Block.ofStatement, map_cons, map_nil, append_nil,
      flatMap_singleton]
    exact fun part hpart => isWithinLine_of_isCode (isCode_of_mem_ofParts hpart)
  | _ => exact isWithinLine_of_mem_argument _

theorem Reads.fits (h : Reads parent items before nodes after) :
    ∀ root ∈ nodes, ∀ node ∈ root.walk, node.Fits := by
  refine h.forall_mem_walk (List.Subset.refl after) fun _ heads _ hinner =>
    ⟨heads.fits hinner, fun part hpart node hnode => ?_⟩
  have hwithin := isWithinLine_of_mem_walk (heads.isWithinLine part hpart) node hnode
  apply fits_of_body_eq_nil
  cases node <;> first | rfl | cases hwithin

/-! ## Sub-keywords -/

/-- The owner of the sub-keywords in a block right behind a line, if the line takes that block:
keywords take the sub-keywords, the other lines pass none on. `owner` owns the block of the line. -/
def opens (owner : Option Token) (first : Token) : Option (Option Token) :=
  match first.kind, owner with
  | .comment, _ | .expressionStart, _ => none
  | .keyword, _ | .subKeyword, none => some (some first)
  | _, some _ => some none
  | _, none => none

/-- A sub-keyword of `owner`, if there is one, on a line that starts with `first`. -/
def subLine (owner : Option Token) (first : Token) : List (Token × Token) :=
  if first.kind = .subKeyword then owner.toList.map (·, first) else []

mutual

/-- The lines of sub-keywords in an item, each behind the keyword that owns its block. A block
belongs to the line right before it if that `opened` one, and else to the block around it. -/
def subLinesOf (owner : Option Token) (opened : Option (Option Token)) : Item → List (Token × Token)
  | .line first _ => subLine owner first
  | .newline => []
  | .block _ items => subLines (opened.getD owner) none items

/-- The lines of sub-keywords in some items, each behind the keyword that owns its block. -/
def subLines (owner : Option Token) (opened : Option (Option Token)) :
    List Item → List (Token × Token)
  | [] => []
  | .line first more :: rest =>
    subLinesOf owner opened (.line first more) ++ subLines owner (opens owner first) rest
  | item :: rest => subLinesOf owner opened item ++ subLines owner none rest

end

def nameOf (token : Token) : String :=
  Text.lower token.text

theorem role_owner (owner : Option Token) (first : Token) :
    (Role.of (owner.map nameOf) first).owner first = (opens owner first).join.map nameOf := by
  unfold opens Role.of
  cases first.kind <;> cases owner <;> rfl

theorem role_ownsBlock (owner : Option Token) (first : Token) :
    (Role.of (owner.map nameOf) first).ownsBlock = (opens owner first).isSome := by
  unfold opens Role.of
  cases first.kind <;> cases owner <;> rfl

theorem subLines_of_not_block {others : List Item} (owner : Option Token)
    (opened : Option (Option Token))
    (h : ∀ indent inside rest, others ≠ .block indent inside :: rest) :
    subLines owner opened others = subLines owner none others := by
  cases others with
  | nil => rfl
  | cons item others =>
    cases item with
    | block indent inside => exact absurd rfl (h indent inside others)
    | _ => rfl

/-- The sub-keywords among some nodes, each behind the keyword that owns them. -/
def taken (owner : Option Token) (nodes : List Node) :
    List ((Position × String) × (Position × String)) :=
  owner.toList.flatMap fun keyword =>
    (nodes.filterMap subKeyword?).map fun sub => (directiveOf keyword, sub.directive)

theorem taken_append (owner : Option Token) (nodes others : List Node) :
    taken owner (nodes ++ others) = taken owner nodes ++ taken owner others := by
  cases owner <;> simp [taken]

theorem taken_statement (owner : Option Token) (value : Statement) :
    taken owner [.statement value] = [] := by
  cases owner <;> rfl

def directivesOf (pair : Token × Token) : (Position × String) × (Position × String) :=
  (directiveOf pair.1, directiveOf pair.2)

/-- A line in a block of `owner`, its node and the nodes `inner` of its block: the line itself
counts for `owner`, and what the block holds for the keyword that it opens for. -/
structure Tallies (owner : Option Token) (first : Token) (inner : List Node) (node : Node) :
    Prop where
  within : ∃ within, node.children.Perm (within ++ inner) ∧
    ∀ child ∈ within, child.isWithinLine = true
  kept : node.kept = taken (opens owner first).join inner
  line : taken owner [node] = (subLine owner first).map directivesOf

/-- Each line makes a node that keeps the sub-keywords of its block, and is one itself if it is the
line of a sub-keyword. Only a line of code may make none. -/
theorem Heads.tallies (h : Heads (owner.map nameOf) first line before heading after)
    (hinner : ∀ node ∈ inner, InBlock ((Role.of (owner.map nameOf) first).owner first) node)
    (hplain : opens owner first = none → inner = []) :
    (∃ node, heading.nodes first.span.start stop inner = [node] ∧ Tallies owner first inner node) ∨
      heading.nodes first.span.start stop inner = [] ∧ inner = [] ∧ subLine owner first = [] := by
  have hstatement (value : Statement) (hline : subLine owner first = []) :
      taken owner [.statement value] = (subLine owner first).map directivesOf := by
    rw [hline]
    exact taken_statement owner value
  have hkeyword (argument : Option Argument) (hopens : opens owner first = some (some first))
      (hline : subLine owner first = []) :
      Tallies owner first inner (.statement (.keyword ⟨first.span.start, stop⟩
        (nameOf first) argument
        (inner.filterMap subKeyword?) (inner.filterMap statement?))) := by
    refine ⟨⟨argument.toList.map .ofArgument, ?_, isWithinLine_of_mem_argument argument⟩, ?_,
      hstatement _ hline⟩
    · refine (children_perm_held _).trans ?_
      rw [held, append_assoc]
      exact (perm_of_inBlock hinner).append_left _
    · rw [hopens]
      exact (append_nil _).symm
  cases h with
  | comment kind =>
    have hopens : opens owner first = none := by simp [opens, kind]
    obtain rfl := hplain hopens
    refine .inl ⟨_, rfl, ⟨[], .refl _, by simp⟩, ?_, hstatement _ (by simp [subLine, kind])⟩
    rw [hopens]
    rfl
  | @expression value? faults kind reads =>
    have hopens : opens owner first = none := by simp [opens, kind]
    have hline : subLine owner first = [] := by simp [subLine, kind]
    obtain rfl := hplain hopens
    cases value? with
    | none => exact .inr ⟨rfl, rfl, hline⟩
    | some value =>
      refine .inl ⟨_, rfl, ⟨[.expr value], .refl _, by simp [Node.isWithinLine]⟩, ?_,
        hstatement _ hline⟩
      rw [hopens]
      rfl
  | keyword kind reads =>
    exact .inl ⟨_, rfl, hkeyword _ (by simp [opens, kind]) (by simp [subLine, kind])⟩
  | stray kind alone reads =>
    obtain rfl := Option.map_eq_none_iff.mp alone
    exact .inl ⟨_, rfl, hkeyword _ (by simp [opens, kind]) (by simp [subLine])⟩
  | @subKeyword name argument after kind owned reads =>
    obtain ⟨keyword, rfl, rfl⟩ := Option.map_eq_some_iff.mp owned
    have hbody : ∀ node ∈ inner, InBlock none node := by
      simpa [Role.of, kind, Role.owner] using hinner
    refine .inl ⟨_, rfl, ⟨argument.toList.map .ofArgument, ?_,
      isWithinLine_of_mem_argument argument⟩, by simp [opens, kind]; rfl, ?_⟩
    · rw [children, map_statement_of_inBlock hbody]
    · rw [subLine, if_pos kind]
      rfl
  | @answer name text after kind owned reads =>
    obtain ⟨keyword, rfl, rfl⟩ := Option.map_eq_some_iff.mp owned
    have hbody : ∀ node ∈ inner, InBlock none node := by
      simpa [(Role.of_opensProse kind).2, Role.owner] using hinner
    have hopens : opens (some keyword) first = some none := by
      unfold opens
      cases hkind : first.kind <;> simp_all [Token.Kind.opensProse]
    have hline : subLine (some keyword) first = [] :=
      if_neg fun hkind => by rw [hkind] at kind; cases kind
    refine .inl ⟨_, rfl, ⟨[.prose text], ?_, by simp [Node.isWithinLine]⟩, by rw [hopens]; rfl,
      hstatement _ hline⟩
    rw [children, map_statement_of_inBlock hbody]
    exact .refl _
  | @prose text after kind alone reads =>
    obtain rfl := Option.map_eq_none_iff.mp alone
    have hopens : opens none first = none := by
      unfold opens
      cases hkind : first.kind <;> simp_all [Token.Kind.opensProse]
    obtain rfl := hplain hopens
    refine .inl ⟨_, rfl, ⟨ofParts text.parts, ?_, fun child hchild =>
      isWithinLine_of_isCode (isCode_of_mem_ofParts hchild)⟩, by rw [hopens]; rfl,
      hstatement _ (by simp [subLine])⟩
    rw [append_nil]
    exact .refl _

/-- The sub-keywords among some nodes in a block of `owner`, and those that the nodes keep, are
those of `lines`. -/
def Keeps (owner : Option Token) (nodes : List Node) (lines : List (Token × Token)) : Prop :=
  (taken owner nodes ++ nodes.flatMap allKept).Perm (lines.map directivesOf)

theorem Keeps.append {owner : Option Token} {nodes more : List Node}
    {lines others : List (Token × Token)}
    (h : Keeps owner nodes lines) (hmore : Keeps owner more others) :
    Keeps owner (nodes ++ more) (lines ++ others) := by
  rw [Keeps, taken_append, flatMap_append, map_append, append_assoc]
  refine ((perm_append_comm_assoc _ _ _).append_left _).trans ?_
  rw [← append_assoc]
  exact Perm.append h hmore

theorem Keeps.of_nil {other : Option Token} (h : Keeps owner [] lines) : Keeps other [] lines := by
  cases owner <;> cases other <;> exact h

theorem Tallies.keeps (h : Tallies owner first inner node)
    (hinner : Keeps (opens owner first).join inner lines) :
    Keeps owner [node] (subLine owner first ++ lines) := by
  obtain ⟨within, hchildren, hwithin⟩ := h.within
  rw [Keeps, h.line, flatMap_singleton, map_append]
  refine Perm.append_left _ ((allKept_perm hchildren hwithin).trans ?_)
  rw [h.kept]
  exact hinner

/-- What a block makes keeps its lines of sub-keywords, each by the keyword that owns its block. -/
theorem Reads.keeps (h : Reads parent items before nodes after) (owner : Option Token)
    (hparent : parent = owner.map nameOf) : Keeps owner nodes (subLines owner none items) := by
  induction h generalizing owner with
  | nil => cases owner <;> exact .nil
  | newline rest ih => exact ih owner hparent
  | block inner rest ihInner ih => exact (ihInner owner hparent).append (ih owner hparent)
  | @line parent first line owned items others heading before mid late after nodes more owns taken
      heads inner rest ihInner ih =>
    subst hparent
    have howns := role_ownsBlock owner first
    have hlines : subLines owner (opens owner first) (owned ++ others) =
        subLines (opens owner first).join none items ++ subLines owner none others := by
      cases hopens : opens owner first with
      | none =>
        rw [hopens] at howns
        rcases owns with ⟨rfl, rfl⟩ | ⟨howned, -⟩
        · rfl
        · rw [howned] at howns
          cases howns
      | some inside =>
        rw [hopens] at howns
        rcases owns with ⟨rfl, rfl⟩ | ⟨-, indent, rfl⟩
        · exact subLines_of_not_block owner _ (taken rfl howns)
        · rfl
    have hplain : opens owner first = none → nodes = [] := by
      intro hopens
      rw [hopens] at howns
      rcases owns with ⟨rfl, rfl⟩ | ⟨howned, -⟩
      · exact inner.nodes_of_nil
      · rw [howned] at howns
        cases howns
    rw [subLines, hlines, subLinesOf, ← append_assoc]
    refine Keeps.append ?_ (ih owner rfl)
    have hinside := ihInner _ (role_owner owner first)
    rcases heads.tallies inner.inBlock hplain with ⟨node, hnode, htallies⟩ | ⟨hnone, rfl, hline⟩
    · rw [hnode]
      exact htallies.keeps hinside
    · rw [hnone, hline]
      exact hinside.of_nil

/-- Answers stand directly in the bodies of keywords and nowhere else, and no prose stands there.
The sub-keywords that keywords keep are those of the lines, each with the keyword that owns the
block of the line; a block that none owns has none. -/
theorem ofTokens_shaped {tokens : List Token} {program : Program} {faults : List Fault}
    (h : ofTokens tokens = .ok (program, faults)) :
    (∀ node ∈ (Node.program program).walk, node.Fits) ∧
      (∀ value, Node.statement value ∈ (Node.program program).walk → value.isAnswer = true →
        ∃ keyword ∈ (Node.program program).walk, keyword.isKeyword = true ∧ value ∈ keyword.body) ∧
      (Node.program program).allKept.Perm
        (((Outline.ofTokens tokens).sections.flatMap (subLines none none)).map directivesOf) ∧
      ∀ items before block after, (readItems none items).run before = .ok (block, after) →
        block.subKeywords = [] := by
  obtain ⟨sections, houtline, hsections, hchildren⟩ := reads_sections_of_ofTokens h
  have hfits : ∀ node ∈ (Node.program program).walk, node.Fits := by
    have hblocks (child : Node) (hchild : child ∈ (Node.program program).children) :
        ∃ items before nodes after, Reads none items before nodes after ∧ child ∈ nodes := by
      rw [hchildren] at hchild
      obtain ⟨part, hpart, hchild⟩ := mem_flatMap.mp hchild
      obtain ⟨before, after, hreads⟩ := hsections part hpart
      exact ⟨_, _, _, _, hreads, hchild⟩
    refine Node.forall_mem_walk.mpr ⟨fun value hvalue => ?_, fun child hchild => ?_⟩
    · obtain ⟨items, before, nodes, after, hreads, hchild⟩ :=
        hblocks (.statement value) (mem_map_of_mem hvalue)
      rcases hreads.inBlock _ hchild with ⟨other, hother, hanswer⟩ | ⟨hnone, -⟩
      · cases hother
        exact hanswer
      · exact absurd rfl hnone
    · obtain ⟨items, before, nodes, after, hreads, hchild⟩ := hblocks child hchild
      exact hreads.fits child hchild
  refine ⟨hfits, fun value hvalue hanswer => ?_, ?_, fun items before block after hread => ?_⟩
  · rcases Node.exists_parent_of_mem_walk hvalue with hroot | ⟨parent, hparent, hchild⟩
    · cases hroot
    · have hbody := Node.mem_body_of_mem_children hchild
      have hfit := hfits parent hparent value hbody
      cases hkeyword : parent.isKeyword with
      | true => exact ⟨parent, hparent, hkeyword, hbody⟩
      | false =>
        rw [hkeyword, hanswer] at hfit
        cases hfit
  · rw [Node.allKept_eq, hchildren, ← houtline, flatMap_map, map_flatMap,
      flatMap_assoc]
    refine Perm.flatMap_left _ fun part hpart => ?_
    obtain ⟨before, after, hreads⟩ := hsections part hpart
    exact hreads.keeps none rfl
  · obtain ⟨nodes, hreads, rfl⟩ := reads_of_readItems hread
    refine filterMap_eq_nil_iff.mpr fun node hnode => ?_
    rcases hreads.inBlock node hnode with ⟨value, rfl, -⟩ | ⟨hnone, -⟩
    · rfl
    · exact absurd rfl hnone

/-- A dedent that closes nothing, and a block in a block whose inner one holds an answer with prose
below it and a sub-keyword. -/
def strayTokens : List Token :=
  [(.dedent, ""), (.keyword, "Question"), (.newline, ""), (.indent, ""), (.indent, ""),
      (.text, "yes"),
    (.newline, ""), (.indent, ""), (.text, "so"), (.dedent, ""), (.subKeyword, "Type")].map
    fun (kind, text) => ⟨kind, text, ⟨.origin, .origin⟩⟩

theorem ofTokens_shaped_strayTokens :
    ∃ program faults, ofTokens strayTokens = .ok (program, faults) ∧
      (Node.program program).allKept = [((.origin, "question"), (.origin, "type"))] ∧
      (∀ node ∈ (Node.program program).walk, node.Fits) ∧
      (∀ value, Node.statement value ∈ (Node.program program).walk → value.isAnswer = true →
        ∃ keyword ∈ (Node.program program).walk, keyword.isKeyword = true ∧ value ∈ keyword.body) ∧
      (Node.program program).allKept.Perm
        (((Outline.ofTokens strayTokens).sections.flatMap (subLines none none)).map directivesOf) ∧
      ∀ items before block after, (readItems none items).run before = .ok (block, after) →
        block.subKeywords = [] := by
  have hlines : ((Outline.ofTokens strayTokens).sections.flatMap (subLines none none)).map
      directivesOf = [((.origin, "question"), (.origin, "type"))] := by
    decide +kernel
  obtain ⟨⟨program, faults⟩, hread, -⟩ := exists_ok_of_any (ofTokens strayTokens) (fun _ => true)
    (by decide +kernel)
  have hshaped := ofTokens_shaped hread
  exact ⟨program, faults, hread, perm_singleton.mp (hlines ▸ hshaped.2.2.1), hshaped⟩

end Program
end GuidedTrack
