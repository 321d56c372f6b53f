import GuidedTrack.Proofs.OutlineLines
import GuidedTrack.Proofs.Program.RecordedFaults

/-! # Where nodes come from

Every node of a tree was made by a line of the document: it stands for the line itself or lies in
what the line holds. What is true of all that a line can make is so true of the whole tree.
-/

namespace GuidedTrack

open List Node

variable {before after faults : List Fault} {nodes : List Node}

namespace Node

theorem mem_statement? {value : Statement} (h : value ∈ nodes.filterMap statement?) :
    statement value ∈ nodes := by
  obtain ⟨node, hnode, hvalue⟩ := mem_filterMap.mp h
  cases node <;> cases hvalue
  exact hnode

theorem mem_subKeyword? {value : SubKeyword} (h : value ∈ nodes.filterMap subKeyword?) :
    subKeyword value ∈ nodes := by
  obtain ⟨node, hnode, hvalue⟩ := mem_filterMap.mp h
  cases node <;> cases hvalue
  exact hnode

end Node

def Outline.sections (outline : Outline) : List (List Outline.Item) :=
  outline.items :: outline.strays.map Prod.snd

namespace Program

open Outline (Item linesOf)
open GuidedTrack.Expr (exists_of_bind_eq_ok)

def Heading.parts : Heading → List Node
  | complete whole =>
    (whole.body.map Node.statement ++ whole.subKeywords.map Node.subKeyword).flatMap Node.children
  | keyword _ argument | subKeyword _ argument => argument.toList.map .ofArgument
  | answer text => [.prose text]

theorem Heading.mem_parts_or_mem {heading : Heading} {start stop : Position} {inner : List Node}
    {node child : Node} (h : node ∈ heading.nodes start stop inner)
    (hchild : child ∈ node.children) :
    child ∈ heading.parts ∨ child ∈ inner := by
  have hbody (h : child ∈ (inner.filterMap statement?).map .statement) : child ∈ inner := by
    obtain ⟨value, hvalue, rfl⟩ := mem_map.mp h
    exact mem_statement? hvalue
  cases heading with
  | complete whole => exact .inl (mem_flatMap.mpr ⟨node, h, hchild⟩)
  | keyword name argument =>
    obtain rfl := mem_singleton.mp h
    rw [(children_perm_held _).mem_iff, held, append_assoc] at hchild
    refine (mem_append.mp hchild).imp_right fun hchild => ?_
    refine (mem_append.mp hchild).elim (fun hsub => ?_) hbody
    obtain ⟨value, hvalue, rfl⟩ := mem_map.mp hsub
    exact mem_subKeyword? hvalue
  | subKeyword name argument =>
    obtain rfl := mem_singleton.mp h
    exact (mem_append.mp hchild).imp_right hbody
  | answer text =>
    obtain rfl := mem_singleton.mp h
    exact (mem_cons.mp hchild).imp mem_singleton.mpr hbody

/-- What every line makes true of its node and of all that stands in the line is true of all nodes
of a block. -/
theorem Reads.forall_mem_walk {Q : Node → Prop} {parent : Option String} {items : List Item}
    (h : Reads parent items before nodes after) (hfaults : after ⊆ faults)
    (hline : ∀ {parent first line before heading after inner start stop},
      first :: line ∈ linesOf items → Heads parent first line before heading after →
          after ⊆ faults →
      (∀ node ∈ inner, InBlock ((Role.of parent first).owner first) node) →
      (∀ node ∈ heading.nodes start stop inner, Q node) ∧
        ∀ part ∈ heading.parts, ∀ node ∈ part.walk, Q node) :
    ∀ root ∈ nodes, ∀ node ∈ root.walk, Q node := by
  induction h with
  | nil => simp
  | newline rest ih => exact ih hfaults hline
  | block inner rest ihInner ih =>
    rw [linesOf] at hline
    exact forall_mem_append.mpr
      ⟨ihInner (List.Subset.trans rest.subset hfaults) fun hmem => hline (mem_append_left _ hmem),
        ih hfaults fun hmem => hline (mem_append_right _ hmem)⟩
  | @line parent first line owned items others heading before mid late after nodes more owns taken
      heads inner rest ihInner ih =>
    have howned : linesOf (owned ++ others) = linesOf items ++ linesOf others := by
      rcases owns with ⟨rfl, rfl⟩ | ⟨-, indent, rfl⟩ <;> rfl
    rw [linesOf, howned] at hline
    have hlate := List.Subset.trans rest.subset hfaults
    have hinside := ihInner hlate fun hmem =>
      hline (mem_append_right _ (mem_append_left _ hmem))
    refine forall_mem_append.mpr ⟨fun root hroot => Node.forall_mem_walk.mpr ?_,
      ih hfaults fun hmem => hline (mem_append_right _ (mem_append_right _ hmem))⟩
    obtain ⟨hnodes, hparts⟩ := hline (mem_append_left _ mem_cons_self) heads
      (List.Subset.trans inner.subset hlate) inner.inBlock
    refine ⟨hnodes root hroot, fun child hchild => ?_⟩
    rcases Heading.mem_parts_or_mem hroot hchild with hpart | hbelow
    · exact hparts child hpart
    · exact hinside child hbelow

/-! ## Sections -/

theorem reads_of_readSections {strays : List (Token × List Item)} {body : List Statement}
    (h : (readSections strays).run before = .ok (body, after)) :
    ∃ sections : List (List Item × List Node), sections.map Prod.fst = strays.map Prod.snd ∧
      (∀ part ∈ sections, ∃ before after, Reads none part.1 before part.2 after) ∧
      body.map .statement = sections.flatMap Prod.snd := by
  induction strays generalizing before after body with
  | nil =>
    cases h
    exact ⟨[], rfl, by simp, rfl⟩
  | cons stray strays ih =>
    obtain ⟨_, mid, hrecord, h⟩ := exists_of_run_bind h
    obtain ⟨block, late, hitems, h⟩ := exists_of_run_bind h
    obtain ⟨others, last, hothers, h⟩ := exists_of_run_bind h
    cases h
    obtain ⟨nodes, hreads, rfl⟩ := reads_of_readItems hitems
    obtain ⟨sections, houtline, hsections, hbody⟩ := ih hothers
    refine ⟨(stray.2, nodes) :: sections, congrArg (stray.2 :: ·) houtline,
      forall_mem_cons.mpr ⟨⟨_, _, hreads⟩, hsections⟩, ?_⟩
    rw [map_append, hbody, flatMap_cons]
    exact congrArg (· ++ _) (map_statement_of_inBlock hreads.inBlock)

theorem reads_sections_of_ofTokens {tokens : List Token} {program : Program}
    (h : ofTokens tokens = .ok (program, faults)) :
    ∃ sections : List (List Item × List Node),
      sections.map Prod.fst = (Outline.ofTokens tokens).sections ∧
      (∀ part ∈ sections, ∃ before after, Reads none part.1 before part.2 after) ∧
      (Node.program program).children = sections.flatMap Prod.snd := by
  obtain ⟨⟨body, after⟩, hread, hprogram⟩ := exists_of_bind_eq_ok h
  cases hprogram
  obtain ⟨block, mid, hitems, hrest⟩ := exists_of_run_bind hread
  obtain ⟨others, last, hothers, hrest⟩ := exists_of_run_bind hrest
  cases hrest
  obtain ⟨nodes, hreads, rfl⟩ := reads_of_readItems hitems
  obtain ⟨sections, houtline, hsections, hbody⟩ := reads_of_readSections hothers
  refine ⟨(_, nodes) :: sections, congrArg (_ :: ·) houtline,
    forall_mem_cons.mpr ⟨⟨_, _, hreads⟩, hsections⟩, ?_⟩
  rw [Node.children, map_append, hbody, flatMap_cons]
  exact congrArg (· ++ _) (map_statement_of_inBlock hreads.inBlock)

end Program
end GuidedTrack
