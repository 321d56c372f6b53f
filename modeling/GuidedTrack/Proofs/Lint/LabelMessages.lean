import GuidedTrack.Proofs.Lint.RuleIndependence
import GuidedTrack.Proofs.Program.AnswerShape
import GuidedTrack.Proofs.Rule.SimilarDocuments

/-! # Labels and jumps of a document

The rules on labels see every label and every jump once, however deep in the document it stands.
They report the jumps without a label and the labels without a jump, and have nothing to say if and
only if the same names are given and jumped to.
-/

namespace GuidedTrack

open List

/-! ## All directives of a document -/

/-- The keyword of a statement, its argument and its place. -/
structure Directive where
  keyword : String
  argument : Option Argument
  place : Position

mutual

/-- The directives in a statement at any depth, itself included. -/
def Statement.directives : Statement → List Directive
  | .keyword span name argument subKeywords body =>
    ⟨name, argument, span.start⟩ ::
      (SubKeyword.directivesList subKeywords ++ Statement.directivesList body)
  | .answer _ _ body => Statement.directivesList body
  | .prose _ | .expression .. | .comment .. => []

def Statement.directivesList : List Statement → List Directive
  | [] => []
  | value :: rest => value.directives ++ Statement.directivesList rest

def SubKeyword.directives : SubKeyword → List Directive
  | .mk _ _ _ body => Statement.directivesList body

def SubKeyword.directivesList : List SubKeyword → List Directive
  | [] => []
  | value :: rest => value.directives ++ SubKeyword.directivesList rest

end

namespace Directive

/-- The first piece of text in the argument, trimmed, and nothing if there is none. -/
def name (directive : Directive) : String :=
  match directive.argument with
  | some (.prose text) => String.ofList (Text.trim ((Part.texts text.parts).head?.getD "").toList)
  | _ => ""

def named (keyword : String) (directives : List Directive) : List Directive :=
  directives.filter fun directive => directive.keyword == keyword && !directive.name.isEmpty

def ofNode? : Node → Option Directive
  | .statement (.keyword span name argument _ _) => some ⟨name, argument, span.start⟩
  | _ => none

def below (node : Node) : List Directive :=
  node.walk.filterMap ofNode?

theorem below_perm (node : Node) :
    (below node).Perm ((ofNode? node).toList ++ node.held.flatMap below) := by
  have hself : filterMap ofNode? [node] = (ofNode? node).toList := by
    cases hnode : ofNode? node <;> simp [hnode]
  rw [below, Node.walk_eq, ← singleton_append, filterMap_append, filterMap_flatMap, hself]
  exact ((Node.children_perm_held node).flatMap_right below).append_left _

theorem flatMap_below_eq_nil {nodes : List Node}
    (h : ∀ node ∈ nodes, node.isWithinLine = true) : nodes.flatMap below = [] := by
  refine flatMap_eq_nil_iff.mpr fun node hnode => filterMap_eq_nil_iff.mpr fun inner hinner => ?_
  have hwithin := Node.isWithinLine_of_mem_walk (h node hnode) inner hinner
  cases inner <;> first | rfl | cases hwithin

end Directive

open Directive (below)

mutual

theorem Statement.below_perm (value : Statement) :
    (below (.statement value)).Perm value.directives := by
  refine (Directive.below_perm _).trans ?_
  cases value with
  | keyword span name argument subKeywords body =>
    rw [Node.held, flatMap_append, flatMap_append,
      Directive.flatMap_below_eq_nil (Node.isWithinLine_of_mem_argument argument), nil_append]
    exact ((SubKeyword.belowList_perm subKeywords).append (Statement.belowList_perm body)).cons _
  | answer span text body =>
    rw [Node.held, flatMap_cons, ← flatMap_singleton below,
      Directive.flatMap_below_eq_nil (by simp [Node.isWithinLine])]
    exact Statement.belowList_perm body
  | prose text =>
    exact .of_eq (Directive.flatMap_below_eq_nil fun node hnode =>
      Node.isWithinLine_of_isCode (Node.isCode_of_mem_ofParts hnode))
  | expression span value =>
    exact .of_eq (Directive.flatMap_below_eq_nil (by simp [Node.held, Node.isWithinLine]))
  | comment span text => exact .nil

theorem Statement.belowList_perm (body : List Statement) :
    ((body.map .statement).flatMap below).Perm (Statement.directivesList body) := by
  cases body with
  | nil => exact .nil
  | cons value rest => exact value.below_perm.append (Statement.belowList_perm rest)

theorem SubKeyword.below_perm (value : SubKeyword) :
    (below (.subKeyword value)).Perm value.directives := by
  refine (Directive.below_perm _).trans ?_
  cases value with
  | mk span name argument body =>
    rw [Node.held, flatMap_append,
      Directive.flatMap_below_eq_nil (Node.isWithinLine_of_mem_argument argument), nil_append]
    exact Statement.belowList_perm body

theorem SubKeyword.belowList_perm (subKeywords : List SubKeyword) :
    ((subKeywords.map .subKeyword).flatMap below).Perm (SubKeyword.directivesList subKeywords) := by
  cases subKeywords with
  | nil => exact .nil
  | cons value rest => exact value.below_perm.append (SubKeyword.belowList_perm rest)

end

/-- The tour of a program meets each of its directives once. -/
theorem Program.below_perm (program : Program) :
    (below (.program program)).Perm (Statement.directivesList program.body) :=
  (Directive.below_perm _).trans (Statement.belowList_perm program.body)

/-! ## Their names -/

namespace Program

def SpeaksProse : Node → Prop
  | .statement (.keyword _ name argument _ _) =>
    takesExpression none name = false → ∀ value, argument ≠ some (.expr value)
  | _ => True

theorem Heads.speaksProse {parent : Option String} {first : Token} {line : List Token}
    {before after : List Fault} {heading : Heading}
    (h : Heads parent first line before heading after)
    (start stop : Position) (inner : List Node) :
    ∀ node ∈ heading.nodes start stop inner, SpeaksProse node := by
  have hkeyword {before after : List Fault} {argument : Option Argument}
      (hreads : (readArgument none (Text.lower first.text) first line).run before =
        .ok (argument, after)) :
      ∀ node ∈ Heading.nodes start stop inner (.keyword (Text.lower first.text) argument),
        SpeaksProse node := by
    refine forall_mem_singleton.mpr fun htakes value hvalue => ?_
    rcases argument_cases hreads with rfl | ⟨_, _, _, -, -, ⟨_, _, -, hexpr, -⟩ | ⟨_, -, -, rfl⟩⟩
    · cases hvalue
    · rw [htakes] at hexpr
      cases hexpr
    · cases hvalue
  cases h with
  | expression kind value =>
    intro node hnode
    simp only [Heading.nodes, map_map, map_nil, append_nil] at hnode
    obtain ⟨value, -, rfl⟩ := mem_map.mp hnode
    trivial
  | keyword kind reads => exact hkeyword reads
  | stray kind alone reads => exact hkeyword reads
  | _ => exact forall_mem_singleton.mpr trivial

theorem speaksProse_ofTokens {tokens : List Token} {program : Program} {faults : List Fault}
    (h : ofTokens tokens = .ok (program, faults)) :
    ∀ node ∈ (Node.program program).walk, SpeaksProse node := by
  obtain ⟨sections, -, hsections, hchildren⟩ := reads_sections_of_ofTokens h
  refine Node.forall_mem_walk.mpr ⟨trivial, fun child hchild => ?_⟩
  rw [hchildren] at hchild
  obtain ⟨part, hpart, hchild⟩ := mem_flatMap.mp hchild
  obtain ⟨before, after, hreads⟩ := hsections part hpart
  refine hreads.forall_mem_walk (List.Subset.refl _) (fun _ heads _ _ => ⟨heads.speaksProse _ _ _,
    fun part hpart node hnode => ?_⟩) child hchild
  have hwithin := Node.isWithinLine_of_mem_walk (heads.isWithinLine part hpart) node hnode
  cases node <;> trivial

end Program

namespace Directive

open Rule

def entry (directive : Directive) : String × Position :=
  (directive.name, directive.place)

theorem labelName_eq {directive : Directive}
    (h : ∀ value, directive.argument ≠ some (.expr value)) :
    labelName directive.argument = directive.name := by
  unfold name
  rcases hargument : directive.argument with - | value | text
  · rfl
  · exact absurd hargument (h value)
  · rfl

/-- A keyword without expressions has the named statements that its directives give. -/
theorem namedStatements_perm {keyword source : String} {tokens : List Token} {program : Program}
    {faults : List Fault} (hread : Program.ofTokens tokens = .ok (program, faults))
    (hkeyword : Program.takesExpression none keyword = false) :
    (namedStatements keyword ⟨source, tokens, (Node.program program).tour [] 0⟩).Perm
      ((named keyword (Statement.directivesList program.body)).map entry) := by
  let entry? (directive : Directive) : Option (String × Position) :=
    if directive.keyword == keyword && !(labelName directive.argument).isEmpty then
      some (labelName directive.argument, directive.place) else none
  have hentered : namedStatements keyword ⟨source, tokens, (Node.program program).tour [] 0⟩ =
      (below (.program program)).filterMap entry? := by
    rw [below, Node.walk, filterMap_filterMap, filterMap_filterMap]
    refine filterMap_congr fun visit _ => ?_
    obtain ⟨phase, node, ancestors, place⟩ := visit
    cases phase with
    | leave => rfl
    | enter =>
      cases node with
      | statement value => cases value <;> rfl
      | _ => rfl
  have hentry : ∀ directive ∈ below (.program program), entry? directive =
      if directive.keyword == keyword && !directive.name.isEmpty then some directive.entry
      else none := by
    intro directive hdirective
    obtain ⟨node, hnode, hofNode⟩ := mem_filterMap.mp hdirective
    have hprose := Program.speaksProse_ofTokens hread node hnode
    by_cases hname : directive.keyword = keyword
    · have hlabel : labelName directive.argument = directive.name := by
        unfold ofNode? at hofNode
        split at hofNode
        · cases hofNode
          subst hname
          exact labelName_eq (hprose hkeyword)
        · cases hofNode
      simp only [ entry?, hlabel, entry]
    · simp [ entry?, hname]
  rw [hentered, filterMap_congr hentry, named, ← filterMap_eq_map, filterMap_filter]
  exact (Program.below_perm program).filterMap _

theorem unmatched_perm {entries others : List (String × Position)} {xs ys : List Directive}
    (h : entries.Perm (xs.map entry)) (hothers : others.Perm (ys.map entry)) :
    (unmatched entries others).Perm ((xs.filter fun x => x.name ∉ ys.map name).map entry) := by
  refine (h.filter _).trans (.of_eq ?_)
  rw [filter_map]
  refine congrArg (map entry) (filter_congr fun x _ => ?_)
  have hnames : (others.map Prod.fst).Perm (ys.map name) := by
    simpa [Function.comp_def, entry] using hothers.map Prod.fst
  rw [Function.comp_apply, contains_eq_mem, ← decide_not]
  exact decide_eq_decide.mpr (not_congr hnames.mem_iff)

end Directive

namespace Lint

open Rule
open Directive (named)

/-- The rules on labels are exact, whatever the order of the statements: a jump is reported if no
label of the document has its name, and a label if no jump has it. -/
theorem messages_labels {settings : Settings} {source : String} {found : List Message}
    (h : messages settings source = .ok found) :
    ∃ program faults, Program.ofSource source = .ok (program, faults) ∧
      let directives := Statement.directivesList program.body
      let labels := named "label" directives
      let jumps := (named "goto" directives).filter fun jump => !isExternal jump.name
      (∀ severity, severityOf settings noInvalidGoto = some severity →
        (ofRule noInvalidGoto found).Perm
          ((jumps.filter fun jump => jump.name ∉ labels.map Directive.name).map fun jump =>
            ⟨"no-invalid-goto", severity,
              .ofPosition jump.place s!"*goto target '{jump.name}' is not defined"⟩)) ∧
      (∀ severity, severityOf settings noUnusedLabels = some severity →
        (ofRule noUnusedLabels found).Perm
          ((labels.filter fun label => label.name ∉ jumps.map Directive.name).map fun label =>
            ⟨"no-unused-labels", severity, .ofPosition label.place
              s!"Label '{label.name}' is defined but never used by a *goto"⟩)) ∧
      (severityOf settings noInvalidGoto ≠ none → severityOf settings noUnusedLabels ≠ none →
        ((ofRule noInvalidGoto found = [] ∧ ofRule noUnusedLabels found = []) ↔
          ∀ name, name ∈ jumps.map Directive.name ↔ name ∈ labels.map Directive.name)) := by
  obtain ⟨program, faults, hread, rfl⟩ := exists_program_of_messages h
  refine ⟨program, faults, hread, ?_⟩
  intro directives labels jumps
  let document : Document := ⟨source, Token.ofSource source, (Node.program program).tour [] 0⟩
  have hlabels : (Rule.labels document).Perm (labels.map Directive.entry) :=
    Directive.namedStatements_perm hread (by decide +kernel)
  have hjumps : (Rule.jumps document).Perm (jumps.map Directive.entry) := by
    refine ((Directive.namedStatements_perm hread (by decide +kernel)).filter _).trans (.of_eq ?_)
    rw [filter_map]
    rfl
  have hinvalid (severity : Severity) (hon : severityOf settings noInvalidGoto = some severity) :=
    (perm_onLeave rfl (by simp [Rule.all]) hon source (Token.ofSource source) program).trans
      (((Directive.unmatched_perm hjumps hlabels).map _).map _)
  have hunused (severity : Severity) (hon : severityOf settings noUnusedLabels = some severity) :=
    (perm_onLeave rfl (by simp [Rule.all]) hon source (Token.ofSource source) program).trans
      (((Directive.unmatched_perm hlabels hjumps).map _).map _)
  refine ⟨fun severity hon => (hinvalid severity hon).trans
      (.of_eq (by rw [map_map, map_map]; rfl)),
    fun severity hon => (hunused severity hon).trans (.of_eq (by rw [map_map, map_map]; rfl)),
    fun hinvalidOn hunusedOn => ?_⟩
  obtain ⟨severity, hon⟩ := Option.ne_none_iff_exists'.mp hinvalidOn
  obtain ⟨severity', hon'⟩ := Option.ne_none_iff_exists'.mp hunusedOn
  rw [← length_eq_zero_iff, (hinvalid severity hon).length_eq, ← length_eq_zero_iff,
    (hunused severity' hon').length_eq]
  simp only [length_map, length_eq_zero_iff, filter_eq_nil_iff, decide_eq_true_eq, not_not]
  refine ⟨fun hboth name => ⟨forall_mem_map.mpr hboth.1 name, forall_mem_map.mpr hboth.2 name⟩,
    fun hsame => ⟨fun jump hjump => (hsame _).mp (mem_map_of_mem hjump), fun label hlabel => ?_⟩⟩
  exact (hsame _).mpr (mem_map_of_mem hlabel)

theorem messages_labels_apart :
    ∃ found, messages [] "*label: a\n*goto: b\n" = .ok found ∧
      (ofRule noInvalidGoto found).length = 1 ∧ (ofRule noUnusedLabels found).length = 1 := by
  obtain ⟨result, hread, hcounts⟩ := exists_ok_of_any (Program.ofSource "*label: a\n*goto: b\n")
    (fun result =>
      let directives := Statement.directivesList result.1.body
      let labels := named "label" directives
      let jumps := (named "goto" directives).filter fun jump => !isExternal jump.name
      ((jumps.filter fun jump => jump.name ∉ labels.map Directive.name).length,
        (labels.filter fun label => label.name ∉ jumps.map Directive.name).length) == (1, 1))
    (by decide +kernel)
  obtain ⟨found, hfound, -⟩ := exists_ok_of_any (messages [] "*label: a\n*goto: b\n")
    (fun _ => true) (by decide +kernel)
  obtain ⟨program, faults, hother, hinvalid, hunused, -⟩ := messages_labels hfound
  cases hread.symm.trans hother
  obtain ⟨hjumps, hlabels⟩ := Prod.mk.inj (eq_of_beq hcounts)
  refine ⟨found, hfound, ?_, ?_⟩
  · rw [(hinvalid .error rfl).length_eq, length_map, hjumps]
  · rw [(hunused .warning rfl).length_eq, length_map, hlabels]

end Lint
end GuidedTrack
