import GuidedTrack.Proofs.Lint.VariableMessages
import GuidedTrack.Proofs.Node.CallbackTours
import Mathlib.Logic.Function.Basic

/-! # One walk for all rules

The rules at work are callbacks with a memory. Each keeps its own notes, all add to one list of
messages, and one walk calls those that wait for the kind of a node, rule by rule. What the walk
leaves in the list is what the rules say about the steps of the tour, so rules that remember cannot
disturb one another either.
-/

namespace GuidedTrack

open List Rule Lint

theorem lookup_map_self {β : Type} (f : String → β) (keys : List String) (key : String) :
    (keys.map fun key => (key, f key)).lookup key = if key ∈ keys then some (f key) else none := by
  split
  · exact lookup_graph f ‹_›
  · rename_i hkey
    refine lookup_eq_none_iff.mpr fun entry hentry => ?_
    obtain ⟨other, hother, rfl⟩ := mem_map.mp hentry
    exact bne_iff_ne.mpr fun heq => hkey (heq ▸ hother)

/-- The callbacks of each kind, in the order in which they are entered. -/
def Table.ofEntries {σ : Type} (entries : List (String × Callback σ)) : Table σ :=
  (entries.map Prod.fst).map fun kind => (kind, (entries.filter (·.1 == kind)).map Prod.snd)

theorem Table.lookup_ofEntries {σ : Type} (entries : List (String × Callback σ)) (key : String) :
    ((ofEntries entries).lookup key).getD [] = (entries.filter (·.1 == key)).map Prod.snd := by
  rw [ofEntries, lookup_map_self]
  split
  · rfl
  · rename_i hkey
    have hnone : entries.filter (·.1 == key) = [] := filter_eq_nil_iff.mpr fun entry hentry heq =>
      hkey (mem_map.mpr ⟨entry, hentry, eq_of_beq heq⟩)
    rw [hnone]
    rfl

/-! ## Rules with a memory -/

/-- What a rule keeps to itself during a walk. -/
structure Notes where
  labels : List (String × Position) := []
  jumps : List (String × Position) := []
  known : Variables := {}

/-- What a callback makes of the notes of its rule at a node, and what it reports there. -/
abbrev Handler := (ancestors : List Node) → Node → Notes → Notes × List Report

/-- A rule at work: its callbacks by the kind of a node, one for each. -/
structure Runner where
  rule : Rule
  handlers : List (String × Handler)
  distinct : (handlers.map Prod.fst).Nodup

/-- What the rules have made so far: the notes of each, by its name, and the messages of all. -/
structure Shared where
  notes : String → Notes := fun _ => {}
  messages : List Message := []

def Visit.key (visit : Visit) : String :=
  match visit.phase with
  | .enter => visit.node.kindName
  | .leave => visit.node.kindName ++ ":exit"

namespace Runner

variable {runner : Runner} {runners : List Runner} {settings : Settings} {visit : Visit}
  {document : Document}

/-- A callback in the walk of all rules reads and writes the notes of its own rule. -/
def callback (rule : Rule) (severity : Severity) (handler : Handler) : Callback Shared :=
  fun ancestors node shared =>
    let (notes, reports) := handler ancestors node (shared.notes rule.name)
    ⟨Function.update shared.notes rule.name notes,
      shared.messages ++ reports.map (⟨rule.name, severity, ·⟩)⟩

def entries (settings : Settings) (runner : Runner) : List (String × Callback Shared) :=
  match severityOf settings runner.rule with
  | none => []
  | some severity => runner.handlers.map fun (kind, handler) =>
      (kind, callback runner.rule severity handler)

def table (settings : Settings) (runners : List Runner) : Table Shared :=
  .ofEntries (runners.flatMap (entries settings))

/-- What a rule makes of its notes and reports at one step of a tour. -/
def step (runner : Runner) (visit : Visit) (notes : Notes) : Notes × List Report :=
  match runner.handlers.lookup visit.key with
  | none => (notes, [])
  | some handler => handler visit.ancestors visit.node notes

def answer (settings : Settings) (visit : Visit) (runner : Runner) (notes : Notes) :
    Notes × List Message :=
  match severityOf settings runner.rule with
  | none => (notes, [])
  | some severity =>
    let (notes, reports) := runner.step visit notes
    (notes, reports.map (⟨runner.rule.name, severity, ·⟩))

def act (settings : Settings) (visit : Visit) (shared : Shared) (runner : Runner) : Shared :=
  let (notes, messages) := runner.answer settings visit (shared.notes runner.rule.name)
  ⟨Function.update shared.notes runner.rule.name notes, shared.messages ++ messages⟩

theorem filter_eq_lookup {β : Type} {entries : List (String × β)}
    (h : (entries.map Prod.fst).Nodup) (key : String) :
    entries.filter (·.1 == key) = (entries.lookup key).toList.map (key, ·) := by
  induction entries with
  | nil => rfl
  | cons entry entries ih =>
    obtain ⟨hfresh, hrest⟩ := nodup_cons.mp h
    rw [filter_cons, lookup_cons, ih hrest, BEq.comm]
    cases hkey : key == entry.1
    · rfl
    · obtain rfl := eq_of_beq hkey
      have hnone : entries.lookup entry.1 = none :=
        lookup_eq_none_iff.mpr fun other hother => by
          rw [bne_iff_ne]
          intro heq
          exact hfresh (mem_map.mpr ⟨other, hother, heq.symm⟩)
      rw [hnone]
      rfl

/-- At one step of the tour the callbacks of a table act rule by rule. -/
theorem answer_table (shared : Shared) :
    (table settings runners).answer shared visit = runners.foldl (act settings visit) shared := by
  have hcallbacks : (table settings runners).callbacks visit.phase visit.node =
      ((runners.flatMap (entries settings)).filter (·.1 == visit.key)).map Prod.snd := by
    rw [← Table.lookup_ofEntries, Visit.key]
    cases visit.phase <;> rfl
  rw [Table.answer, hcallbacks, filter_flatMap, map_flatMap, foldl_flatMap]
  refine foldl_ext _ _ _ fun shared runner _ => ?_
  rw [entries, act, answer]
  cases severityOf settings runner.rule with
  | none => simp
  | some severity =>
    dsimp only
    rw [filter_map]
    change foldl _ shared (map Prod.snd (map _ (runner.handlers.filter (·.1 == visit.key)))) = _
    rw [filter_eq_lookup runner.distinct, step]
    cases runner.handlers.lookup visit.key with
    | none => simp
    | some handler => rfl

/-- At one step of a tour every rule is answered from its own notes. -/
theorem foldl_act (hnames : (runners.map (·.rule.name)).Nodup) (settings : Settings)
    (visit : Visit) (shared : Shared) :
    let after := runners.foldl (act settings visit) shared
    after.messages = shared.messages ++ runners.flatMap (fun runner =>
        (runner.answer settings visit (shared.notes runner.rule.name)).2) ∧
      (∀ runner ∈ runners, after.notes runner.rule.name =
        (runner.answer settings visit (shared.notes runner.rule.name)).1) ∧
      ∀ name ∉ runners.map (·.rule.name), after.notes name = shared.notes name := by
  induction runners generalizing shared with
  | nil => simp
  | cons first runners ih =>
    obtain ⟨hfirst, hrest⟩ := nodup_cons.mp hnames
    obtain ⟨hmessages, hnotes, hothers⟩ := ih hrest (act settings visit shared first)
    have hkept {name : String} (hname : name ≠ first.rule.name) :
        (act settings visit shared first).notes name = shared.notes name :=
      Function.update_of_ne hname _ _
    have hown {runner : Runner} (hrunner : runner ∈ runners) :
        (act settings visit shared first).notes runner.rule.name =
          shared.notes runner.rule.name :=
      hkept fun heq => hfirst (mem_map.mpr ⟨runner, hrunner, heq⟩)
    refine ⟨?_, ?_, fun name hname => ?_⟩
    · rw [foldl_cons, hmessages, flatMap_cons, ← append_assoc]
      exact congrArg _ (flatMap_congr fun runner hrunner => by rw [hown hrunner])
    · rintro runner (_ | ⟨_, hrunner⟩)
      · rw [foldl_cons, hothers _ hfirst]
        exact Function.update_self _ _ _
      · rw [foldl_cons, hnotes runner hrunner, hown hrunner]
    · obtain ⟨hne, hname⟩ := not_or.mp (mem_cons.not.mp hname)
      rw [foldl_cons, hothers name hname, hkept hne]

/-- What a rule remembers of some steps of a tour. -/
def memory (runner : Runner) (visits : List Visit) : Notes :=
  visits.foldl (fun notes visit => (runner.step visit notes).1) {}

/-- A rule at work reports, step by step, what it finds in the whole document. -/
def Simulates (document : Document) (runner : Runner) : Prop :=
  ∀ before visit after, document.visits = before ++ visit :: after →
    (runner.step visit (runner.memory before)).2 = runner.rule.check document visit

theorem foldl_answer (hnames : (runners.map (·.rule.name)).Nodup)
    (h : ∀ runner ∈ runners, runner.Simulates document) {before after : List Visit}
    (hvisits : document.visits = before ++ after) :
    let shared := before.foldl (table settings runners).answer {}
    shared.messages = before.flatMap (fun visit =>
        (runners.map Runner.rule).flatMap (messagesOf settings document visit)) ∧
      ∀ runner ∈ runners, severityOf settings runner.rule ≠ none →
        shared.notes runner.rule.name = runner.memory before := by
  induction before using reverseRecOn generalizing after with
  | nil => exact ⟨rfl, fun _ _ _ => rfl⟩
  | append_singleton before visit ih =>
    rw [append_assoc] at hvisits
    obtain ⟨hmessages, hnotes⟩ := ih hvisits
    obtain ⟨hmessages', hnotes', -⟩ := foldl_act hnames settings visit
      (before.foldl (table settings runners).answer {})
    dsimp only
    rw [foldl_append, foldl_cons, foldl_nil, answer_table]
    refine ⟨?_, fun runner hrunner hon => ?_⟩
    · rw [hmessages', hmessages, flatMap_append, flatMap_singleton, flatMap_map]
      refine congrArg _ (flatMap_congr fun runner hrunner => ?_)
      rw [messagesOf, answer]
      cases hseverity : severityOf settings runner.rule with
      | none => rfl
      | some severity =>
        dsimp only
        rw [hnotes runner hrunner (by simp [hseverity]), h runner hrunner _ _ _ hvisits]
    · rw [hnotes' runner hrunner, answer, hnotes runner hrunner hon, memory, memory, foldl_append]
      cases hseverity : severityOf settings runner.rule with
      | none => exact absurd hseverity hon
      | some severity => rfl

/-! ## Rules that report at once -/

section

variable {source : String} {tokens : List Token} {program : Program} {visits : List Visit}
  {rule : Rule}

/-- A rule without notes, that waits for one kind of node. -/
def reporting (source : String) (tokens : List Token) (kind : String) (rule : Rule) : Runner where
  rule
  handlers := [(kind, fun ancestors node notes =>
    (notes, rule.check ⟨source, tokens, []⟩ ⟨.enter, node, ancestors, 0⟩))]
  distinct := nodup_singleton kind

/-- Whether a rule says nothing but at nodes of one kind, and looks at no other node there. -/
def WaitsFor (kind : String) (rule : Rule) : Prop :=
  ∀ source tokens visits visit, rule.check ⟨source, tokens, visits⟩ visit =
    if visit.key = kind then
      rule.check ⟨source, tokens, []⟩ ⟨.enter, visit.node, visit.ancestors, 0⟩ else []

theorem WaitsFor.simulates {kind : String} (h : WaitsFor kind rule) :
    (reporting source tokens kind rule).Simulates ⟨source, tokens, visits⟩ := by
  intro before visit after _
  have hcheck := h source tokens visits visit
  rw [step, reporting, lookup_cons, hcheck, lookup_nil]
  by_cases hkey : visit.key = kind
  · rw [if_pos hkey, beq_iff_eq.mpr hkey]
  · rw [if_neg hkey, beq_false_of_ne hkey]

theorem waitsFor_onKeyword {name : String} {severity : Severity}
    (check : String → Option Argument → List String → List String) :
    WaitsFor "KeywordStatement" ⟨name, severity, onKeyword check⟩ := by
  rintro source tokens visits ⟨phase, node, ancestors, place⟩
  cases phase <;> rcases node with _ | (_ | _ | _ | _ | _) | _ | _ |
    (_ | _ | _ | _ | _ | _ | _ | _ | _ | _) | _ <;> rfl

theorem waitsFor_onEnter {name : String} {severity : Severity} {check : Document → List Report}
    (h : ∀ source tokens visits, check ⟨source, tokens, visits⟩ = check ⟨source, tokens, []⟩) :
    WaitsFor "Program" ⟨name, severity, onEnter check⟩ := by
  rintro source tokens visits ⟨phase, node, ancestors, place⟩
  cases phase <;> rcases node with _ | (_ | _ | _ | _ | _) | _ | _ |
    (_ | _ | _ | _ | _ | _ | _ | _ | _ | _) | _ <;>
    first | rfl | exact h source tokens visits

theorem waitsFor_validSubKeyword : WaitsFor "SubKeyword" validSubKeyword := by
  rintro source tokens visits ⟨phase, node, ancestors, place⟩
  cases phase <;> rcases node with _ | (_ | _ | _ | _ | _) | _ | _ |
    (_ | _ | _ | _ | _ | _ | _ | _ | _ | _) | _ <;> rfl

theorem waitsFor_gotoNeedsReset : WaitsFor "KeywordStatement" gotoNeedsReset := by
  rintro source tokens visits ⟨phase, node, ancestors, place⟩
  cases phase <;> rcases node with _ | (_ | _ | _ | _ | _) | _ | _ |
    (_ | _ | _ | _ | _ | _ | _ | _ | _ | _) | _ <;> rfl

/-! ## Rules that report at the end -/

/-- A rule that notes what it meets at nodes of some kinds, and reports when the program is left. -/
def collecting (kinds : List String) (note : List Node → Node → Notes → Notes) (rule : Rule)
    (summary : Notes → List Report) (h : (kinds ++ ["Program:exit"]).Nodup) : Runner where
  rule
  handlers := kinds.map (·, fun ancestors node notes => (note ancestors node notes, [])) ++
    [("Program:exit", fun _ _ notes => (notes, summary notes))]
  distinct := by simpa [Function.comp_def] using h

variable {kinds : List String} {note : List Node → Node → Notes → Notes}
  {summary : Notes → List Report} {h : (kinds ++ ["Program:exit"]).Nodup} {notes : Notes}

theorem step_collecting (visit : Visit) (notes : Notes) :
    (collecting kinds note rule summary h).step visit notes =
      if visit.key ∈ kinds then (note visit.ancestors visit.node notes, [])
      else if visit.key = "Program:exit" then (notes, summary notes) else (notes, []) := by
  rw [step, collecting, lookup_append, lookup_map_self, lookup_cons, lookup_nil]
  by_cases hkey : visit.key ∈ kinds
  · simp [hkey]
  · rw [if_neg hkey, if_neg hkey, Option.none_or]
    by_cases hexit : visit.key = "Program:exit"
    · rw [if_pos hexit, beq_iff_eq.mpr hexit]
    · rw [if_neg hexit, beq_false_of_ne hexit]

theorem onLeave_eq (check : Document → List Report) (document : Document) (visit : Visit) :
    onLeave check document visit = if visit.key = "Program:exit" then check document else [] := by
  obtain ⟨phase, node, ancestors, place⟩ := visit
  cases phase <;> rcases node with _ | (_ | _ | _ | _ | _) | _ | _ |
    (_ | _ | _ | _ | _ | _ | _ | _ | _ | _) | _ <;> rfl

theorem eq_nil_of_key {before after : List Visit} {visit : Visit}
    (h : (Node.program program).tour [] 0 = before ++ visit :: after)
    (hkey : visit.key = "Program:exit") : after = [] := by
  have hleave := onLeave_eq (fun _ => [.ofPosition .origin ""]) ⟨"", [], []⟩ visit
  have hnode : visit.phase = .leave ∧ visit.node.isProgram = true := by
    rw [if_pos hkey, onLeave] at hleave
    split at hleave
    · rename_i hphase hnode
      exact ⟨hphase, by rw [hnode]; rfl⟩
    · cases hleave
  rcases after.eq_nil_or_concat with hnil | ⟨rest, last, rfl⟩
  · exact hnil
  rw [Node.tour_eq, concat_eq_append, ← cons_append, ← append_assoc] at h
  have hmem : visit ∈ before ++ visit :: rest := by simp
  rw [← (append_inj' h rfl).1] at hmem
  rcases mem_cons.mp hmem with rfl | hinner
  · cases hnode.1
  · obtain ⟨child, hchild, hvisit⟩ := mem_flatMap.mp hinner
    cases hnode.2.symm.trans (Node.isProgram_of_mem_walk (mem_flatMap.mpr
      ⟨child.1, fst_mem_of_mem_zipIdx hchild, Node.mem_walk_of_mem_tour hvisit⟩))

/-- `tell` follows the notes: a step changes what it tells as the rule changes its notes. -/
theorem simulates_collecting {tell : List Visit → Notes}
    (hvisits : document.visits = (Node.program program).tour [] 0)
    (hcheck : rule.check document = onLeave (fun _ => summary (tell document.visits)) document)
    (hnil : tell [] = {})
    (htell : ∀ before visit after, document.visits = before ++ visit :: after →
      tell (before ++ [visit]) =
        if visit.key ∈ kinds then note visit.ancestors visit.node (tell before)
        else tell before) :
    (collecting kinds note rule summary h).Simulates document := by
  have hmemory {before after : List Visit} (hsplit : document.visits = before ++ after) :
      (collecting kinds note rule summary h).memory before = tell before := by
    induction before using reverseRecOn generalizing after with
    | nil => exact hnil.symm
    | append_singleton before visit ih =>
      rw [append_assoc] at hsplit
      rw [htell _ _ _ hsplit, memory, foldl_append, foldl_cons, foldl_nil, ← memory, ih hsplit,
        step_collecting]
      split
      · rfl
      · split <;> rfl
  intro before visit after hsplit
  have hexit : "Program:exit" ∉ kinds := fun hmem =>
    (disjoint_of_nodup_append h) hmem (mem_singleton.mpr rfl)
  rw [hmemory hsplit, step_collecting]
  change _ = rule.check document visit
  rw [hcheck, onLeave_eq]
  by_cases hkey : visit.key = "Program:exit"
  · obtain rfl := eq_nil_of_key (hvisits.symm.trans hsplit) hkey
    rw [if_pos hkey, if_pos hkey, if_neg (hkey ▸ hexit), hsplit, htell _ _ _ hsplit,
      if_neg (hkey ▸ hexit)]
  · rw [if_neg hkey, if_neg hkey]
    split <;> rfl

/-! ## Labels and variables -/

def noteLabels (_ : List Node) (node : Node) (notes : Notes) : Notes :=
  match node with
  | .statement (.keyword span keyword argument _ _) =>
    let name := labelName argument
    if name.isEmpty then notes
    else if keyword == "label" then
      { notes with labels := notes.labels ++ [(name, span.start)] }
    else if keyword == "goto" && !isExternal name then
      { notes with jumps := notes.jumps ++ [(name, span.start)] }
    else notes
  | _ => notes

theorem noteLabels_eq (visit : Visit) (notes : Notes) (source : String) (tokens : List Token) :
    (if visit.key ∈ ["KeywordStatement"] then noteLabels visit.ancestors visit.node notes
      else notes) =
      { notes with
        labels := notes.labels ++ labels ⟨source, tokens, [visit]⟩
        jumps := notes.jumps ++ jumps ⟨source, tokens, [visit]⟩ } := by
  obtain ⟨phase, node, ancestors, place⟩ := visit
  have hnone : notes = ⟨notes.labels ++ [], notes.jumps ++ [], notes.known⟩ := by
    rw [append_nil, append_nil]
  cases phase <;> rcases node with _ | (⟨span, keyword, argument, _, _⟩ | _ | _ | _ | _) | _ | _ |
    (_ | _ | _ | _ | _ | _ | _ | _ | _ | _) | _ <;> first | exact hnone | skip
  rw [if_pos (by exact mem_singleton.mpr rfl)]
  simp only [noteLabels, labels, jumps, namedStatements, filterMap_cons, filterMap_nil]
  by_cases hempty : (labelName argument).isEmpty = true
  · simp [hempty]
  · by_cases hlabel : keyword = "label"
    · simp [hempty, hlabel]
    · by_cases hgoto : keyword = "goto" <;> by_cases hexternal : isExternal (labelName argument) <;>
        simp [hempty, hlabel, hgoto, hexternal]

/-- The place of an identifier that is a property or names a called function, by what its parent
holds there. -/
def placeBelow : Option Node → Node → Nat
  | some (.expr (.member _ _ property)), .expr (.identifier name) =>
    if name = property then 1 else 0
  | some (.expr (.call _ (.identifier callee) _)), .expr (.identifier name) =>
    if name = callee then 0 else 1
  | some (.expr (.call ..)), _ => 1
  | _, _ => 0

def noteVariables (tokens : List Token) (ancestors : List Node) (node : Node) (notes : Notes) :
    Notes :=
  { notes with
    known := observe tokens notes.known
      ⟨.enter, node, ancestors, placeBelow ancestors.head? node⟩ }

theorem isExempt_placeBelow {root : Node} {P : Position → Prop} {visit : Visit} {name : Name}
    (h : root.Nested P) (hmem : visit ∈ root.tour [] 0) (henter : visit.phase = .enter)
    (hname : visit.node = .expr (.identifier name)) :
    isExempt visit.ancestors.head? (placeBelow visit.ancestors.head? visit.node) =
      isExempt visit.ancestors.head? visit.place := by
  obtain ⟨before, after, hsplit⟩ := append_of_mem hmem
  rcases Node.exists_inward hmem henter with rfl | ⟨outer, houter, hinward⟩
  · rfl
  have hchild := hinward.child
  -- Two equal names stand at one place, since no two identifiers start together.
  have hplace (i : Nat) (heq : outer.node.children[i]? = some (.expr (.identifier name))) :
      visit.place = i := by
    have hother : ⟨.enter, .expr (.identifier name), outer.node :: outer.ancestors, i⟩ ∈
        root.tour [] 0 :=
      Node.mem_tour_of_inward houter ⟨hinward.enters, rfl, heq⟩ rfl
    exact congrArg Visit.place
      (eq_of_start_eq h hsplit henter hname hother rfl rfl (by rw [hname]; rfl)).symm
  rw [hinward.ancestors, head?_cons, hname]
  rw [hname] at hchild
  generalize visit.place = place at hchild hplace
  cases hnode : outer.node with
  | expr value =>
    rw [hnode] at hchild hplace
    cases value with
    | member span object property =>
      by_cases heq : name = property
      · simp [placeBelow, isExempt, heq, hplace 1 (by rw [heq]; rfl)]
      · have hne : place ≠ 1 := by
          rintro rfl
          cases hchild
          exact heq rfl
        simp [placeBelow, isExempt, heq, hne]
    | call span callee arguments =>
      by_cases heq : callee = .identifier name
      · simp [placeBelow, isExempt, heq, hplace 0 (by rw [heq]; rfl)]
      · have hne : place ≠ 0 := by
          rintro rfl
          cases hchild
          exact heq rfl
        have hbelow : placeBelow (some (.expr (.call span callee arguments)))
            (.expr (.identifier name)) = 1 := by
          cases callee with
          | identifier other =>
            exact if_neg fun hsame : name = other => heq (hsame ▸ rfl)
          | _ => rfl
        simp [hbelow, isExempt, hne]
    | _ => rfl
  | _ => rfl

theorem observe_placeBelow {root : Node} {P : Position → Prop} {visit : Visit} (h : root.Nested P)
    (hmem : visit ∈ root.tour [] 0) (known : Variables) :
    observe tokens known visit = observe tokens known
      { visit with place := placeBelow visit.ancestors.head? visit.node } := by
  unfold observe
  split
  case h_5 henter hname =>
    have hexempt := isExempt_placeBelow h hmem henter hname
    rw [hname] at hexempt
    simp only [henter, hname, hexempt]
  all_goals simp_all only

/-- Every rule as it runs, in the order of the rules. -/
def all (source : String) (tokens : List Token) : List Runner :=
  let reporting := reporting source tokens
  let onLabels := collecting ["KeywordStatement"] noteLabels
  let onVariables := collecting
    ["ExpressionStatement", "KeywordStatement", "SubKeyword", "Identifier"] (noteVariables tokens)
  [reporting "KeywordStatement" validKeyword, reporting "SubKeyword" validSubKeyword,
    reporting "KeywordStatement" requiredSubKeywords,
    reporting "KeywordStatement" noInlineArgument,
    reporting "KeywordStatement" purchaseConstraints, reporting "KeywordStatement" gotoNeedsReset,
    onLabels noInvalidGoto (fun notes =>
      (unmatched notes.jumps notes.labels).map fun (name, position) =>
        .ofPosition position s!"*goto target '{name}' is not defined") (by decide),
    onLabels noUnusedLabels (fun notes =>
      (unmatched notes.labels notes.jumps).map fun (name, position) =>
        .ofPosition position s!"Label '{name}' is defined but never used by a *goto") (by decide),
    reporting "Program" indentStyle, reporting "Program" noUnclosedString,
    reporting "Program" noUnclosedBracket,
    onVariables noUndefinedVars (fun notes =>
      (notes.known.reads.filter fun use => !builtinNames.contains use.name &&
        !usesName notes.known.definitions use.name).map fun use =>
          .ofPosition use.position s!"Variable '{use.name}' is used but never defined") (by decide),
    onVariables noUnusedVars (fun notes =>
      ((firstUses notes.known.definitions).filter fun use =>
        !usesName notes.known.reads use.name).map fun use =>
          .ofPosition use.position s!"Variable '{use.name}' is defined but never used")
      (by decide)]

theorem simulates_onLabels {rule : Rule}
    (hcheck : rule.check = onLeave fun document =>
      summary { labels := labels document, jumps := jumps document }) :
    (collecting ["KeywordStatement"] noteLabels rule summary (by decide)).Simulates
      ⟨source, tokens, (Node.program program).tour [] 0⟩ := by
  let tell (visits : List Visit) : Notes :=
    { labels := labels ⟨source, tokens, visits⟩, jumps := jumps ⟨source, tokens, visits⟩ }
  refine @simulates_collecting _ _ _ _ _ _ _ tell rfl (by rw [hcheck]; rfl) rfl
    fun before visit after _ => ?_
  rw [noteLabels_eq visit _ source tokens]
  simp only [tell, labels, jumps, namedStatements, filterMap_append, filter_append]

theorem simulates_onVariables {rule : Rule} {P : Position → Prop}
    (h : (Node.program program).Nested P)
    (hcheck : rule.check = onLeave fun document => summary { known := variablesOf document }) :
    (collecting ["ExpressionStatement", "KeywordStatement", "SubKeyword", "Identifier"]
      (noteVariables tokens) rule summary (by decide)).Simulates
        ⟨source, tokens, (Node.program program).tour [] 0⟩ := by
  let tell (visits : List Visit) : Notes := { known := visits.foldl (observe tokens) {} }
  refine @simulates_collecting _ _ _ _ _ _ _ tell rfl (by rw [hcheck]; rfl) rfl
    fun before visit after hsplit => ?_
  have hmem : visit ∈ (Node.program program).tour [] 0 := by
    rw [show (Node.program program).tour [] 0 = _ from hsplit]
    exact mem_append_right _ mem_cons_self
  simp only [tell, foldl_append, foldl_cons, foldl_nil]
  rw [observe_placeBelow h hmem]
  obtain ⟨phase, node, ancestors, place⟩ := visit
  cases phase <;> rcases node with _ | (_ | _ | _ | _ | _) | _ | _ |
    (_ | _ | _ | _ | _ | _ | _ | _ | _ | _) | _ <;> rfl

theorem simulates_all {P : Position → Prop} (h : (Node.program program).Nested P) :
    ∀ runner ∈ all source tokens,
      runner.Simulates ⟨source, tokens, (Node.program program).tour [] 0⟩ := by
  simp only [all, forall_mem_cons]
  exact ⟨(waitsFor_onKeyword _).simulates, waitsFor_validSubKeyword.simulates,
    (waitsFor_onKeyword _).simulates, (waitsFor_onKeyword _).simulates,
    (waitsFor_onKeyword _).simulates, waitsFor_gotoNeedsReset.simulates,
    simulates_onLabels rfl, simulates_onLabels rfl,
    (waitsFor_onEnter fun _ _ _ => rfl).simulates,
    (waitsFor_onEnter fun _ _ _ => rfl).simulates,
    (waitsFor_onEnter fun _ _ _ => rfl).simulates,
    simulates_onVariables h rfl, simulates_onVariables h rfl, by simp⟩

end

end Runner

/-! ## The walk of a document -/

namespace Lint

/-- The messages that all rules at work leave in one walk, by line and column. -/
def walked (settings : Settings) (source : String) : Except Numeral.Error (List Message) := do
  let tokens := Token.ofSource source
  let (program, _) ← Program.ofTokens tokens
  let table := Runner.table settings (Runner.all source tokens)
  let walker := (Node.program program).traverse table ⟨[], {}⟩
  return walker.state.messages.mergeSort Message.precedes

/-- The rules with their notes, called back in one walk, say what they say step by step about the
whole document. -/
theorem walked_eq_messages (settings : Settings) (source : String) :
    walked settings source = messages settings source := by
  rw [messages_eq, walked, document]
  cases hread : Program.ofTokens (Token.ofSource source) with
  | error e => rfl
  | ok result =>
    obtain ⟨program, faults⟩ := result
    obtain ⟨items, stop, hreading⟩ := Program.reading_ofSource hread
    have hrules : (Runner.all source (Token.ofSource source)).map Runner.rule = Rule.all := rfl
    have hnames : ((Runner.all source (Token.ofSource source)).map (·.rule.name)).Nodup := by
      have hnodup : (Rule.all.map Rule.name).Nodup := by decide
      rwa [← hrules, map_map] at hnodup
    have hwalk := (@Runner.foldl_answer _ settings
      ⟨source, Token.ofSource source, (Node.program program).tour [] 0⟩ hnames
      (Runner.simulates_all hreading.nested) _ [] (append_nil _).symm).1
    refine congrArg Except.ok ?_
    rw [Node.traverse_eq_tour _ _ _ 0, messagesOn]
    dsimp only at hwalk ⊢
    rw [hwalk, hrules]
    rfl

/-- Rules do not disturb one another in their walk. The messages on a source are in the order of
their places and add up; under any other settings there are messages too, those of a rule of the
same severity are the same, and where the settings differ in one rule only, they differ in how
serious its messages are, or in that they are left out. -/
theorem messages_independent {settings : Settings} {source : String} {found : List Message}
    (h : messages settings source = .ok found) :
    walked settings source = .ok found ∧
      (found.Pairwise fun a b => a.report.line < b.report.line ∨
        a.report.line = b.report.line ∧ a.report.column ≤ b.report.column) ∧
      count .error found + count .warning found = found.length ∧
      (∀ severity, fixableCount severity found =
        ((found.filter (·.severity = severity)).filter (·.report.fix.isSome)).length) ∧
      ∀ settings', ∃ found', messages settings' source = .ok found' ∧
        walked settings' source = .ok found' ∧ ∀ rule ∈ Rule.all,
        (severityOf settings' rule = severityOf settings rule →
          ofRule rule found' = ofRule rule found) ∧
        (AgreeExcept rule settings settings' →
          (∀ severity, severityOf settings rule ≠ none →
            severityOf settings' rule = some severity → found' = graded rule severity found) ∧
          (severityOf settings' rule = none → found' = exceptRule rule found)) := by
  rw [messages_eq] at h
  cases hdocument : document source with
  | error e =>
    rw [hdocument] at h
    cases h
  | ok document =>
    rw [hdocument] at h
    obtain rfl : messagesOn settings document = found := Except.ok.inj h
    have hmessages (settings : Settings) :
        messages settings source = .ok (messagesOn settings document) := by
      rw [messages_eq, hdocument]
      rfl
    refine ⟨(walked_eq_messages _ _).trans (hmessages _), pairwise_messagesOn settings document,
      count_add_count _, fun severity => fixableCount_eq severity _, fun settings' =>
        ⟨_, hmessages _, (walked_eq_messages _ _).trans (hmessages _), fun rule hrule => ?_⟩⟩
    refine ⟨fun hsame => ofRule_messagesOn hrule hsame document, fun hagree =>
      ⟨fun severity hon hsome => messagesOn_graded hrule hon hsome hagree document, fun hoff =>
        messagesOn_off hrule hoff hagree document⟩⟩

/-- Three rules speak; one of them is made a warning, or is turned off. -/
theorem messages_independent_three :
    ∃ found, messages [] "*foo\n  >> a" = .ok found ∧
      found.map (·.rule) = ["valid-keyword", "indent-style", "no-undefined-vars"] ∧
      messages [("indent-style", .warn)] "*foo\n  >> a" =
        .ok (graded Rule.indentStyle .warning found) ∧
      messages [("indent-style", .off)] "*foo\n  >> a" =
        .ok (exceptRule Rule.indentStyle found) := by
  obtain ⟨found, hfound, hrules⟩ := exists_ok_of_any (messages [] "*foo\n  >> a")
    (map (·.rule) · == ["valid-keyword", "indent-style", "no-undefined-vars"])
    (by rw [messages_eq_insertion]; decide +kernel)
  have hmem : Rule.indentStyle ∈ Rule.all := by simp [Rule.all]
  have hagree (setting : Setting) :
      AgreeExcept Rule.indentStyle [] [("indent-style", setting)] := by
    intro other _ hname
    have hother : (other.name == "indent-style") = false := beq_false_of_ne hname
    rw [severityOf, lookup_cons, hother]
    rfl
  obtain ⟨warned, hwarned, -, hchanged⟩ :=
    (messages_independent hfound).2.2.2.2 [("indent-style", .warn)]
  obtain ⟨silent, hsilent, -, hremoved⟩ :=
    (messages_independent hfound).2.2.2.2 [("indent-style", .off)]
  refine ⟨found, hfound, eq_of_beq hrules, ?_, ?_⟩
  · rw [hwarned, ((hchanged _ hmem).2 (hagree .warn)).1 .warning (by decide) (by decide)]
  · rw [hsilent, ((hremoved _ hmem).2 (hagree .off)).2 (by decide)]

end Lint
end GuidedTrack
