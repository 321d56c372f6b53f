import GuidedTrack.Proofs.Lint.FixPass
import GuidedTrack.Proofs.Node.SpanNesting

/-! # The messages that carry a fix

Of all rules only those on lines offer fixes, and a tour enters a program once. Sorted by their
places, the messages on a source list its fixes in the order in which they are applied.
-/

namespace GuidedTrack

open List GuidedTrack.Configuration Rule

variable {reports : List Report} {settings : Settings}

/-! ## Entering a program -/

namespace Node

def isProgram : Node → Bool
  | .program _ => true
  | _ => false

theorem isProgram_of_mem_children {node child : Node} (h : child ∈ node.children) :
    child.isProgram = false := by
  have hwithin (h : child.isWithinLine = true) : child.isProgram = false := by
    cases child <;> first | rfl | cases h
  have hargument {argument : Option Argument} (h : child ∈ argument.toList.map ofArgument) :=
    hwithin (isWithinLine_of_mem_argument argument child h)
  have hmap {α : Type} {f : α → Node} {items : List α} (hf : ∀ item, (f item).isProgram = false)
      (h : child ∈ items.map f) : child.isProgram = false := by
    obtain ⟨item, -, rfl⟩ := mem_map.mp h
    exact hf item
  by_cases hnode : node.isWithinLine = true
  · exact hwithin (isWithinLine_of_isCode (isCode_children hnode h))
  replace h := (children_perm_held node).mem_iff.mp h
  cases node with
  | program value => exact hmap (fun _ => rfl) h
  | statement value =>
    cases value with
    | keyword span name argument subKeywords body =>
      simp only [held, mem_append] at h
      rcases h with (h | h) | h
      · exact hargument h
      · exact hmap (fun _ => rfl) h
      · exact hmap (fun _ => rfl) h
    | answer span text body =>
      rcases mem_cons.mp h with rfl | h
      · rfl
      · exact hmap (fun _ => rfl) h
    | prose text => exact hwithin (isWithinLine_of_isCode (isCode_of_mem_ofParts h))
    | expression span value => rw [mem_singleton.mp h]; rfl
    | comment => cases h
  | subKeyword value =>
    cases value
    rcases mem_append.mp h with h | h
    · exact hargument h
    · exact hmap (fun _ => rfl) h
  | _ => exact absurd rfl hnode

theorem isProgram_of_mem_walk {node inner : Node} (h : inner ∈ node.children.flatMap walk) :
    inner.isProgram = false := by
  obtain ⟨child, hchild, hinner⟩ := mem_flatMap.mp h
  exact forall_mem_walk_of_children (Q := fun node => node.isProgram = false)
    (fun _ hchild => isProgram_of_mem_children hchild)
    (isProgram_of_mem_children hchild) inner hinner

end Node

/-- What is gathered at programs only is gathered at the ends of a tour. -/
theorem flatMap_tour_program {α : Type} {f : Visit → List α}
    (hf : ∀ visit, visit.node.isProgram = false → f visit = []) (program : Program) :
    ((Node.program program).tour [] 0).flatMap f =
      f ⟨.enter, .program program, [], 0⟩ ++ f ⟨.leave, .program program, [], 0⟩ := by
  have hinner : ((Node.program program).children.zipIdx.flatMap fun child =>
      child.1.tour [.program program] child.2).flatMap f = [] := by
    refine flatMap_eq_nil_iff.mpr fun visit hvisit => hf visit ?_
    obtain ⟨child, hchild, hvisit⟩ := mem_flatMap.mp hvisit
    exact Node.isProgram_of_mem_walk (mem_flatMap.mpr
      ⟨child.1, fst_mem_of_mem_zipIdx hchild, Node.mem_walk_of_mem_tour hvisit⟩)
  rw [Node.tour_eq, flatMap_append, flatMap_cons, hinner, append_nil, flatMap_singleton]

def Visit.entersProgram (visit : Visit) : Bool :=
  visit.entered?.any Node.isProgram

theorem flatMap_entersProgram {α : Type} (program : Program) (found : List α) :
    ((Node.program program).tour [] 0).flatMap (fun visit =>
      if visit.entersProgram then found else []) = found := by
  refine (flatMap_tour_program (fun visit hvisit => if_neg ?_) program).trans (append_nil _)
  obtain ⟨phase, node, ancestors, place⟩ := visit
  cases phase <;> simp_all [Visit.entersProgram, Visit.entered?]

/-! ## Rules with and without fixes -/

namespace Rule

theorem fixable_eq_nil (h : ∀ report ∈ reports, report.fix = none) :
    fixable reports = [] :=
  filter_eq_nil_iff.mpr fun report hreport => by simp [h report hreport]

theorem fixable_eq_self (h : ∀ report ∈ reports, report.fix.isSome = true) :
    fixable reports = reports :=
  filter_eq_self.mpr h

theorem fixable_flatMap {α : Type} (items : List α) (f : α → List Report) :
    fixable (items.flatMap f) = items.flatMap fun item => fixable (f item) :=
  filter_flatMap

theorem fixable_map_ofPosition (position : Position) (texts : List String) :
    fixable (texts.map (.ofPosition position)) = [] := by
  refine fixable_eq_nil fun report hreport => ?_
  obtain ⟨text, -, rfl⟩ := mem_map.mp hreport
  rfl

theorem onEnter_eq (check : Document → List Report) (document : Document) (visit : Visit) :
    onEnter check document visit = if visit.entersProgram then check document else [] := by
  obtain ⟨phase, node, ancestors, place⟩ := visit
  cases phase
  · cases node <;> rfl
  · rfl

theorem flatMap_onLeave (check : Document → List Report) (document : Document) (program : Program) :
    ((Node.program program).tour [] 0).flatMap (onLeave check document) = check document := by
  refine (flatMap_tour_program (fun visit hvisit => ?_) program).trans (nil_append _)
  obtain ⟨phase, node, ancestors, place⟩ := visit
  cases phase <;> cases node <;> first | rfl | cases hvisit

theorem fixable_onKeyword (check : String → Option Argument → List String → List String)
    (document : Document) (visit : Visit) : fixable (onKeyword check document visit) = [] := by
  unfold onKeyword
  split
  · exact fixable_map_ofPosition _ _
  · rfl

theorem fixable_onLeave {check : Document → List Report} {document : Document}
    (h : ∀ report ∈ check document, report.fix = none) (visit : Visit) :
    fixable (onLeave check document visit) = [] := by
  unfold onLeave
  split
  · exact fixable_eq_nil h
  · rfl

theorem fixable_spaceIndents (number offset : Nat) (lines : List Source.Line) :
    fixable (spaceIndents number offset lines) = spaceIndents number offset lines := by
  induction lines generalizing number offset with
  | nil => rfl
  | cons line lines ih =>
    rw [spaceIndents, fixable_append, ih]
    split <;> rfl

theorem fixable_unclosedStrings (tokens : List Token) :
    fixable (tokens.filterMap unclosedString?) = tokens.filterMap unclosedString? := by
  refine fixable_eq_self fun report hreport => ?_
  obtain ⟨token, -, htoken⟩ := mem_filterMap.mp hreport
  unfold unclosedString? at htoken
  split at htoken
  · split at htoken
    · cases htoken
      rfl
    · cases htoken
  · cases htoken

def plain : List Rule :=
  [validKeyword, validSubKeyword, requiredSubKeywords, noInlineArgument, purchaseConstraints,
    gotoNeedsReset, noInvalidGoto, noUnusedLabels, noUndefinedVars, noUnusedVars]

theorem fixable_plain (document : Document) (visit : Visit) :
    ∀ rule ∈ plain, fixable (rule.check document visit) = [] := by
  simp only [plain, forall_mem_cons, validKeyword, requiredSubKeywords, noInlineArgument,
    purchaseConstraints, fixable_onKeyword, true_and, noInvalidGoto, noUnusedLabels,
    noUndefinedVars, noUnusedVars]
  refine ⟨?_, ?_, fixable_onLeave ?_ visit, fixable_onLeave ?_ visit, fixable_onLeave ?_ visit,
    fixable_onLeave ?_ visit, by simp⟩
  · dsimp only [validSubKeyword]
    split
    · exact fixable_map_ofPosition _ _
    · rfl
  · dsimp only [gotoNeedsReset]
    split
    · split <;> rfl
    · rfl
  all_goals
    intro report hreport
    obtain ⟨item, -, rfl⟩ := mem_map.mp hreport
    rfl

/-- The fixes are on lines, and are made when a program is entered. -/
theorem fixable_all (document : Document) (visit : Visit) :
    fixable (all.flatMap fun rule => rule.check document visit) =
      if visit.entersProgram then
        Lint.lineReports 1 0 0 (Source.lines document.source.toList) document.tokens
      else [] := by
  have hplain := fixable_plain document visit
  simp only [plain, forall_mem_cons] at hplain
  rw [fixable_flatMap]
  simp only [all, flatMap_cons, flatMap_nil, hplain, nil_append, append_nil]
  simp only [indentStyle, noUnclosedString, noUnclosedBracket, onEnter_eq]
  split
  · rw [fixable_spaceIndents, fixable_unclosedStrings, Lint.lineReports, append_assoc]
  · rfl

end Rule

namespace Lint

/-! ## Sorting -/

theorem severityOf_standard {rule : Rule} (h : rule ∈ Rule.all) :
    (severityOf standard.rules rule).isSome = true := by
  have hall : (all.all fun rule =>
      (severityOf standard.rules rule).isSome) = true := by decide
  exact all_eq_true.mp hall rule h

theorem map_report_messagesAt (document : Document) (visit : Visit) :
    (messagesAt standard.rules document visit).map (·.report) =
      all.flatMap fun rule => rule.check document visit := by
  rw [messagesAt, map_flatMap]
  refine flatMap_congr fun rule hrule => ?_
  obtain ⟨severity, hseverity⟩ := Option.isSome_iff_exists.mp (severityOf_standard hrule)
  rw [hseverity, map_map]
  exact map_id _

theorem precedes_iff (a b : Message) :
    a.precedes b = true ↔ a.report.line < b.report.line ∨
      a.report.line = b.report.line ∧ a.report.column ≤ b.report.column := by
  simp only [Message.precedes, Bool.or_eq_true, Bool.and_eq_true, decide_eq_true_eq, beq_iff_eq]

theorem not_before_of_precedes {a b : Message} (h : a.precedes b = true) :
    ¬ Before b.report a.report := by
  rw [precedes_iff] at h
  unfold Before
  omega

theorem precedes_trans (a b c : Message) (hab : a.precedes b = true) (hbc : b.precedes c = true) :
    a.precedes c = true := by
  rw [precedes_iff] at hab hbc ⊢
  omega

theorem precedes_total (a b : Message) : (a.precedes b || b.precedes a) = true := by
  rw [Bool.or_eq_true, precedes_iff, precedes_iff]
  omega

theorem messages_eq_insertion (settings : Settings) (source : String) :
    messages settings source = (document source).map fun document =>
      (document.visits.flatMap (messagesAt settings document)).insertionSort (·.precedes ·) := by
  simp only [messages, mergeSort_eq_insertion precedes_trans precedes_total]
  cases document source <;> rfl

theorem eq_of_ordered {sorted : List Report} (hsorted : sorted.Pairwise fun a b => ¬ Before b a)
    (hordered : reports.Pairwise Before) (hperm : sorted.Perm reports) : sorted = reports := by
  have hapart : reports.Pairwise fun a b => Before a b ∨ Before b a := hordered.imp .inl
  refine Perm.eq_of_pairwise ?_ hsorted (hordered.imp ?_) hperm
  · intro a b ha hb hab hba
    -- of two reports in a strict order, one stands before the other
    have : Std.Symm fun a b : Report => Before a b ∨ Before b a := ⟨fun _ _ => Or.symm⟩
    refine of_not_not fun hne => ?_
    exact (hapart.forall (hperm.mem_iff.mp ha) hb hne).elim hba hab
  · intro a b hab hba
    unfold Before at hab hba
    omega

/-! ## What a pass of fixing does -/

theorem filterMap_fixable (reports : List Report) :
    (fixable reports).filterMap (·.fix) = reports.filterMap (·.fix) := by
  rw [fixable, filterMap_filter]
  refine filterMap_congr fun report _ => ?_
  cases report.fix <;> rfl

section

variable {source : String} {found : List Message}

/-- The messages on a source are what the rules in force report along the tour of its program, in
the order of their places. -/
theorem exists_tour (h : messages settings source = .ok found) :
    ∃ program, let tour := (Node.program program).tour [] 0
      (found.map (·.report)).Perm (tour.flatMap fun visit =>
        (messagesAt settings ⟨source, Token.ofSource source, tour⟩ visit).map (·.report)) ∧
      found.Pairwise fun a b => a.precedes b = true := by
  unfold messages document at h
  dsimp only at h
  cases hprogram : Program.ofTokens (Token.ofSource source) with
  | error e =>
    rw [hprogram] at h
    cases h
  | ok result =>
    rw [hprogram] at h
    cases h
    refine ⟨result.1, ?_, pairwise_mergeSort precedes_trans precedes_total _⟩
    refine ((mergeSort_perm _ _).map _).trans ?_
    rw [map_flatMap]

theorem exists_of_messages (h : messages standard.rules source = .ok found) :
    ∃ program, let tour := (Node.program program).tour [] 0
      (found.map (·.report)).Perm (tour.flatMap fun visit =>
        all.flatMap fun rule => rule.check ⟨source, Token.ofSource source, tour⟩ visit) ∧
      found.Pairwise fun a b => a.precedes b = true := by
  obtain ⟨program, hperm, hsorted⟩ := exists_tour h
  simp only [map_report_messagesAt] at hperm
  exact ⟨program, hperm, hsorted⟩

theorem fixable_messages (h : messages standard.rules source = .ok found) :
    (fixable (found.map (·.report))).Perm
      (lineReports 1 0 0 (Source.lines source.toList) (Token.ofSource source)) := by
  obtain ⟨program, hperm, -⟩ := exists_of_messages h
  refine (hperm.filter _).trans (.of_eq ?_)
  rw [← fixable, fixable_flatMap]
  simp only [fixable_all]
  exact flatMap_entersProgram program _

theorem mem_of_bracketReports (h : messages standard.rules source = .ok found)
    {report : Report} (hreport : report ∈ bracketReports [] 0 (Token.ofSource source)) :
    report ∈ found.map (·.report) := by
  obtain ⟨program, hperm, -⟩ := exists_of_messages h
  refine hperm.mem_iff.mpr (mem_flatMap.mpr ⟨⟨.enter, .program program, [], 0⟩, ?_, ?_⟩)
  · rw [Node.tour]
    exact mem_cons_self
  · exact mem_flatMap.mpr ⟨Rule.noUnclosedBracket, by simp [Rule.all], hreport⟩

theorem fixes_messages (h : messages standard.rules source = .ok found)
    (hordered : reports.Pairwise Before) (hreports :
      (lineReports 1 0 0 (Source.lines source.toList) (Token.ofSource source)).Perm reports) :
    fixes found = reports.filterMap (·.fix) := by
  obtain ⟨-, -, hsorted⟩ := exists_of_messages h
  have hpairwise : (fixable (found.map (·.report))).Pairwise fun a b => ¬ Before b a :=
    (pairwise_map.mpr (hsorted.imp not_before_of_precedes)).filter _
  have hreports := eq_of_ordered hpairwise hordered ((fixable_messages h).trans hreports)
  rw [← hreports, filterMap_fixable, filterMap_map]
  rfl

theorem fixed_of_messages (h : messages settings source = .ok found) :
    fixed settings source = .ok (Fix.applyAll source (fixes found)) := by
  unfold fixed
  rw [h]
  rfl

/-- Reports that rewrite a source say what a pass of fixing does, if its fixes are theirs. -/
theorem fixed_of_rewrites (h : messages settings source = .ok found)
    (hfixes : fixes found = reports.filterMap (·.fix)) {line column : Int} {text : List Char}
    (hrewrites : Rewrites source.toList 0 line column text reports) :
    fixed settings source = .ok (String.ofList text) := by
  rw [fixed_of_messages h, hfixes, Fix.applyAll_of_sorted hrewrites.sorted, ← hrewrites.applied]
  rfl

theorem fixed_of_mended {output : String} {mended : List Source.Line}
    (hmended : Forall₂ MendedLine (Source.lines source.toList) mended)
    (h : fixed standard.rules source = .ok output) :
    output = String.ofList (textOf mended) := by
  obtain ⟨reports, hreported, hperm⟩ := exists_reported_source source
  have hrewrites := hreported.rewrites hmended
  cases hfound : messages standard.rules source with
  | error e =>
    unfold fixed at h
    rw [hfound] at h
    cases h
  | ok found =>
    have hfixes := fixes_messages hfound hrewrites.ordered hperm
    exact Except.ok.inj (h.symm.trans (fixed_of_rewrites hfound hfixes hrewrites))

end

end Lint
end GuidedTrack
