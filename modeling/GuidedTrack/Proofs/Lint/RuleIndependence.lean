import GuidedTrack.Proofs.Lint.FixableMessages

/-! # Rules that leave one another alone

All rules are asked along one tour and their messages are sorted together. What one of them says
depends on its own setting only, and its setting decides about nothing but how serious its messages
are and whether they are listed.
-/

namespace GuidedTrack

open List Rule

namespace Lint

/-! ## What one rule says -/

variable {settings settings' : Settings} {rule : Rule}

def ofRule (rule : Rule) (messages : List Message) : List Message :=
  messages.filter fun message => message.rule == rule.name

def exceptRule (rule : Rule) (messages : List Message) : List Message :=
  messages.filter fun message => message.rule != rule.name

def graded (rule : Rule) (severity : Severity) (messages : List Message) : List Message :=
  messages.map fun message =>
    if message.rule == rule.name then { message with severity } else message

def messagesOn (settings : Settings) (document : Document) : List Message :=
  (document.visits.flatMap (messagesAt settings document)).mergeSort Message.precedes

theorem messages_eq (settings : Settings) (source : String) :
    messages settings source = (document source).map (messagesOn settings) := by
  rw [messages]
  cases document source <;> rfl

theorem exists_program_of_messages {settings : Settings} {source : String} {found : List Message}
    (h : messages settings source = .ok found) :
    ∃ program faults, Program.ofSource source = .ok (program, faults) ∧ found =
      messagesOn settings ⟨source, Token.ofSource source, (Node.program program).tour [] 0⟩ := by
  rw [messages_eq, document] at h
  cases hread : Program.ofTokens (Token.ofSource source) with
  | error error =>
    rw [hread] at h
    cases h
  | ok result =>
    rw [hread] at h
    exact ⟨result.1, result.2, hread, (Except.ok.inj h).symm⟩

def messagesOf (settings : Settings) (document : Document) (visit : Visit) (rule : Rule) :
    List Message :=
  match severityOf settings rule with
  | none => []
  | some severity => (rule.check document visit).map (⟨rule.name, severity, ·⟩)

theorem messagesAt_eq (settings : Settings) (document : Document) (visit : Visit) :
    messagesAt settings document visit =
      all.flatMap (messagesOf settings document visit) :=
  rfl

theorem rule_of_mem_messagesOf {document : Document} {visit : Visit} {message : Message}
    (h : message ∈ messagesOf settings document visit rule) : message.rule = rule.name := by
  unfold messagesOf at h
  split at h
  · cases h
  · obtain ⟨report, -, rfl⟩ := mem_map.mp h
    rfl

theorem eq_of_name_eq {other : Rule} (hother : other ∈ Rule.all) (hrule : rule ∈ Rule.all)
    (h : other.name = rule.name) : other = rule := by
  have hnodup : (all.map name).Nodup := by decide
  exact inj_on_of_nodup_map hnodup hother hrule h

theorem filter_messagesAt (settings : Settings) (document : Document) (visit : Visit)
    (pick : String → Bool) :
    (messagesAt settings document visit).filter (fun message => pick message.rule) =
      all.flatMap fun rule =>
        if pick rule.name then messagesOf settings document visit rule else [] := by
  rw [messagesAt_eq, filter_flatMap]
  refine flatMap_congr fun rule _ => ?_
  split
  · rename_i hpick
    exact filter_eq_self.mpr fun message hmessage => by
      rw [rule_of_mem_messagesOf hmessage, hpick]
  · rename_i hpick
    exact filter_eq_nil_iff.mpr fun message hmessage => by
      rwa [rule_of_mem_messagesOf hmessage]

theorem filter_messagesOn (settings : Settings) (document : Document) (pick : String → Bool) :
    (messagesOn settings document).filter (fun message => pick message.rule) =
      (document.visits.flatMap fun visit => all.flatMap fun rule =>
        if pick rule.name then messagesOf settings document visit rule else []).mergeSort
          Message.precedes := by
  rw [messagesOn, filter_mergeSort precedes_trans precedes_total, filter_flatMap]
  simp only [filter_messagesAt]

theorem filter_all (hrule : rule ∈ Rule.all) : Rule.all.filter (·.name == rule.name) = [rule] := by
  have hall : ∀ rule ∈ Rule.all, Rule.all.filter (·.name == rule.name) = [rule] := by
    simp only [Rule.all, forall_mem_cons]
    exact ⟨rfl, rfl, rfl, rfl, rfl, rfl, rfl, rfl, rfl, rfl, rfl, rfl, rfl, by simp⟩
  exact hall rule hrule

/-- The messages of one rule are what it reports along the tour. -/
theorem perm_ofRule (hrule : rule ∈ Rule.all) {severity : Severity}
    (hon : severityOf settings rule = some severity) (document : Document) :
    (ofRule rule (messagesOn settings document)).Perm
      ((document.visits.flatMap (rule.check document)).map (⟨rule.name, severity, ·⟩)) := by
  have hpick (rules : List Rule) (f : Rule → List Message) :
      (rules.flatMap fun other => if other.name == rule.name then f other else []) =
        (rules.filter (·.name == rule.name)).flatMap f := by
    induction rules with
    | nil => rfl
    | cons other rules ih =>
      rw [flatMap_cons, ih, filter_cons]
      split <;> rfl
  rw [ofRule, filter_messagesOn settings document fun name => name == rule.name, map_flatMap]
  refine (mergeSort_perm _ _).trans (.of_eq (flatMap_congr fun visit _ => ?_))
  rw [hpick, filter_all hrule, flatMap_singleton, messagesOf, hon]

/-- The messages of a rule that runs once, when the tour of a program ends. -/
theorem perm_onLeave {check : Document → List Report} (hcheck : rule.check = onLeave check)
    (hrule : rule ∈ Rule.all) {severity : Severity} (hon : severityOf settings rule = some severity)
    (source : String) (tokens : List Token) (program : Program) :
    let document : Document := ⟨source, tokens, (Node.program program).tour [] 0⟩
    (ofRule rule (messagesOn settings document)).Perm
      ((check document).map (⟨rule.name, severity, ·⟩)) := by
  intro document
  have hperm := perm_ofRule hrule hon document
  rwa [hcheck, flatMap_onLeave check document program] at hperm

/-! ## Two settings -/

def AgreeExcept (rule : Rule) (settings settings' : Settings) : Prop :=
  ∀ other ∈ Rule.all, other.name ≠ rule.name →
    severityOf settings' other = severityOf settings other

theorem messagesOf_congr {other : Rule} (h : severityOf settings' other = severityOf settings other)
    (document : Document) (visit : Visit) :
    messagesOf settings' document visit other = messagesOf settings document visit other := by
  rw [messagesOf, messagesOf, h]

theorem ofRule_messagesOn (hrule : rule ∈ Rule.all)
    (h : severityOf settings' rule = severityOf settings rule) (document : Document) :
    ofRule rule (messagesOn settings' document) = ofRule rule (messagesOn settings document) := by
  have hpick := fun settings => filter_messagesOn settings document fun name => name == rule.name
  rw [ofRule, ofRule, hpick, hpick]
  refine congrArg (mergeSort · _) (flatMap_congr fun visit _ => ?_)
  refine flatMap_congr fun other hother => ?_
  split
  · rename_i hname
    obtain rfl := eq_of_name_eq hother hrule (eq_of_beq hname)
    exact messagesOf_congr h document visit
  · rfl

theorem messagesOf_graded (hrule : rule ∈ Rule.all) {severity : Severity}
    (hon : severityOf settings rule ≠ none) (hsome : severityOf settings' rule = some severity)
    (hagree : AgreeExcept rule settings settings') (document : Document) (visit : Visit)
    {other : Rule} (hother : other ∈ Rule.all) :
    messagesOf settings' document visit other =
      graded rule severity (messagesOf settings document visit other) := by
  by_cases hname : other.name = rule.name
  · obtain rfl := eq_of_name_eq hother hrule hname
    obtain ⟨before, hbefore⟩ := Option.ne_none_iff_exists'.mp hon
    rw [messagesOf, messagesOf, hsome, hbefore]
    simp [graded]
  · rw [messagesOf_congr (hagree other hother hname), graded]
    refine (map_id _).symm.trans (map_congr_left fun message hmessage => ?_)
    rw [rule_of_mem_messagesOf hmessage, if_neg (by simpa using hname), id]

theorem messagesOn_graded (hrule : rule ∈ Rule.all) {severity : Severity}
    (hon : severityOf settings rule ≠ none) (hsome : severityOf settings' rule = some severity)
    (hagree : AgreeExcept rule settings settings') (document : Document) :
    messagesOn settings' document = graded rule severity (messagesOn settings document) := by
  have hprecedes (a b : Message) : a.precedes b =
      Message.precedes (if a.rule == rule.name then { a with severity } else a)
        (if b.rule == rule.name then { b with severity } else b) := by
    split <;> split <;> rfl
  rw [messagesOn, messagesOn, graded, map_mergeSort fun a _ b _ => hprecedes a b,
    map_flatMap]
  refine congrArg (mergeSort · _) (flatMap_congr fun visit _ => ?_)
  rw [messagesAt_eq, messagesAt_eq, map_flatMap]
  exact flatMap_congr fun other hother =>
    messagesOf_graded hrule hon hsome hagree document visit hother

theorem messagesOn_off (hrule : rule ∈ Rule.all) (hoff : severityOf settings' rule = none)
    (hagree : AgreeExcept rule settings settings') (document : Document) :
    messagesOn settings' document = exceptRule rule (messagesOn settings document) := by
  rw [exceptRule, filter_messagesOn settings document fun name => name != rule.name, messagesOn]
  refine congrArg (mergeSort · _) (flatMap_congr fun visit _ => ?_)
  rw [messagesAt_eq]
  refine flatMap_congr fun other hother => ?_
  by_cases hname : other.name = rule.name
  · obtain rfl := eq_of_name_eq hother hrule hname
    rw [messagesOf, hoff, if_neg (by simp)]
  · rw [if_pos (by simpa using hname)]
    exact messagesOf_congr (hagree other hother hname) document visit

/-! ## Order and counts -/

theorem pairwise_messagesOn (settings : Settings) (document : Document) :
    (messagesOn settings document).Pairwise fun a b => a.report.line < b.report.line ∨
      a.report.line = b.report.line ∧ a.report.column ≤ b.report.column := by
  refine (pairwise_mergeSort precedes_trans precedes_total _).imp fun {a b} h => ?_
  simpa [Message.precedes] using h

theorem count_add_count (found : List Message) :
    count .error found + count .warning found = found.length := by
  rw [length_eq_countP_add_countP (fun message : Message => message.severity = .error), count,
    count]
  congr 1
  refine countP_congr fun message _ => ?_
  cases message.severity <;> simp

theorem fixableCount_eq (severity : Severity) (found : List Message) :
    fixableCount severity found =
      ((found.filter (·.severity = severity)).filter (·.report.fix.isSome)).length := by
  rw [fixableCount, filter_filter, countP_eq_length_filter]
  simp only [Bool.and_comm]

end Lint
end GuidedTrack
