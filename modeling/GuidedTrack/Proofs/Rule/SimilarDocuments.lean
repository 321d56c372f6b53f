import GuidedTrack.Proofs.Layout.LineSteps
import GuidedTrack.Proofs.Node.SimilarTours

/-! # Rules on documents that are alike

Where the tours of two documents take the same steps, but for places, the rules on the tree give the
same reports, but for places. Comments are no concern of any rule, so the steps at them do not
count.
-/

namespace GuidedTrack

open List

/-! ## Text up to the gaps at its end -/

section

open Text

variable {π : Position → Position → Prop} {g : List Char} {parts others : List Part}

theorem Text.trim_append_gaps (core : List Char) (hg : Gaps g) :
    trim (core ++ g) = trim core := by
  have h := Layout.trim_blanks (a := []) core (by simp) fun c hc => isBlank_of_isGap (hg c hc)
  rwa [nil_append] at h

def Part.texts (parts : List Part) : List String :=
  parts.filterMap fun
    | .text value => some value
    | .expr _ => none

theorem Part.LikeProse.head_texts (h : Part.LikeProse π parts others) :
    trim ((texts others).head?.getD "").toList = trim ((texts parts).head?.getD "").toList := by
  induction h with
  | nil => rfl
  | @last core g g' filled gaps gaps' =>
    change trim (String.ofList (core ++ g')).toList = trim (String.ofList (core ++ g)).toList
    rw [String.toList_ofList, String.toList_ofList, trim_append_gaps core gaps,
      trim_append_gaps core gaps']
  | text rest ih => rfl
  | expr first rest ih => exact ih

theorem Part.LikeProse.flatMap_texts (h : Part.LikeProse π parts others) :
    ∃ core g g', (texts parts).flatMap String.toList = core ++ g ∧
      (texts others).flatMap String.toList = core ++ g' ∧ Gaps g ∧
      Gaps g' := by
  induction h with
  | nil => exact ⟨[], [], [], rfl, rfl, by simp, by simp⟩
  | @last core g g' filled gaps gaps' =>
    exact ⟨core, g, g', by simp [texts], by simp [texts], gaps, gaps'⟩
  | @text value parts others rest ih =>
    obtain ⟨core, g, g', hparts, hothers, hg, hg'⟩ := ih
    refine ⟨value.toList ++ core, g, g', ?_, ?_, hg, hg'⟩
    · rw [append_assoc, ← hparts]
      rfl
    · rw [append_assoc, ← hothers]
      rfl
  | expr first rest ih => exact ih

end

namespace Rule

variable {π Q : Position → Position → Prop} {N : Int → Int → Prop} {visit other : Visit}
  {a b : Document} {S : List Report → List Report → Prop}

/-! ## Reports -/

inductive Reported (π : Position → Position → Prop) : Report → Report → Prop where
  | mk {p q : Position} (place : π p q) (text : String) :
      Reported π (.ofPosition p text) (.ofPosition q text)

theorem reported_map {p q : Position} (h : π p q) (texts : List String) :
    Forall₂ (Reported π) (texts.map (.ofPosition p)) (texts.map (.ofPosition q)) := by
  rw [forall₂_map_left_iff, forall₂_map_right_iff]
  exact forall₂_same.mpr fun text _ => .mk h text

theorem forall₂_filter {α : Type} {R : α → α → Prop} {p q : α → Bool}
    (hpq : ∀ a b, R a b → q b = p a) {items others : List α} (h : Forall₂ R items others) :
    Forall₂ R (items.filter p) (others.filter q) :=
  rel_filter (fun a b hab => by simp only [hpq a b hab]) h

/-! ## Single steps -/

theorem onKeyword_twin {check : String → Option Argument → List String → List String}
    (hcheck : ∀ name argument other names, other.isSome = argument.isSome →
      check name other names = check name argument names) (h : visit.Twin π Q N other) :
    Forall₂ (Reported π) (onKeyword check a visit) (onKeyword check b other) := by
  obtain @⟨phase, _, _, _, _, _, _, hnode, -, -⟩ := h
  cases phase with
  | leave => exact .nil
  | enter =>
    cases hnode with
    | keyword place like names loop =>
      have hgiven {argument other : Option Argument} (hlike : Argument.Like π Q argument other) :
          other.isSome = argument.isSome := by
        cases hlike <;> rfl
      simp only [onKeyword, names, hcheck _ _ _ _ (hgiven like)]
      exact reported_map place _
    | _ => exact .nil

theorem onEnter_twin {check : Document → List Report} (hnone : S [] [])
    (hcheck : S (check a) (check b)) (h : visit.Twin π Q N other) :
    S (onEnter check a visit) (onEnter check b other) := by
  obtain @⟨phase, _, _, _, _, _, _, hnode, -, -⟩ := h
  cases phase with
  | leave => exact hnone
  | enter =>
    cases hnode with
    | program => exact hcheck
    | _ => exact hnone

theorem onLeave_twin {check : Document → List Report} (hnone : S [] [])
    (hcheck : S (check a) (check b)) (h : visit.Twin π Q N other) :
    S (onLeave check a visit) (onLeave check b other) := by
  obtain @⟨phase, _, _, _, _, _, _, hnode, -, -⟩ := h
  cases phase with
  | enter => exact hnone
  | leave =>
    cases hnode with
    | program => exact hcheck
    | _ => exact hnone

/-- Only the keyword of the node around a sub-keyword matters. -/
theorem subKeywordFault?_congr {nodes others : List Node}
    (h : others.map keyword? = nodes.map keyword?) (name : String) :
    subKeywordFault? others.head? name = subKeywordFault? nodes.head? name := by
  have hparent (nodes : List Node) : subKeywordFault? nodes.head? name =
      subKeywordFault? ((nodes.map keyword?).head?.join.map fun keyword =>
        .statement (.keyword ⟨.origin, .origin⟩ keyword none [] [])) name := by
    cases nodes with
    | nil => rfl
    | cons node nodes =>
      cases node with
      | statement value => cases value <;> rfl
      | _ => rfl
  rw [hparent others, h, ← hparent nodes]

theorem validSubKeyword_twin (h : visit.Twin π Q N other) :
    Forall₂ (Reported π) (validSubKeyword.check a visit) (validSubKeyword.check b other) := by
  obtain @⟨phase, _, _, _, _, _, _, hnode, hkeywords, -⟩ := h
  cases phase with
  | leave => exact .nil
  | enter =>
    cases hnode with
    | subKeyword place like =>
      simp only [validSubKeyword, subKeywordFault?_congr hkeywords]
      exact reported_map place _
    | _ => exact .nil

theorem anyKeyword_eq (keyword : String) (nodes : List Node) :
    anyKeyword keyword nodes = (nodes.map keyword?).contains (some keyword) := by
  rw [contains_eq_any_beq, any_map, anyKeyword]
  congr 1
  funext node
  cases node with
  | statement value =>
    cases value with
    | keyword span name => exact Bool.beq_comm
    | _ => rfl
  | _ => rfl

theorem gotoNeedsReset_keyword (document : Document) (span : Span) (name : String)
    (argument : Option Argument) (subKeywords : List SubKeyword) (body : List Statement)
    (ancestors : List Node) (place : Nat) :
    gotoNeedsReset.check document
        ⟨.enter, .statement (.keyword span name argument subKeywords body), ancestors, place⟩ =
      (if name = "goto" ∧ anyKeyword "events" ancestors = true ∧
          (subKeywords.map subName).contains "reset" = false then
        ["'*goto:' inside '*events' should have '*reset' to prevent unexpected behavior"]
      else []).map (.ofPosition span.start) := by
  have hresets {resets : SubKeyword → Bool} (h : ∀ sub, resets sub = (subName sub == "reset")) :
      subKeywords.any resets = (subKeywords.map subName).contains "reset" := by
    rw [contains_eq_any_beq, any_map]
    congr 1
    funext sub
    exact (h sub).trans Bool.beq_comm
  dsimp only [gotoNeedsReset]
  by_cases hname : name = "goto"
  · subst hname
    change (if (anyKeyword "events" ancestors && !subKeywords.any _) = true then _ else _) = _
    rw [hresets fun sub => by cases sub; rfl]
    simp only [true_and, Bool.and_eq_true, Bool.not_eq_true']
    split <;> rfl
  · rw [if_neg fun h => hname h.1]
    split
    · rename_i heq
      cases heq
      exact absurd rfl hname
    · rfl

theorem gotoNeedsReset_twin (h : visit.Twin π Q N other) :
    Forall₂ (Reported π) (gotoNeedsReset.check a visit) (gotoNeedsReset.check b other) := by
  obtain @⟨phase, _, _, _, _, _, _, hnode, hkeywords, -⟩ := h
  cases phase with
  | leave => exact .nil
  | enter =>
    cases hnode with
    | keyword place like names loop =>
      rw [gotoNeedsReset_keyword, gotoNeedsReset_keyword, names, anyKeyword_eq, anyKeyword_eq,
        hkeywords]
      exact reported_map place _
    | _ => exact .nil

/-! ## Labels -/

theorem labelName_like {argument other : Option Argument} (h : Argument.Like π Q argument other) :
    labelName other = labelName argument := by
  cases h with
  | none => rfl
  | expr like =>
    cases like with
    | identifier name => exact name.text
    | _ => rfl
  | prose place like => exact congrArg String.ofList like.head_texts

theorem literalText_eq (prose : Prose) :
    literalText prose = Text.trim ((Part.texts prose.parts).flatMap String.toList) := by
  refine congrArg Text.trim ?_
  induction prose.parts with
  | nil => rfl
  | cons part parts ih =>
    rw [flatMap_cons, ih]
    cases part <;> rfl

theorem literalText_like {prose other : Prose} (h : Part.LikeProse π prose.parts other.parts) :
    literalText other = literalText prose := by
  obtain ⟨core, g, g', hparts, hothers, hg, hg'⟩ := h.flatMap_texts
  rw [literalText_eq, literalText_eq, hparts, hothers, Text.trim_append_gaps core hg,
    Text.trim_append_gaps core hg']

def named? (keyword : String) (visit : Visit) : Option (String × Position) :=
  match visit.phase, visit.node with
  | .enter, .statement (.keyword span name argument _ _) =>
    let target := labelName argument
    if name == keyword && !target.isEmpty then some (target, span.start) else none
  | _, _ => none

def SameName (π : Position → Position → Prop) (entry other : String × Position) : Prop :=
  other.1 = entry.1 ∧ π entry.2 other.2

theorem named?_twin (keyword : String) (h : visit.Twin π Q N other) :
    Option.Rel (SameName π) (named? keyword visit) (named? keyword other) := by
  obtain @⟨phase, _, _, _, _, _, _, hnode, -, -⟩ := h
  cases phase with
  | leave => exact .none
  | enter =>
    cases hnode with
    | keyword place like names loop =>
      simp only [named?, labelName_like like]
      split
      · exact .some ⟨rfl, place⟩
      · exact .none
    | _ => exact .none

theorem unmatched_alike {entries entries' rest rest' : List (String × Position)}
    (h : Forall₂ (SameName π) entries entries') (hrest : Forall₂ (SameName π) rest rest') :
    Forall₂ (SameName π) (unmatched entries rest) (unmatched entries' rest') := by
  have hnames : rest'.map Prod.fst = rest.map Prod.fst := by
    induction hrest with
    | nil => rfl
    | cons first _ ih => rw [map_cons, map_cons, ih, first.1]
  refine forall₂_filter (fun entry other hsame => ?_) h
  rw [hnames, hsame.1]

theorem reported_named {entries entries' : List (String × Position)}
    (h : Forall₂ (SameName π) entries entries') (text : String → String) :
    Forall₂ (Reported π) (entries.map fun entry => .ofPosition entry.2 (text entry.1))
      (entries'.map fun entry => .ofPosition entry.2 (text entry.1)) := by
  rw [forall₂_map_left_iff, forall₂_map_right_iff]
  refine h.imp fun entry other hsame => ?_
  rw [hsame.1]
  exact .mk hsame.2 _

/-! ## Variables -/

structure Use.Alike (π : Position → Position → Prop) (a b : Use) : Prop where
  name : b.name = a.name
  place : π a.position b.position

theorem names_alike {uses uses' : List Use} (h : Forall₂ (Use.Alike π) uses uses') :
    uses'.map Use.name = uses.map Use.name := by
  induction h with
  | nil => rfl
  | cons first rest ih => rw [map_cons, map_cons, ih, first.name]

theorem usesName_eq (uses : List Use) (name : String) :
    usesName uses name = (uses.map Use.name).contains name := by
  rw [usesName, contains_eq_any_beq, any_map]
  congr 1
  funext use
  exact Bool.beq_comm

theorem firstUses_alike {uses uses' : List Use} (h : Forall₂ (Use.Alike π) uses uses') :
    Forall₂ (Use.Alike π) (firstUses uses) (firstUses uses') := by
  induction h with
  | nil => exact .nil
  | cons first rest ih =>
    refine .cons first (forall₂_filter (fun use other hsame => ?_) ih)
    rw [hsame.name, first.name]

theorem reported_uses {uses uses' : List Use} (h : Forall₂ (Use.Alike π) uses uses')
    (text : String → String) :
    Forall₂ (Reported π) (uses.map fun use => .ofPosition use.position (text use.name))
      (uses'.map fun use => .ofPosition use.position (text use.name)) := by
  rw [forall₂_map_left_iff, forall₂_map_right_iff]
  refine h.imp fun use other hsame => ?_
  rw [hsame.name]
  exact .mk hsame.place _

/-- The same definitions and reads, with corresponding offsets of the defining identifiers. -/
structure Variables.Alike (π Q : Position → Position → Prop) (known other : Variables) : Prop where
  definitions : Forall₂ (Use.Alike Q) known.definitions other.definitions
  reads : Forall₂ (Use.Alike Q) known.reads other.reads
  defining : Forall₂ (fun x y => ∃ p q, π p q ∧ x = p.offset ∧ y = q.offset) known.defining
    other.defining

structure NamesAlike (π : Position → Position → Prop) (a b : List Use × List Use) : Prop where
  bound : Forall₂ (Use.Alike π) a.1 b.1
  read : Forall₂ (Use.Alike π) a.2 b.2

theorem observe_keyword (tokens : List Token) (known : Variables) (span : Span) (name : String)
    (argument : Option Argument) (subKeywords : List SubKeyword) (body : List Statement)
    (ancestors : List Node) (place : Nat) :
    observe tokens known
        ⟨.enter, .statement (.keyword span name argument subKeywords body), ancestors, place⟩ =
      if name = "for" then
        let found := forNames tokens span.start.offset
        let known := found.1.foldl Variables.defineAt known
        if argument.isNone then known.addReads found.2 else known
      else if name = "set" then
        match argument with
        | some (.expr (.identifier target)) => known.defineAt ⟨target.text, target.span.start⟩
        | _ => known
      else known := by
  by_cases hfor : name = "for"
  · subst hfor
    rfl
  rw [if_neg hfor]
  by_cases hset : name = "set"
  · subst hset
    rcases argument with - | (value | prose)
    · rfl
    · cases value <;> rfl
    · rfl
  rw [if_neg hset]
  unfold observe
  split <;> simp_all

theorem observe_subKeyword (tokens : List Token) (known : Variables) (span : Span) (name : String)
    (argument : Option Argument) (body : List Statement) (ancestors : List Node) (place : Nat) :
    observe tokens known ⟨.enter, .subKeyword (.mk span name argument body), ancestors, place⟩ =
      if name = "save" then
        match argument with
        | some (.prose prose) =>
          if isPlainName (literalText prose) then
            known.define ⟨String.ofList (literalText prose), prose.span.start⟩
          else known
        | _ => known
      else known := by
  by_cases hsave : name = "save"
  · subst hsave
    rcases argument with - | (value | prose) <;> rfl
  rw [if_neg hsave]
  unfold observe
  split <;> simp_all

def isRemark : Node → Bool
  | .statement (.comment ..) => true
  | _ => false

theorem exists_of_isRemark {node : Node} (h : isRemark node = true) :
    ∃ span text, node = .statement (.comment span text) := by
  unfold isRemark at h
  split at h
  · exact ⟨_, _, rfl⟩
  · cases h

def steps (document : Document) : List Visit :=
  document.visits.filter fun visit => !isRemark visit.node

/-- What is gathered along the tour, where comments give nothing. -/
theorem flatMap_steps {α : Type} {f : Visit → List α}
    (h : ∀ visit, isRemark visit.node = true → f visit = []) (document : Document) :
    (steps document).flatMap f = document.visits.flatMap f := by
  rw [steps]
  induction document.visits with
  | nil => rfl
  | cons visit visits ih =>
    rw [filter_cons, flatMap_cons, ← ih]
    split
    · rfl
    · rename_i hremark
      rw [h visit (by simpa using hremark), nil_append]

/-- Two documents whose tours take the same steps, but for places: variables and statements by `π`,
prose by `Q`. -/
structure Alike (π Q : Position → Position → Prop) (N : Int → Int → Prop) (a b : Document) :
    Prop where
  le : ∀ {p q}, π p q → Q p q
  order : Program.KeepsOrder π
  steps : Forall₂ (Visit.Twin π Q N) (steps a) (steps b)
  loops : ∀ {x y}, N x y → NamesAlike π (forNames a.tokens x) (forNames b.tokens y)

namespace Alike

variable (h : Alike π Q N a b) {known found : Variables} {uses uses' : List Use}
include h

theorem widen (huses : Forall₂ (Use.Alike π) uses uses') : Forall₂ (Use.Alike Q) uses uses' :=
  huses.imp fun _ _ hsame => ⟨hsame.name, h.le hsame.place⟩

theorem defineAt (hknown : known.Alike π Q found) {use use' : Use} (huse : use.Alike π use') :
    (known.defineAt use).Alike π Q (found.defineAt use') :=
  ⟨rel_append hknown.definitions (.cons ⟨huse.name, h.le huse.place⟩ .nil), hknown.reads,
    rel_append hknown.defining (.cons ⟨_, _, huse.place, rfl, rfl⟩ .nil)⟩

theorem addReads (hknown : known.Alike π Q found) (huses : Forall₂ (Use.Alike π) uses uses') :
    (known.addReads uses).Alike π Q (found.addReads uses') :=
  ⟨hknown.definitions, rel_append hknown.reads (h.widen huses), hknown.defining⟩

theorem contains_defining (hknown : known.Alike π Q found) {p q : Position} (hplace : π p q) :
    found.defining.contains q.offset = known.defining.contains p.offset := by
  have hall := hknown.defining
  generalize known.defining = offsets, found.defining = offsets' at hall ⊢
  induction hall with
  | nil => rfl
  | cons first rest ih =>
    obtain ⟨p', q', hplace', rfl, rfl⟩ := first
    have hsame : (q.offset == q'.offset) = (p.offset == p'.offset) := by
      have hle := h.order hplace hplace'
      have hge := h.order hplace' hplace
      rw [Bool.eq_iff_iff, beq_iff_eq, beq_iff_eq]
      omega
    rw [contains_cons, contains_cons, ih, hsame]

theorem observe (hknown : known.Alike π Q found) (hvisit : visit.Twin π Q N other) :
    (observe a.tokens known visit).Alike π Q (observe b.tokens found other) := by
  obtain @⟨phase, _, _, _, _, _, _, hnode, -, hexempt⟩ := hvisit
  cases phase with
  | leave => simpa only [Rule.observe] using hknown
  | enter =>
    cases hnode with
    | @keyword _ _ _ argument argument' _ _ _ _ place like names loop =>
      rw [observe_keyword, observe_keyword]
      split
      · rename_i hfor
        obtain ⟨hbound, hread⟩ := h.loops (loop hfor)
        have hdefined : (foldl Variables.defineAt known _).Alike π Q
            (foldl Variables.defineAt found _) :=
          rel_foldl (P := Variables.Alike π Q) (R := Use.Alike π)
            (fun _ _ hknown _ _ huse => h.defineAt hknown huse) hknown hbound
        have hgiven : argument'.isNone = argument.isNone := by cases like <;> rfl
        dsimp only
        rw [hgiven]
        split
        · exact h.addReads hdefined hread
        · exact hdefined
      · split
        · cases like with
          | expr like =>
            cases like with
            | identifier name => exact h.defineAt hknown ⟨name.text, name.place⟩
            | _ => exact hknown
          | _ => exact hknown
        · exact hknown
    | expression like =>
      cases like with
      | @binary _ _ op _ _ _ _ first second =>
        cases first with
        | identifier name =>
          cases op with
          | equal => exact h.defineAt hknown ⟨name.text, name.place⟩
          | _ => exact hknown
        | _ => cases op <;> exact hknown
      | _ => exact hknown
    | subKeyword place like =>
      rw [observe_subKeyword, observe_subKeyword]
      split
      · cases like with
        | prose place like =>
          dsimp only
          rw [literalText_like like]
          split
          · exact ⟨rel_append hknown.definitions (.cons ⟨rfl, place⟩ .nil), hknown.reads,
              hknown.defining⟩
          · exact hknown
        | _ => exact hknown
      · exact hknown
    | expr like =>
      cases like with
      | identifier name =>
        simp only [Rule.observe, h.contains_defining hknown name.place, hexempt]
        split
        · exact hknown
        · exact h.addReads hknown (.cons ⟨name.text, name.place⟩ .nil)
      | _ => exact hknown
    | _ => exact hknown

theorem variablesOf : (variablesOf a).Alike π Q (variablesOf b) := by
  have hsteps (document : Document) : Rule.variablesOf document =
      (Rule.steps document).foldl (Rule.observe document.tokens) {} := by
    rw [Rule.steps, foldl_filter, Rule.variablesOf]
    congr 1
    funext known visit
    obtain ⟨phase, node, ancestors, place⟩ := visit
    split
    · rfl
    · rename_i hremark
      obtain ⟨span, text, rfl⟩ := exists_of_isRemark (by simpa using hremark)
      cases phase <;> rfl
  rw [hsteps, hsteps]
  exact rel_foldl (R := Visit.Twin π Q N) (P := Variables.Alike π Q)
    (fun _ _ hknown _ _ hvisit => h.observe hknown hvisit) ⟨.nil, .nil, .nil⟩ h.steps

theorem namedStatements (keyword : String) :
    Forall₂ (SameName π) (namedStatements keyword a) (namedStatements keyword b) := by
  have hsteps (document : Document) : Rule.namedStatements keyword document =
      (Rule.steps document).filterMap (named? keyword) := by
    rw [filterMap_eq_flatMap_toList, flatMap_steps, ← filterMap_eq_flatMap_toList]
    · rfl
    · rintro ⟨phase, node, ancestors, place⟩ hremark
      obtain ⟨span, text, rfl⟩ := exists_of_isRemark hremark
      cases phase <;> rfl
  rw [hsteps, hsteps]
  exact rel_filterMap (fun _ _ hvisit => named?_twin keyword hvisit) h.steps

theorem jumps : Forall₂ (SameName π) (jumps a) (jumps b) :=
  forall₂_filter (fun _ _ hsame => by rw [hsame.1]) (h.namedStatements "goto")

/-- All rules report alike, if those on lines do. -/
theorem check (hS : ∀ {xs ys}, Forall₂ (Reported Q) xs ys → S xs ys)
    (hindents : S (spaceIndents 1 0 (Source.lines a.source.toList))
      (spaceIndents 1 0 (Source.lines b.source.toList)))
    (hstrings : S (a.tokens.filterMap unclosedString?) (b.tokens.filterMap unclosedString?))
    (hbrackets : S (bracketReports [] 0 a.tokens) (bracketReports [] 0 b.tokens))
    (hvisit : visit.Twin π Q N other) :
    ∀ rule ∈ all, S (rule.check a visit) (rule.check b other) := by
  have hplaced {xs ys : List Report} (hreports : Forall₂ (Reported π) xs ys) : S xs ys := by
    refine hS (hreports.imp fun report other hsame => ?_)
    obtain ⟨place, text⟩ := hsame
    exact .mk (h.le place) text
  have henter {check : Document → List Report} (hcheck : S (check a) (check b)) :=
    onEnter_twin (hS .nil) hcheck hvisit
  have hleave {check : Document → List Report} (hcheck : S (check a) (check b)) :=
    onLeave_twin (hS .nil) hcheck hvisit
  have hlabels : Forall₂ (SameName π) (labels a) (labels b) := h.namedStatements "label"
  have hjumps := h.jumps
  have hvariables := h.variablesOf
  have hreads := names_alike hvariables.reads
  have hdefinitions := names_alike hvariables.definitions
  simp only [all, forall_mem_cons, validKeyword, requiredSubKeywords, noInlineArgument,
    purchaseConstraints, noInvalidGoto, noUnusedLabels, indentStyle, noUnclosedString,
    noUnclosedBracket, noUndefinedVars, noUnusedVars]
  refine ⟨hplaced (onKeyword_twin (fun _ _ _ _ _ => rfl) hvisit),
    hplaced (validSubKeyword_twin hvisit),
    hplaced (onKeyword_twin (fun _ _ _ _ _ => rfl) hvisit), hplaced (onKeyword_twin ?_ hvisit),
    hplaced (onKeyword_twin (fun _ _ _ _ _ => rfl) hvisit), hplaced (gotoNeedsReset_twin hvisit),
    hleave (hplaced (reported_named (unmatched_alike hjumps hlabels)
      fun name => s!"*goto target '{name}' is not defined")),
    hleave (hplaced (reported_named (unmatched_alike hlabels hjumps)
      fun name => s!"Label '{name}' is defined but never used by a *goto")), henter hindents,
    henter hstrings, henter hbrackets,
    hleave (hS (reported_uses (forall₂_filter ?_ hvariables.reads)
      fun name => s!"Variable '{name}' is used but never defined")),
    hleave (hS (reported_uses (forall₂_filter ?_ (firstUses_alike hvariables.definitions))
      fun name => s!"Variable '{name}' is defined but never used")), by simp⟩
  · intro name argument other names hgiven
    rw [hgiven]
  · intro use other hsame
    rw [usesName_eq, usesName_eq, hdefinitions, hsame.name]
  · intro use other hsame
    rw [usesName_eq, usesName_eq, hreads, hsame.name]

end Alike

end Rule
end GuidedTrack
