import GuidedTrack.Proofs.Lint.FixStability
import GuidedTrack.Proofs.Lint.FixTexts
import GuidedTrack.Proofs.Lint.SplicedFixes
import GuidedTrack.Proofs.Rule.FixInsertions

/-! # Fixes are conservative

Whatever rules are in force, their fixes lie one behind the other, so that none is left out. They
keep every line break, and a line changes at its indentation and at one place behind it.
-/

namespace GuidedTrack.Lint

open List

open Source (Line)
open Text Rule

variable {line : Line} {source : List Char} {lines : List Line} {others reports : List Report}
  {number i : Nat}

/-! ## Lines that are conserved -/

/-- A line and what fixes may make of it: its indentation is kept or, if something follows it, made
tabs, and closing marks are inserted at one place behind it. -/
structure Conserves (line edited : Line) : Prop where
  ending : edited.ending = line.ending
  content : ∃ lead front added tail,
    line.content.dropWhile isGap = front ++ tail ∧
      edited.content = lead ++ (front ++ (added ++ tail)) ∧
      (lead = line.content.takeWhile isGap ∨
        line.content.dropWhile isGap ≠ [] ∧ ∀ c ∈ lead, c = '\t') ∧
      ∀ c ∈ added, c ∈ closingMarks

theorem Conserves.refl (line : Line) : Conserves line line where
  ending := rfl
  content := by
    refine ⟨line.content.takeWhile isGap, line.content.dropWhile isGap, [], [],
      (append_nil _).symm, ?_, .inl rfl, by simp⟩
    rw [nil_append, append_nil, takeWhile_append_dropWhile]

theorem fixedLead_eq_or_tabs {lead : List Char} (h : Gaps lead) :
    fixedLead lead = lead ∨ ∀ c ∈ fixedLead lead, c = '\t' := by
  unfold fixedLead
  split
  · refine .inr fun c hc => ?_
    rcases exists_of_mem_tabify hc with htab | ⟨hmem, hspace⟩
    · exact htab
    · have hgap : c = ' ' ∨ c = '\t' := by simpa [isGap] using h c hmem
      exact hgap.resolve_left hspace
  · exact .inl rfl

theorem isInline_of_closingMarks {c : Char} (h : c ∈ closingMarks) :
    Source.isInline c = true := by
  have hall : (closingMarks.all Source.isInline) = true := by decide
  exact all_eq_true.mp hall c h

theorem Conserves.replaces {edited : Line} (h : Conserves line edited)
    (hinline : Source.Inline line.content) : Replaces line edited := by
  obtain ⟨hending, lead, front, added, tail, hbody, hcontent, hlead, hadded⟩ := h
  have hcut := takeWhile_append_dropWhile (p := isGap) (l := line.content)
  rw [hbody] at hcut
  refine ⟨hending, ?_, ?_⟩
  · rw [← hcut] at hinline
    simp only [forall_mem_append] at hinline
    rw [hcontent]
    simp only [forall_mem_append]
    refine ⟨?_, hinline.2.1, fun c hc => isInline_of_closingMarks (hadded c hc), hinline.2.2⟩
    rcases hlead with rfl | ⟨-, htabs⟩
    · exact hinline.1
    · intro c hc
      rw [htabs c hc]
      rfl
  · intro hnil
    simp only [hcontent, append_eq_nil_iff] at hnil
    obtain ⟨rfl, rfl, -, rfl⟩ := hnil
    rcases hlead with hlead | ⟨hfilled, -⟩
    · rw [← hcut, ← hlead]
      rfl
    · exact absurd hbody hfilled

theorem replaces_of_conserves {cs : List Char} {edited : List Line}
    (hlines : Source.lines cs = lines) (h : Forall₂ Conserves lines edited) :
    Forall₂ Replaces lines edited := by
  induction h generalizing cs with
  | nil => exact .nil
  | cons hline hrest ih =>
    obtain ⟨tail, hopens, hmore⟩ := Source.opens_of_lines hlines
    exact .cons (hline.replaces hopens.inline) (ih hmore)

/-! ## Some of the reports on a source -/

theorem indentReports_sublist {offset : Nat}
    (h : others.Sublist (indentReports number offset line)) :
    others = [] ∨ others = indentReports number offset line := by
  rw [indentReports, spaceIndents, spaceIndents, append_nil] at h ⊢
  split at h
  · rename_i hspaces
    rw [if_pos hspaces]
    exact sublist_singleton.mp h
  · exact .inl (sublist_nil.mp h)

theorem rewrites_some {tail text : List Char} {indents row : List Report}
    (hopens : line.Opens (source.drop i) tail) (hi : i ≤ source.length)
    (hbody : line.content.dropWhile isGap ≠ []) {p : Position} (hline : p.line = number)
    (hcolumn : p.column = 1) (hoffset : p.offset = i) (depth : Nat) (lineEnd : Int)
    (hindents : indents.Sublist (indentReports number i line))
    (hrow : row.Sublist (rowReports lineEnd (Token.scanContent depth
      (p.advance (line.content.takeWhile isGap).length) (line.content.dropWhile isGap))))
    (h : Rewrites source (i + line.length) (number + 1) 1 text reports) :
    ∃ edited, Conserves line edited ∧
      Rewrites source i number 1 (edited.content ++ edited.ending ++ text)
        (indents ++ (row ++ reports)) := by
  obtain ⟨hrest, hle, hall⟩ := body_of_opens hopens hi
  obtain ⟨front, marks, behind, hcut, hmarks, hinserts⟩ :=
    exists_inserts hbody depth lineEnd (p.advance (line.content.takeWhile isGap).length)
  obtain ⟨added, hfewer, hadded⟩ := hinserts.sublist hrow
  have hplace : (p.advance (line.content.takeWhile isGap).length).offset + front.length =
      (i + (line.content.takeWhile isGap).length + front.length : Nat) := by
    simp only [Position.advance, hoffset]
    omega
  have hstart : (p.advance (line.content.takeWhile isGap).length).column =
      1 + (line.content.takeWhile isGap).length := by
    simp only [Position.advance, hcolumn]
  rw [hplace, hstart, show (p.advance _).line = (number : Int) from hline] at hadded
  rw [hcut] at hrest
  rw [hall, hcut] at h
  have hbehind := rewrites_row hadded hrest hle h
  have hcontent : ∀ c ∈ added, c ∈ closingMarks := fun c hc => hmarks c (hfewer.subset hc)
  have hgaps : Gaps (line.content.takeWhile isGap) :=
    fun c hc => mem_takeWhile_imp hc
  rcases indentReports_sublist hindents with rfl | rfl
  · refine ⟨⟨line.content.takeWhile isGap ++ (front ++ (added ++ behind)), line.ending⟩,
      ⟨rfl, _, front, added, behind, hcut, rfl, .inl rfl, hcontent⟩, ?_⟩
    have hmargin : Rewrites _ _ number 1 _ _ := hbehind.weaken (.inr ⟨rfl, by omega⟩)
    have hwhole := hmargin.advance (text_of_opens hopens) hi
    simpa only [append_assoc, nil_append] using hwhole
  · refine ⟨⟨fixedLead (line.content.takeWhile isGap) ++ (front ++ (added ++ behind)),
      line.ending⟩, ⟨rfl, _, front, added, behind, hcut, rfl, ?_, hcontent⟩, ?_⟩
    · exact (fixedLead_eq_or_tabs hgaps).imp_right fun htabs => ⟨hbody, htabs⟩
    · have hwhole := rewrites_indent hopens hi hbody hbehind
      simpa only [append_assoc] using hwhole

/-- Whichever of the reports on the lines of a source are made, they conserve its lines. -/
theorem ReportedLines.conserves (h : ReportedLines source i number lines reports)
    (hothers : others.Sublist reports) :
    ∃ edited, Forall₂ Conserves lines edited ∧
      Rewrites source i number 1 (textOf edited) others := by
  induction h generalizing others with
  | @nil i number within none =>
    have hnil := @Rewrites.nil source i number 1 within
    rw [none] at hnil
    rw [sublist_nil.mp hothers]
    exact ⟨[], .nil, hnil⟩
  | @blank _ _ line _ _ _ opens within blank rest ih =>
    obtain ⟨edited, hedited, hrewrites⟩ := ih hothers
    exact ⟨line :: edited, .cons (.refl line) hedited, rewrites_past opens within hrewrites⟩
  | line opens within filled start depth lineEnd rest ih =>
    obtain ⟨indents, rest, rfl, hindents, hrest⟩ := sublist_append_iff.mp hothers
    obtain ⟨some, later, rfl, hsome, hlater⟩ := sublist_append_iff.mp hrest
    obtain ⟨edited, hedited, hrewrites⟩ := ih hlater
    obtain ⟨first, hfirst, hline⟩ := rewrites_some opens within filled start.1 start.2.1 start.2.2
      depth lineEnd hindents hsome hrewrites
    exact ⟨first :: edited, .cons hfirst hedited, hline⟩

/-! ## The fixes of the rules in force -/

section

variable {settings : Settings} {source : String} {found : List Message}

theorem map_report_sublist (settings : Settings) (document : Document) (visit : Visit) :
    ((messagesAt settings document visit).map (·.report)).Sublist
      (all.flatMap fun rule => rule.check document visit) := by
  rw [messagesAt, map_flatMap]
  apply Sublist.flatMap_right
  intro rule _
  cases severityOf settings rule with
  | none => exact nil_sublist _
  | some severity =>
    have hreports : (rule.check document visit).map
        ((·.report) ∘ (⟨rule.name, severity, ·⟩ : Report → Message)) = rule.check document visit :=
      map_id _
    rw [map_map, hreports]

theorem fixable_subperm (h : messages settings source = .ok found) :
    (fixable (found.map (·.report))).Subperm
      (lineReports 1 0 0 (Source.lines source.toList) (Token.ofSource source)) := by
  obtain ⟨program, hperm, -⟩ := exists_tour h
  have hsublist := Sublist.flatMap_right ((Node.program program).tour [] 0)
    fun visit _ => map_report_sublist settings
      ⟨source, Token.ofSource source, (Node.program program).tour [] 0⟩ visit
  have hall := hsublist.filter (·.fix.isSome)
  rw [← fixable, ← fixable, fixable_flatMap _ fun visit => all.flatMap _] at hall
  simp only [fixable_all, flatMap_entersProgram] at hall
  exact (hperm.filter _).subperm.trans hall.subperm

theorem fixes_of_ordered (h : messages settings source = .ok found)
    (hordered : reports.Pairwise Before) (hreports :
      (lineReports 1 0 0 (Source.lines source.toList) (Token.ofSource source)).Perm reports) :
    ∃ others : List Report, others.Sublist reports ∧ fixes found = others.filterMap (·.fix) := by
  obtain ⟨-, -, hsorted⟩ := exists_tour h
  have hpairwise : (fixable (found.map (·.report))).Pairwise fun a b => ¬ Before b a :=
    (pairwise_map.mpr (hsorted.imp not_before_of_precedes)).filter _
  obtain ⟨others, hperm, hsublist⟩ := (fixable_subperm h).trans hreports.subperm
  refine ⟨others, hsublist, ?_⟩
  rw [← eq_of_ordered hpairwise (hordered.sublist hsublist) hperm.symm, filterMap_fixable,
    filterMap_map]
  rfl

theorem within_of_mem_fixes (h : messages settings source = .ok found) :
    ∀ fix ∈ fixes found, fix.Within source.length := by
  intro fix hfix
  obtain ⟨i, j, hstart, hstop, hij, hj, -⟩ := (mild_of_mem_fixes h fix hfix).inside
  rw [String.length_toList] at hj
  unfold Fix.Within
  omega

/-- The fixes of a source are conservative, whatever the settings are. Their ranges lie in the
source one behind the other, so none is left out. What they make of the source has the same line
breaks; the indentation of a line is kept or made tabs, and what follows it is changed by inserting
quotes and closing brackets at one place. -/
theorem fixed_conserves (h : messages settings source = .ok found) :
    (∀ fix ∈ fixes found, fix.Within source.length) ∧
      (fixes found).Pairwise (fun a b => a.stop ≤ b.start) ∧
      Fix.chosen (Fix.sorted (fixes found)) = Fix.sorted (fixes found) ∧
      ∃ output, fixed settings source = .ok output ∧
        Forall₂ Conserves (Source.lines source.toList) (Source.lines output.toList) := by
  have hwithin := within_of_mem_fixes h
  obtain ⟨reports, hreported, hperm⟩ := exists_reported_source source
  obtain ⟨_, -, hall⟩ := hreported.conserves (.refl reports)
  obtain ⟨others, hothers, hfixes⟩ := fixes_of_ordered h hall.ordered hperm
  obtain ⟨edited, hedited, hrewrites⟩ := hreported.conserves hothers
  have happart : (fixes found).Pairwise fun a b => a.stop ≤ b.start := hfixes ▸ hrewrites.apart
  have hsorted : Fix.sorted (fixes found) = fixes found := by
    rw [Fix.sorted, hfixes, mergeSort_of_pairwise (hrewrites.sorted.imp decide_eq_true)]
  refine ⟨hwithin, happart, ?_, _, fixed_of_rewrites h hfixes hrewrites, ?_⟩
  · rw [hsorted, Fix.chosen_eq]
    exact Fix.chosenFrom_eq_self (fun fix hfix => (hwithin fix hfix).1) happart
  · rw [String.toList_ofList, lines_textOf (replaces_of_conserves rfl hedited) rfl]
    exact hedited

/-- Without the rule on strings, an indentation is rewritten and two lines get brackets, one of them
in front of a comment. -/
theorem fixed_conserves_two :
    ∃ found, messages [("no-unclosed-string", .off)] "  \x7b\"a\r\n>> [b --c" = .ok found ∧
      fixes found = [⟨0, 2, "\t"⟩, ⟨5, 5, "\x7d"⟩, ⟨12, 12, "]"⟩] ∧
      ∃ output, fixed [("no-unclosed-string", .off)] "  \x7b\"a\r\n>> [b --c" = .ok output ∧
        Forall₂ Conserves (Source.lines "  \x7b\"a\r\n>> [b --c".toList)
          (Source.lines output.toList) := by
  obtain ⟨found, hfound, hfixes⟩ := exists_ok_of_any
    (messages [("no-unclosed-string", .off)] "  \x7b\"a\r\n>> [b --c")
    (fixes · == [⟨0, 2, "\t"⟩, ⟨5, 5, "\x7d"⟩, ⟨12, 12, "]"⟩])
    (by rw [messages_eq_insertion]; decide +kernel)
  exact ⟨found, hfound, eq_of_beq hfixes, (fixed_conserves hfound).2.2.2⟩

end

end GuidedTrack.Lint
