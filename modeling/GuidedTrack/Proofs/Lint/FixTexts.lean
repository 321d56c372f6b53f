import GuidedTrack.Proofs.Lint.RuleIndependence
import GuidedTrack.Proofs.Token.LineLocality

/-! # The fixes of a source

Whatever rules are in force, a fix puts text in somewhere or rewrites the indentation of a line. It
adds no digit and no carriage return, and it takes nothing away that stands behind a digit.
-/

namespace GuidedTrack

open List Token

variable {cs : List Char} {i j : Nat}

def Fix.isPlain (c : Char) : Bool :=
  !Text.isDigit c && c != '\r'

structure Fix.Mild (cs : List Char) (fix : Fix) : Prop where
  inside : ∃ i j : Nat, fix.start = i ∧ fix.stop = j ∧ i ≤ j ∧ j ≤ cs.length ∧
    (i = j ∨ ∀ c ∈ (cs.take i).getLast?, Text.isDigit c = false)
  plain : ∀ c ∈ fix.text.toList, isPlain c = true

theorem Fix.Mild.isDigit {fix : Fix} (h : fix.Mild cs) :
    ∀ c ∈ fix.text.toList, Text.isDigit c = false := by
  intro c hc
  have hplain := h.plain c hc
  simp only [isPlain, Bool.and_eq_true, Bool.not_eq_true'] at hplain
  exact hplain.1

namespace Rule

open GuidedTrack.Fix (isPlain)
open Text (isDigit isGap)

/-! ## Indentation -/

theorem isPlain_tabify (h : ∀ c ∈ cs, isPlain c = true) : ∀ c ∈ tabify cs, isPlain c = true := by
  fun_induction tabify cs with
  | case1 => simp
  | case2 c rest hspace ih =>
    obtain ⟨hc, hrest⟩ := forall_mem_cons.mp h
    exact forall_mem_cons.mpr ⟨hc, ih hrest⟩
  | case3 c rest hspace more hlength ih =>
    refine forall_mem_cons.mpr ⟨by decide, ih fun d hd => ?_⟩
    exact h d (mem_cons_of_mem _ ((dropWhile_sublist _).subset hd))
  | case4 c rest hspace more hlength ih =>
    exact ih fun d hd => h d (mem_cons_of_mem _ ((dropWhile_sublist _).subset hd))

theorem isPlain_of_isGap {c : Char} (h : isGap c = true) : isPlain c = true := by
  have hgaps : c = ' ' ∨ c = '\t' := by simpa [isGap] using h
  rcases hgaps with rfl | rfl <;> decide

theorem getLast?_take_line {tail : List Char} {line : Source.Line}
    (hopens : line.Opens (cs.drop i) tail) (hfilled : line.ending ≠ []) :
    ∀ c ∈ (cs.take (i + line.length)).getLast?, isDigit c = false := by
  have htake : cs.take (i + line.length) = cs.take i ++ line.content ++ line.ending := by
    rw [take_add, hopens.text, ← append_assoc, Source.Line.length, ← length_append,
      take_left, append_assoc]
  have hends := hopens.ends
  rw [htake, getLast?_append_of_ne_nil _ hfilled]
  generalize line.ending = ending at hends hfilled
  cases hends with
  | source => exact absurd rfl hfilled
  | feed | both | carriage => simp [show isDigit '\n' = false by decide,
      show isDigit '\r' = false by decide]

theorem mild_spaceIndents (lines : List Source.Line) {number : Nat}
    (hlines : Source.lines (cs.drop i) = lines) (hi : i ≤ cs.length)
    (hmargin : ∀ c ∈ (cs.take i).getLast?, isDigit c = false) :
    ∀ report ∈ spaceIndents number i lines, ∀ fix ∈ report.fix, fix.Mild cs := by
  induction lines generalizing number i with
  | nil => simp [spaceIndents]
  | cons line lines ih =>
    obtain ⟨tail, hopens, hmore⟩ := Source.opens_of_lines hlines
    have hlead := (takeWhile_sublist (l := line.content) isGap).length_le
    have hbound : i + line.length ≤ cs.length := by
      have hlength := congrArg List.length hopens.text
      rw [length_drop, length_append, length_append] at hlength
      rw [Source.Line.length]
      omega
    have hcontent : line.content.length ≤ line.length := Nat.le_add_right _ _
    rw [spaceIndents]
    refine forall_mem_append.mpr ⟨?_, ?_⟩
    · split
      · refine forall_mem_singleton.mpr fun fix hfix => ?_
        obtain rfl := Option.some.inj hfix
        refine ⟨⟨i, i + (line.content.takeWhile isGap).length, rfl, rfl, by omega, by omega,
          .inr hmargin⟩, ?_⟩
        rw [String.toList_ofList]
        exact isPlain_tabify fun c hc => isPlain_of_isGap (mem_takeWhile_imp hc)
      · simp
    · by_cases hending : line.ending = []
      · -- the last line of a source: nothing follows it
        obtain rfl : lines = [] := by
          have hends := hopens.ends
          rw [hending] at hends
          cases hends
          exact hmore.symm
        simp [spaceIndents]
      · exact ih (by rw [hopens.drop_after]; exact hmore) hbound
          (getLast?_take_line hopens hending)

/-! ## Literals -/

theorem mild_unclosedStrings (source : String) :
    ∀ report ∈ (ofSource source).filterMap unclosedString?, ∀ fix ∈ report.fix,
      fix.Mild source.toList := by
  intro report hreport fix hfix
  obtain ⟨token, htoken, hreport⟩ := mem_filterMap.mp hreport
  obtain ⟨i, j, hlaid⟩ := (covers_ofSource source).faithful.laid token htoken
  unfold unclosedString? at hreport
  split at hreport
  · rename_i quote rest hkind htext
    split at hreport
    · rename_i hquote
      obtain rfl := Option.some.inj hreport
      obtain rfl := Option.some.inj hfix
      refine ⟨⟨j, j, hlaid.stop, hlaid.stop, Nat.le_refl _, hlaid.bound, .inl rfl⟩, ?_⟩
      have hquotes : quote = '"' ∨ quote = '\'' := by simpa [isQuote] using hquote
      have hplain : (String.singleton quote).toList.all isPlain = true := by
        rcases hquotes with rfl | rfl <;> decide
      exact all_eq_true.mp hplain
    · cases hreport
  · cases hreport

/-! ## Brackets -/

theorem isPlain_awaited (opener : Token) : ∀ c ∈ (awaited opener).toList, isPlain c = true := by
  refine all_eq_true.mp ?_
  unfold awaited
  cases opener.kind <;> decide

theorem mild_unclosedReports (openers : List Token) (hj : j ≤ cs.length) :
    ∀ report ∈ unclosedReports openers j, ∀ fix ∈ report.fix, fix.Mild cs := by
  intro report hreport fix hfix
  obtain ⟨⟨opener, i⟩, -, rfl⟩ := mem_map.mp hreport
  dsimp only at hfix
  split at hfix
  · obtain rfl := Option.some.inj hfix
    refine ⟨⟨j, j, rfl, rfl, Nat.le_refl _, hj, .inl rfl⟩, fun c hc => ?_⟩
    rw [String.toList_join, mem_flatMap] at hc
    obtain ⟨text, htext, hc⟩ := hc
    obtain ⟨closed, -, rfl⟩ := mem_map.mp htext
    exact isPlain_awaited closed c hc
  · cases hfix

theorem mild_bracketReports {tokens : List Token}
    (hstops : ∀ token ∈ tokens, ∃ j : Nat, token.span.stop.offset = j ∧ j ≤ cs.length)
    (openers : List Token) (hj : j ≤ cs.length) :
    ∀ report ∈ bracketReports openers j tokens, ∀ fix ∈ report.fix, fix.Mild cs := by
  induction tokens generalizing openers j with
  | nil => simp [bracketReports]
  | cons token tokens ih =>
    obtain ⟨⟨stop, hstop, hbound⟩, hstops⟩ := forall_mem_cons.mp hstops
    cases hkind : token.kind.isStructural with
    | true =>
      rw [bracketReports_stop hkind]
      exact forall_mem_append.mpr ⟨mild_unclosedReports _ hj, ih hstops [] hj⟩
    | false =>
      obtain ⟨reached, hreached, hwithin⟩ : ∃ k : Nat, endAfter j token = k ∧ k ≤ cs.length := by
        unfold endAfter
        split
        · exact ⟨j, rfl, hj⟩
        · exact ⟨stop, hstop, hbound⟩
      rw [bracketReports_cons hkind, hreached]
      refine forall_mem_append.mpr ⟨fun report hreport fix hfix => ?_, ih hstops _ hwithin⟩
      rw [fix_closerReports openers token report hreport] at hfix
      cases hfix

end Rule

namespace Lint

variable {settings : Settings} {source : String} {found : List Message}

theorem mem_lineReports (h : messages settings source = .ok found) {message : Message}
    (hmessage : message ∈ found) (hfix : message.report.fix.isSome = true) :
    message.report ∈ lineReports 1 0 0 (Source.lines source.toList) (ofSource source) := by
  obtain ⟨program, faults, -, rfl⟩ := exists_program_of_messages h
  let document : Document := ⟨source, ofSource source, (Node.program program).tour [] 0⟩
  rw [messagesOn, mem_mergeSort, mem_flatMap] at hmessage
  obtain ⟨visit, -, hmessage⟩ := hmessage
  rw [messagesAt_eq, mem_flatMap] at hmessage
  obtain ⟨rule, hrule, hmessage⟩ := hmessage
  have hreport : message.report ∈ rule.check document visit := by
    unfold messagesOf at hmessage
    split at hmessage
    · cases hmessage
    · obtain ⟨report, hreport, rfl⟩ := mem_map.mp hmessage
      exact hreport
  have hfixable : message.report ∈ Rule.fixable
      (Rule.all.flatMap fun rule => rule.check document visit) :=
    mem_filter.mpr ⟨mem_flatMap.mpr ⟨rule, hrule, hreport⟩, hfix⟩
  rw [Rule.fixable_all] at hfixable
  split at hfixable
  · exact hfixable
  · cases hfixable

theorem mild_of_mem_fixes (h : messages settings source = .ok found) :
    ∀ fix ∈ fixes found, fix.Mild source.toList := by
  intro fix hfix
  obtain ⟨message, hmessage, hfix⟩ := mem_filterMap.mp hfix
  have hstops : ∀ token ∈ ofSource source,
      ∃ j : Nat, token.span.stop.offset = j ∧ j ≤ source.toList.length := by
    intro token htoken
    obtain ⟨i, j, hlaid⟩ := (covers_ofSource source).faithful.laid token htoken
    exact ⟨j, hlaid.stop, hlaid.bound⟩
  have hreport := mem_lineReports h hmessage (by rw [hfix]; rfl)
  simp only [lineReports, mem_append, Rule.fixable, mem_filter] at hreport
  rcases hreport with (hindent | hstring) | ⟨hbracket, -⟩
  · exact Rule.mild_spaceIndents _ (by rw [drop_zero]) (Nat.zero_le _) (by simp) _ hindent _ hfix
  · exact Rule.mild_unclosedStrings source _ hstring _ hfix
  · exact Rule.mild_bracketReports hstops [] (Nat.zero_le _) _ hbracket _ hfix

end Lint
end GuidedTrack
