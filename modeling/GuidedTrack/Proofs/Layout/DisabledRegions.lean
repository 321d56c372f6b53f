import GuidedTrack.Proofs.Layout.LineSteps
import GuidedTrack.Proofs.Token.LineLocality

/-! # Regions that are not laid out

Between a line that switches layout off and the next line that switches it on, lines are copied.
Such a region cuts a text in parts that are laid out on their own: behind it layout starts as at the
front of a text. How the text ends is decided on the lines that are written, whichever they are.
-/

namespace GuidedTrack.Layout

open Text Token List

variable {raws written : List (List Char)} {raw : List Char} {i : Nat} {state after : State}
  {style : Style}

/-! ## Where layout is switched off -/

def lineAt (raws : List (List Char)) (i : Nat) : List Char :=
  raws[i]?.getD []

/-- Before line `i` layout is switched off: some line before it does so, and none between the two
switches it on. -/
def OpenBefore (raws : List (List Char)) (i : Nat) : Prop :=
  ∃ j < i, isSwitch "gtformat-disable" (lineAt raws j) = true ∧
    ∀ k < i, j < k → isSwitch "gtformat-enable" (lineAt raws k) = false

/-- Line `i` is part of a region that is not laid out. The lines that open and close it are parts
of it. -/
def Inside (raws : List (List Char)) (i : Nat) : Prop :=
  OpenBefore raws i ∨ isSwitch "gtformat-disable" (lineAt raws i) = true

instance (raws : List (List Char)) (i : Nat) : Decidable (OpenBefore raws i) :=
  inferInstanceAs (Decidable (∃ j < i, _ ∧ ∀ k < i, j < k → _))

instance (raws : List (List Char)) (i : Nat) : Decidable (Inside raws i) :=
  inferInstanceAs (Decidable (_ ∨ _))

theorem isSwitch_enable_of_disable (h : isSwitch "gtformat-disable" raw = true) :
    isSwitch "gtformat-enable" raw = false := by
  unfold isSwitch at h ⊢
  split at h
  · rw [beq_iff_eq.mp h]
    decide
  · cases h

theorem openBefore_succ (raws : List (List Char)) (i : Nat) :
    OpenBefore raws (i + 1) ↔ isSwitch "gtformat-disable" (lineAt raws i) = true ∨
      OpenBefore raws i ∧ isSwitch "gtformat-enable" (lineAt raws i) = false := by
  constructor
  · rintro ⟨j, hj, hoff, hon⟩
    rcases Nat.lt_succ_iff_lt_or_eq.mp hj with hj | rfl
    · exact .inr ⟨⟨j, hj, hoff, fun k hk => hon k (by omega)⟩, hon i (by omega) hj⟩
    · exact .inl hoff
  · rintro (hoff | ⟨⟨j, hj, hoff, hon⟩, hi⟩)
    · exact ⟨i, by omega, hoff, by omega⟩
    · refine ⟨j, by omega, hoff, fun k hk hjk => ?_⟩
      rcases Nat.lt_succ_iff_lt_or_eq.mp hk with hk | rfl
      · exact hon k hk hjk
      · exact hi

def stateBefore (style : Style) (raws : List (List Char)) (i : Nat) : State :=
  State.run style {} (raws.take i)

theorem take_succ_eq (h : i < raws.length) :
    raws.take (i + 1) = raws.take i ++ [lineAt raws i] := by
  rw [take_succ_eq_append_getElem h, lineAt, getElem?_eq_getElem h]
  rfl

theorem stateBefore_succ (style : Style) (h : i < raws.length) :
    stateBefore style raws (i + 1) =
      (layoutLine style (stateBefore style raws i) (lineAt raws i)).2 := by
  rw [stateBefore, take_succ_eq h, State.run, foldl_append]
  rfl

theorem lays_lineAt (style : Style) (h : i < raws.length) :
    Lays style (stateBefore style raws i) (lineAt raws i)
      (layoutLine style (stateBefore style raws i) (lineAt raws i)).1
      (stateBefore style raws (i + 1)) := by
  rw [stateBefore_succ style h]
  exact lays_layoutLine style (stateBefore style raws i) (lineAt raws i)

theorem Lays.disabled (h : Lays style state raw written after) :
    after.disabled = true ↔ isSwitch "gtformat-disable" raw = true ∨
      state.disabled = true ∧ isSwitch "gtformat-enable" raw = false := by
  cases h with
  | copied off word => simp [off, word]
  | switchOn off word =>
    have hoff : isSwitch "gtformat-disable" raw = false := by
      cases hoff : isSwitch "gtformat-disable" raw with
      | false => rfl
      | true =>
        rw [isSwitch_enable_of_disable hoff] at word
        cases word
    simp [off, word, hoff]
  | switchOff on word => simp [word]
  | dropped on blank | blank on blank => simp [on, isSwitch_of_allBlank _ blank]
  | comment on word | text on word => simp [on, word, State.enter]

/-- The run lemma: layout is switched off where the lines say so. -/
theorem disabled_stateBefore (style : Style) (h : i ≤ raws.length) :
    (stateBefore style raws i).disabled = true ↔ OpenBefore raws i := by
  induction i with
  | zero => simp [stateBefore, State.run, OpenBefore]
  | succ i ih =>
    rw [(lays_lineAt style h).disabled, ih (Nat.le_of_succ_le h), openBefore_succ]

/-! ## Lines that are copied -/

/-- A text of a line that switches layout off, lines that do not switch it on, and one that does,
each with a line feed behind it. -/
def IsRegion (cs : List Char) : Prop :=
  ∃ first inner last, cs = fed true (first :: (inner ++ [last])) ∧
    isSwitch "gtformat-disable" first = true ∧
    (∀ raw ∈ inner, isSwitch "gtformat-enable" raw = false) ∧
    isSwitch "gtformat-enable" last = true ∧ ∀ raw ∈ first :: (inner ++ [last]), '\n' ∉ raw

theorem Lays.copies (h : Lays style state raw written after) (hoff : state.disabled = true) :
    written = [raw] ∧ (isSwitch "gtformat-enable" raw = true →
      after = { lastBlank := some false, siblings := [], disabled := false }) := by
  cases h with
  | copied off word => exact ⟨rfl, fun hon => absurd hon (by simp [word])⟩
  | switchOn off word => exact ⟨rfl, fun _ => rfl⟩
  | switchOff on | dropped on | blank on | comment on | text on =>
    rw [on] at hoff
    cases hoff

theorem layoutLines_off (style : Style) (hoff : state.disabled = true) {inner : List (List Char)}
    (hinner : ∀ raw ∈ inner, isSwitch "gtformat-enable" raw = false) {last : List Char}
    (hlast : isSwitch "gtformat-enable" last = true) :
    layoutLines style state (inner ++ [last]) = inner ++ [last] ∧
      state.run style (inner ++ [last]) =
        { lastBlank := some false, siblings := [], disabled := false } := by
  induction inner generalizing state with
  | nil =>
    obtain ⟨hwritten, hafter⟩ := (lays_layoutLine style state last).copies hoff
    rw [nil_append, layoutLines_cons, hwritten]
    exact ⟨rfl, hafter hlast⟩
  | cons raw inner ih =>
    obtain ⟨hraw, hinner⟩ := forall_mem_cons.mp hinner
    have hlays := lays_layoutLine style state raw
    obtain ⟨hlines, hrun⟩ := ih (hlays.disabled.mpr (.inr ⟨hoff, hraw⟩)) hinner
    rw [cons_append, layoutLines_cons, (hlays.copies hoff).1, hlines]
    exact ⟨rfl, hrun⟩

theorem Lays.copies_switch (h : Lays style state raw written after)
    (hoff : isSwitch "gtformat-disable" raw = true) : written = [raw] := by
  cases h with
  | copied | switchOn | switchOff => rfl
  | dropped on blank | blank on blank => simp [isSwitch_of_allBlank _ blank] at hoff
  | comment on word | text on word =>
    rw [word] at hoff
    cases hoff

theorem layoutLine_fresh (style : Style) (raw : List Char) :
    layoutLine style { lastBlank := some false } raw = layoutLine style {} raw := by
  simp [layoutLine, layoutText, startsBlock]

theorem layoutLines_fresh (style : Style) (raws : List (List Char)) :
    layoutLines style { lastBlank := some false } raws = layoutLines style {} raws := by
  cases raws with
  | nil => rfl
  | cons raw rest => rw [layoutLines_cons, layoutLines_cons, layoutLine_fresh]

theorem layoutLines_region (style : Style) (state : State) {first last : List Char}
    {inner : List (List Char)}
    (hfirst : isSwitch "gtformat-disable" first = true)
    (hinner : ∀ raw ∈ inner, isSwitch "gtformat-enable" raw = false)
    (hlast : isSwitch "gtformat-enable" last = true) (rest : List (List Char)) :
    layoutLines style state (first :: (inner ++ [last]) ++ rest) =
      first :: (inner ++ [last]) ++ layoutLines style {} rest := by
  have hlays := lays_layoutLine style state first
  obtain ⟨hlines, hrun⟩ :=
    layoutLines_off style (hlays.disabled.mpr (.inl hfirst)) hinner hlast
  rw [cons_append, layoutLines_cons, hlays.copies_switch hfirst, layoutLines_append, hlines,
    hrun, layoutLines_fresh]
  rfl

/-! ## Texts in parts -/

/-- The lines in front of a text that may follow them: none if there is no text in front. -/
theorem exists_fed_of_endsLine {cs : List Char} (h : EndsLine cs) (style : Style)
    (hkeep : style.insertFinalNewline = false) :
    ∃ lines, cs = fed true lines ∧ (∀ line ∈ lines, '\n' ∉ line) ∧
      layout style cs = fed true (layoutLines style {} lines) := by
  rcases h with rfl | hlast
  · exact ⟨[], rfl, by simp, layout_nil style⟩
  · refine ⟨sourceLines cs, ?_, fun line => feed_not_mem_sourceLines, ?_⟩
    · simpa [hlast] using (fed_sourceLines cs).symm
    · rw [layout_eq_finish, finish_eq_fed_of_keep hkeep _
        (layoutLines_ne_nil style (sourceLines_ne_nil cs)), hlast]
      rfl

theorem layout_region (hkeep : style.insertFinalNewline = false) {front region : List Char}
    (hfront : EndsLine front) (hregion : IsRegion region) (back : List Char) :
    layout style (front ++ region ++ back) = layout style front ++ region ++ layout style back := by
  obtain ⟨lines, rfl, hfeed, hlayout⟩ := exists_fed_of_endsLine hfront style hkeep
  obtain ⟨first, inner, last, rfl, hfirst, hinner, hlast, hregionFeed⟩ := hregion
  have hall : ∀ line ∈ lines ++ first :: (inner ++ [last]), '\n' ∉ line := by
    intro line hline
    rcases mem_append.mp hline with hline | hline
    · exact hfeed line hline
    · exact hregionFeed line hline
  have hlines (rest : List (List Char)) :
      layoutLines style {} (lines ++ first :: (inner ++ [last]) ++ rest) =
        layoutLines style {} lines ++
          (first :: (inner ++ [last]) ++ layoutLines style {} rest) := by
    rw [append_assoc, layoutLines_append, layoutLines_region style _ hfirst hinner hlast]
  rw [hlayout, ← fed_append true lines (cons_ne_nil first _), layout_eq_finish]
  -- the text ends with the region or with what stands behind it
  by_cases hback : back = []
  · have hwritten := hlines []
    rw [append_nil, show layoutLines style {} [] = [] from rfl, append_nil] at hwritten
    rw [hback, layout_nil, append_nil, append_nil, getLast?_fed (by simp),
      sourceLines_fed (by simp) hall, hwritten, finish_eq_fed_of_keep hkeep _ (by simp),
      fed_append _ _ (cons_ne_nil first _)]
    rfl
  · have hend : (fed true (lines ++ first :: (inner ++ [last])) ++ back).getLast? =
        back.getLast? := by
      rw [getLast?_append, getLast?_eq_getLast_of_ne_nil hback, Option.some_or]
    have hne := layoutLines_ne_nil style (sourceLines_ne_nil back)
    rw [hend, sourceLines_fed_append hall hback, hlines, finish_eq_fed_of_keep hkeep _ (by simp),
      fed_append _ _ (by simp), fed_append _ _ hne, layout_eq_finish,
      finish_eq_fed_of_keep hkeep _ hne, append_assoc]

/-! ## How the text ends -/

section

variable (style : Style) (final : Bool)

theorem writeCode_final (operators : Bool) (written cs : List Char) :
    writeCode { style with insertFinalNewline := final } operators written cs =
      writeCode style operators written cs := by
  induction hn : cs.length using Nat.strong_induction_on generalizing written cs with
  | _ n ih =>
    cases cs with
    | nil => rw [writeCode, writeCode]
    | cons c rest =>
      rw [length_cons] at hn
      rw [writeCode, writeCode]
      exact ih _ (by rw [length_drop]; omega) _ _ rfl

theorem code_final (operators : Bool) (cs : List Char) :
    code { style with insertFinalNewline := final } operators cs = code style operators cs := by
  rw [code, code, writeCode_final]

theorem layoutLine_final (state : State) (raw : List Char) :
    layoutLine { style with insertFinalNewline := final } state raw =
      layoutLine style state raw := by
  simp only [layoutLine, layoutText, layoutContent, layoutDirective, code_final]

theorem layoutLines_final (state : State) (raws : List (List Char)) :
    layoutLines { style with insertFinalNewline := final } state raws =
      layoutLines style state raws := by
  induction raws generalizing state with
  | nil => rfl
  | cons raw raws ih => rw [layoutLines_cons, layoutLines_cons, layoutLine_final, ih]

end

/-- With a line feed put at the end, the lines that are kept are those up to the last that is not
blank, each with a line feed behind it. -/
theorem layout_final (style : Style) (cs : List Char) :
    ∃ kept removed,
      splitFeeds (layout { style with insertFinalNewline := false } cs) = kept ++ removed ∧
      (∀ line ∈ removed, allBlank line = true) ∧ (∀ line ∈ kept.getLast?, allBlank line = false) ∧
      layout { style with insertFinalNewline := true } cs = fed true kept := by
  have hne := layoutLines_ne_nil style (sourceLines_ne_nil cs)
  have hfeed := feed_not_mem_layoutLines style {} fun line (hline : line ∈ sourceLines cs) =>
    feed_not_mem_sourceLines hline
  rw [layout_eq_finish, layout_eq_finish, layoutLines_final style false,
    layoutLines_final style true]
  generalize layoutLines style {} (sourceLines cs) = lines at hne hfeed
  generalize (cs.getLast? == some '\n') = feed
  refine ⟨dropBlankEnd lines, lines.rtakeWhile allBlank ++ (if feed then [[]] else []), ?_, ?_, ?_,
    finish_eq_fed_of_insert rfl feed lines⟩
  · rw [← append_assoc, show dropBlankEnd lines ++ lines.rtakeWhile allBlank = lines from
      rdropWhile_append_rtakeWhile, finish_eq_fed_of_keep rfl feed hne,
      splitFeeds_fed_lines feed hne hfeed]
  · intro line hline
    rcases mem_append.mp hline with hline | hline
    · exact mem_rtakeWhile_imp hline
    · split at hline
      · rw [mem_singleton.mp hline]
        rfl
      · cases hline
  · exact fun line hline => getLast?_dropBlankEnd hline

/-- Layout leaves what stands in a region as it is, and lays out what stands before and behind it on
its own; no region need be closed in front of it. A line feed put at the end of a text takes the
place of the blank lines there. -/
theorem format_region (style : Style) :
    (style.insertFinalNewline = false → ∀ front region back : String, EndsLine front.toList →
      IsRegion region.toList →
      format style (front ++ region ++ back) =
        format style front ++ region ++ format style back) ∧
    ∀ source : String, ∃ kept removed,
      splitFeeds (format { style with insertFinalNewline := false } source).toList =
        kept ++ removed ∧
      (∀ line ∈ removed, allBlank line = true) ∧ (∀ line ∈ kept.getLast?, allBlank line = false) ∧
      (format { style with insertFinalNewline := true } source).toList = fed true kept := by
  refine ⟨fun hkeep front region back hfront hregion => ?_, fun source => ?_⟩
  · simp only [format, String.toList_append, layout_region hkeep hfront hregion,
      String.ofList_append, String.ofList_toList]
  · simp only [format, String.toList_ofList]
    exact layout_final style source.toList

/-- A region with blank lines and gaps at the end of its lines, between texts that are laid out. -/
theorem format_region_copied :
    let style : Style := { insertFinalNewline := false }
    let front := "*page\n\tA \n"
    let region := "\t--gtformat-disable \r\nB  \n\n\n--gtformat-enable\n"
    let back := "\nC \n\n"
    EndsLine front.toList ∧ IsRegion region.toList ∧
      format style (front ++ region ++ back) =
        format style front ++ region ++ format style back ∧
      ∃ kept removed, splitFeeds (format style back).toList = kept ++ removed ∧
        (∀ line ∈ removed, allBlank line = true) ∧
        (∀ line ∈ kept.getLast?, allBlank line = false) ∧
        (format {} back).toList = fed true kept := by
  intro style front region back
  have hfront : EndsLine front.toList := .inr (by decide)
  have hregion : IsRegion region.toList :=
    ⟨"\t--gtformat-disable \r".toList, ["B  ".toList, [], []], "--gtformat-enable".toList,
      by decide, by decide, by decide, by decide, by decide⟩
  exact ⟨hfront, hregion, (format_region style).1 rfl front region back hfront hregion,
    (format_region style).2 back⟩

end GuidedTrack.Layout
