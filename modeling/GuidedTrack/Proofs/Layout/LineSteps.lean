import GuidedTrack.Proofs.Layout.ContentLayout
import GuidedTrack.Proofs.Layout.LineFeeds

/-! # What one line is laid out as

A line is copied where layout is switched off, kept or dropped where it is blank, and else written
with its content laid out, behind an empty line where a new block starts. `Lays` says so case by
case, with the state that each case leaves. It holds of every line, whatever carriage returns it
has; what layout does to a run of lines is read off it.
-/

namespace GuidedTrack.Layout

open Text List

variable {d : Char} {lines : List (List Char)}
  {cs line indent content trailing raw carriage : List Char} {state after : State} {style : Style}

/-! ## The parts of a line -/

theorem rdropWhile_append_of_forall {α : Type} {p : α → Bool} (cs : List α) {g : List α}
    (hg : ∀ d ∈ g, p d = true) : (cs ++ g).rdropWhile p = cs.rdropWhile p := by
  rw [List.rdropWhile, reverse_append, dropWhile_append_of_pos (by simpa using hg)]
  rfl

theorem Trimmed.rdropWhile (h : Trimmed cs) : cs.rdropWhile isGap = cs := by
  refine rdropWhile_eq_self_iff.mpr fun hne => ?_
  simpa using h _ (getLast?_eq_getLast_of_ne_nil hne)

theorem trimmed_rdropWhile (cs : List Char) : Trimmed (cs.rdropWhile isGap) := by
  intro d hlast
  have hne : cs.rdropWhile isGap ≠ [] := by
    rintro hnil
    simp [hnil] at hlast
  have hnot := rdropWhile_last_not isGap cs hne
  rw [Option.mem_def, getLast?_eq_getLast_of_ne_nil hne, Option.some.injEq] at hlast
  rw [hlast] at hnot
  simpa using hnot

structure Parts (line indent content trailing : List Char) : Prop where
  line : line = indent ++ content ++ trailing
  indent : ∀ d ∈ indent, isGap d = true
  trailing : ∀ d ∈ trailing, isGap d = true
  head : ∃ c rest, content = c :: rest ∧ isGap c = false
  trimmed : Trimmed content

theorem parts_exists (h : allBlank line = false) :
    ∃ indent content trailing, Parts line indent content trailing := by
  have hbody : line.takeWhile isGap ++ line.dropWhile isGap = line :=
    takeWhile_append_dropWhile
  have hsplit : (line.dropWhile isGap).rdropWhile isGap ++ (line.dropWhile isGap).rtakeWhile isGap =
      line.dropWhile isGap :=
    rdropWhile_append_rtakeWhile
  cases hd : line.dropWhile isGap with
  | nil =>
    have hgaps : Gaps line := by simpa using hd
    have hblank : allBlank line = true := by
      simpa [allBlank] using fun d hd => isBlank_of_isGap (hgaps d hd)
    rw [hblank] at h
    cases h
  | cons c rest =>
    have hc := isGap_of_dropWhile hd
    refine ⟨line.takeWhile isGap, (line.dropWhile isGap).rdropWhile isGap,
      (line.dropWhile isGap).rtakeWhile isGap, ?_, ?_, ?_, ?_, trimmed_rdropWhile _⟩
    · rw [append_assoc, hsplit, hbody]
    · exact fun d hd => mem_takeWhile_imp hd
    · exact fun d hd => mem_rtakeWhile_imp hd
    · -- the first character of the body is no gap, so it is not dropped from the right
      cases hr : (line.dropWhile isGap).rdropWhile isGap with
      | nil =>
        have := rdropWhile_eq_nil_iff.mp hr c (by simp [hd])
        rw [hc] at this
        cases this
      | cons d more =>
        rw [hr, hd] at hsplit
        obtain ⟨rfl, -⟩ := List.cons.inj hsplit
        exact ⟨d, more, rfl, hc⟩

def State.enter (state : State) (here : Sibling) : State :=
  { state with lastBlank := some false, siblings := (startsBlock state.siblings here).2 }

def separates (style : Style) (state : State) (here : Sibling) : Bool :=
  0 < style.blankLinesBetweenBlocks && (startsBlock state.siblings here).1 &&
    state.lastBlank == some false

theorem Parts.layoutText (h : Parts line indent content trailing) (style : Style) (state : State)
    (carriage : List Char) : let written := indent ++ layoutContent style content ++
      (if style.trimTrailingWhitespace then [] else trailing) ++ carriage
    let here : Sibling := ⟨indent.count '\t', (directiveName? content).isSome⟩
    layoutText style state line carriage =
      if content.take 2 = ['-', '-'] then ([written], { state with lastBlank := some false })
      else (if separates style state here then [[], written] else [written],
        state.enter here) := by
  obtain ⟨c, rest, hcontent, hc⟩ := h.head
  have hindent : line.takeWhile isGap = indent := by
    rw [h.line, append_assoc, takeWhile_append_of_pos h.indent, hcontent]
    simp [hc]
  have hbody : line.dropWhile isGap = content ++ trailing := by
    rw [h.line, append_assoc, dropWhile_append_of_pos h.indent, hcontent]
    simp [hc]
  have hright : dropRightWhile isGap (content ++ trailing) = content :=
    (rdropWhile_append_of_forall content h.trailing).trans h.trimmed.rdropWhile
  simp only [Layout.layoutText, hindent, hbody, hright, drop_left, beq_iff_eq]
  split <;> rfl

/-! ## Switches and blank lines -/

theorem trim_blanks {a b : List Char} (m : List Char) (ha : ∀ d ∈ a, isBlank d = true)
    (hb : ∀ d ∈ b, isBlank d = true) : trim (a ++ m ++ b) = trim m := by
  unfold trim
  rw [append_assoc, dropWhile_append_of_pos ha, dropWhile_append]
  split
  · rename_i hnil
    rw [List.isEmpty_iff.mp hnil, dropWhile_eq_nil_iff.mpr hb]
  · exact rdropWhile_append_of_forall _ hb

theorem isSwitch_of_sign (word : String) {c : Char} {rest : List Char} (h : c = '>' ∨ c = '*') :
    isSwitch word (c :: rest) = false := by
  have hblank : isBlank c = false := by rcases h with rfl | rfl <;> decide
  have htrim : ∃ t, trim (c :: rest) = c :: t := by
    rw [trim, dropWhile_cons_of_neg (by simp [hblank])]
    cases hr : dropRightWhile isBlank (c :: rest) with
    | nil =>
      have := rdropWhile_eq_nil_iff.mp hr c mem_cons_self
      rw [hblank] at this
      cases this
    | cons d t =>
      obtain ⟨u, hu⟩ := rdropWhile_prefix isBlank (c :: rest)
      rw [show (c :: rest).rdropWhile isBlank = d :: t from hr] at hu
      exact ⟨t, by rw [(List.cons.inj hu).1]⟩
  obtain ⟨t, ht⟩ := htrim
  rcases h with rfl | rfl <;> simp [isSwitch, ht]

theorem isSwitch_gaps (word : String) {a b : List Char} (m : List Char)
    (ha : Gaps a) (hb : Gaps b) :
    isSwitch word (a ++ m ++ b) = isSwitch word m := by
  have htrim := trim_blanks m (fun d hd => isBlank_of_isGap (ha d hd))
    fun d hd => isBlank_of_isGap (hb d hd)
  simp only [isSwitch, htrim]

theorem Parts.isSwitch (h : Parts line indent content trailing) (word : String) :
    isSwitch word line = isSwitch word content := by
  rw [h.line, isSwitch_gaps word content h.indent h.trailing]

theorem isSwitch_of_allBlank (word : String) (h : allBlank line = true) :
    isSwitch word line = false := by
  have hnil : line.dropWhile isBlank = [] := by
    simpa [allBlank] using h
  simp [isSwitch, trim, hnil, dropRightWhile]

theorem Parts.allBlank (h : Parts line indent content trailing) :
    allBlank line = allBlank content := by
  have hblank {g : List Char} (hg : Gaps g) : Text.allBlank g = true := by
    simpa [Text.allBlank] using fun d hd => isBlank_of_isGap (hg d hd)
  have hindent := hblank h.indent
  have htrailing := hblank h.trailing
  simp only [Text.allBlank] at hindent htrailing ⊢
  rw [h.line, all_append, all_append, hindent, htrailing, Bool.true_and, Bool.and_true]

def keptBlank (style : Style) (line : List Char) : List Char :=
  if style.trimTrailingWhitespace then dropRightWhile isGap line else line

theorem keptBlank_prefix_line (style : Style) (line : List Char) :
    keptBlank style line <+: line := by
  unfold keptBlank
  split
  · exact rdropWhile_prefix isGap line
  · exact prefix_rfl

theorem Parts.written (h : Parts line indent content trailing) (style : Style) :
    Parts (indent ++ layoutContent style content ++
        (if style.trimTrailingWhitespace then [] else trailing))
      indent (layoutContent style content)
      (if style.trimTrailingWhitespace then [] else trailing) := by
  have hkept := layoutContent_kept style h.trimmed
  refine ⟨rfl, h.indent, ?_, ?_, hkept.trimmed⟩
  · split
    · simp
    · exact h.trailing
  · rcases hkept.head with hsame | ⟨c, rest, htext, hsign⟩
    · rw [hsame]
      exact h.head
    · exact ⟨c, rest, htext, by rcases hsign with rfl | rfl <;> decide⟩

theorem layoutLine_text (henabled : state.disabled = false)
    (hsplit : splitCarriage raw = (line, carriage))
    (hswitch : isSwitch "gtformat-disable" line = false) (hblank : allBlank line = false) :
    layoutLine style state raw = layoutText style state line carriage := by
  simp [layoutLine, hsplit, henabled, hswitch, hblank]

theorem layoutLine_blank (henabled : state.disabled = false)
    (hsplit : splitCarriage raw = (line, carriage)) (hblank : allBlank line = true) :
    layoutLine style state raw =
      if state.lastBlank = some true then ([], state)
      else ([keptBlank style line ++ carriage], { state with lastBlank := some true }) := by
  simp [layoutLine, hsplit, henabled, isSwitch_of_allBlank _ hblank, hblank, keptBlank]

theorem Parts.solid_written (h : Parts line indent content trailing) (style : Style) :
    solid (indent ++ layoutContent style content ++
      (if style.trimTrailingWhitespace then [] else trailing)) =
        solid (indent ++ content ++ trailing) := by
  simp only [solid_append, solid_layoutContent style h.trimmed, solid_gaps h.trailing,
    solid_gaps (h.written style).trailing]

/-! ## Lines with a carriage return -/

theorem eq_of_splitCarriage (h : splitCarriage raw = (line, carriage)) :
    raw = line ++ carriage ∧ (carriage = [] ∨ carriage = ['\r']) := by
  unfold splitCarriage at h
  split at h
  · rename_i hlast
    obtain ⟨rfl, rfl⟩ := Prod.mk.inj h
    exact ⟨(dropLast_append_getLast? _ (beq_iff_eq.mp hlast)).symm, .inr rfl⟩
  · obtain ⟨rfl, rfl⟩ := Prod.mk.inj h
    exact ⟨(append_nil raw).symm, .inl rfl⟩

structure CarriageParts (raw line carriage : List Char) : Prop where
  raw : raw = line ++ carriage
  line : '\r' ∉ line
  carriage : carriage = [] ∨ carriage = ['\r']

theorem CarriageParts.split {raw line carriage : List Char}
    (h : CarriageParts raw line carriage) : splitCarriage raw = (line, carriage) := by
  rw [h.raw]
  rcases h.carriage with rfl | rfl
  · have hlast : line.getLast? ≠ some '\r' := fun hl => h.line (mem_of_getLast? hl)
    simp [splitCarriage, hlast]
  · simp [splitCarriage]

theorem isBlank_carriage (h : carriage = [] ∨ carriage = ['\r']) :
    ∀ d ∈ carriage, isBlank d = true := by
  have hcarriage : isBlank '\r' = true := by decide
  rcases h with rfl | rfl <;> simp [hcarriage]

theorem isSwitch_splitCarriage (h : splitCarriage raw = (line, carriage)) (word : String) :
    isSwitch word line = isSwitch word raw := by
  obtain ⟨rfl, hcarriage⟩ := eq_of_splitCarriage h
  have htrim := trim_blanks line (a := []) (by simp) (isBlank_carriage hcarriage)
  rw [nil_append] at htrim
  simp only [isSwitch, htrim]

theorem allBlank_splitCarriage (h : splitCarriage raw = (line, carriage)) :
    allBlank line = allBlank raw := by
  obtain ⟨rfl, hcarriage⟩ := eq_of_splitCarriage h
  have hblank : carriage.all isBlank = true := all_eq_true.mpr (isBlank_carriage hcarriage)
  rw [allBlank, allBlank, all_append, hblank, Bool.and_true]

theorem allBlank_of_solid_eq {as : List Char} (h : solid as = solid cs) :
    allBlank as = allBlank cs := by
  have hsolid (ds : List Char) : allBlank ds = allBlank (solid ds) := by
    rw [allBlank, allBlank, solid, all_filter]
    refine all_congr rfl fun d => ?_
    cases hgap : isGap d with
    | true => simp [isBlank_of_isGap hgap]
    | false => simp
  rw [hsolid as, hsolid cs, h]

theorem solid_keptBlank (style : Style) (h : splitCarriage raw = (line, carriage)) :
    solid (keptBlank style line ++ carriage) = solid raw := by
  obtain ⟨rfl, -⟩ := eq_of_splitCarriage h
  rw [solid_append, solid_append]
  unfold keptBlank
  split
  · have htrailing : solid (line.rtakeWhile isGap) = [] :=
      solid_gaps fun d hd => mem_rtakeWhile_imp hd
    conv_rhs => rw [← rdropWhile_append_rtakeWhile (p := isGap) (l := line)]
    rw [solid_append, htrailing, append_nil]
    rfl
  · rfl

/-- The content of a line: what is left without the carriage return at its end, its indentation and
the gaps at its end. -/
def contentOf (raw : List Char) : List Char :=
  dropRightWhile isGap ((splitCarriage raw).1.dropWhile isGap)

def siblingOf (raw : List Char) : Sibling :=
  ⟨(raw.takeWhile isGap).count '\t', (directiveName? (contentOf raw)).isSome⟩

structure Cut (raw indent content trailing carriage : List Char) : Prop where
  split : splitCarriage raw = (indent ++ content ++ trailing, carriage)
  parts : Parts (indent ++ content ++ trailing) indent content trailing

theorem cut_exists (h : allBlank raw = false) :
    ∃ indent content trailing carriage, Cut raw indent content trailing carriage := by
  obtain ⟨line, carriage, hsplit⟩ : ∃ line carriage, splitCarriage raw = (line, carriage) :=
    ⟨_, _, rfl⟩
  obtain ⟨indent, content, trailing, hparts⟩ :=
    parts_exists ((allBlank_splitCarriage hsplit).trans h)
  have hline := hparts.line
  subst hline
  exact ⟨indent, content, trailing, carriage, hsplit, hparts⟩

namespace Cut

variable {raw indent content trailing carriage : List Char}

theorem raw_eq (h : Cut raw indent content trailing carriage) :
    raw = indent ++ content ++ trailing ++ carriage :=
  (eq_of_splitCarriage h.split).1

theorem takeWhile_eq (h : Cut raw indent content trailing carriage) :
    raw.takeWhile isGap = indent := by
  obtain ⟨c, rest, rfl, hc⟩ := h.parts.head
  rw [h.raw_eq, append_assoc, append_assoc, takeWhile_append_of_pos h.parts.indent]
  simp [hc]

theorem contentOf_eq (h : Cut raw indent content trailing carriage) : contentOf raw = content := by
  obtain ⟨c, rest, hcontent, hc⟩ := h.parts.head
  have hbody : (indent ++ content ++ trailing).dropWhile isGap = content ++ trailing := by
    rw [append_assoc, dropWhile_append_of_pos h.parts.indent, hcontent]
    simp [hc]
  rw [contentOf, h.split, hbody]
  exact (rdropWhile_append_of_forall content h.parts.trailing).trans h.parts.trimmed.rdropWhile

theorem siblingOf_eq (h : Cut raw indent content trailing carriage) :
    siblingOf raw = ⟨indent.count '\t', (directiveName? content).isSome⟩ := by
  rw [siblingOf, h.takeWhile_eq, h.contentOf_eq]

end Cut

def relaid (style : Style) (raw : List Char) : List Char :=
  let (line, carriage) := splitCarriage raw
  if allBlank raw then keptBlank style line ++ carriage
  else raw.takeWhile isGap ++ layoutContent style (contentOf raw) ++
    (if style.trimTrailingWhitespace then [] else line.rtakeWhile isGap) ++ carriage

theorem relaid_blank (style : Style) (hblank : allBlank raw = true)
    (hsplit : splitCarriage raw = (line, carriage)) :
    relaid style raw = keptBlank style line ++ carriage := by
  simp [relaid, hsplit, hblank]

namespace Cut

variable {raw indent content trailing carriage : List Char}

theorem rtakeWhile_eq (h : Cut raw indent content trailing carriage) :
    (indent ++ content ++ trailing).rtakeWhile isGap = trailing := by
  obtain ⟨c, rest, hcontent, -⟩ := h.parts.head
  have htrimmed : Trimmed (indent ++ content) := by
    intro d hd
    refine h.parts.trimmed d ?_
    rw [Option.mem_def, getLast?_append] at hd
    simpa [hcontent] using hd
  have hfront : (indent ++ content ++ trailing).rdropWhile isGap = indent ++ content :=
    (rdropWhile_append_of_forall _ h.parts.trailing).trans htrimmed.rdropWhile
  have hsplit := rdropWhile_append_rtakeWhile (p := isGap) (l := indent ++ content ++ trailing)
  rw [hfront] at hsplit
  exact append_cancel_left hsplit

theorem relaid_eq (h : Cut raw indent content trailing carriage) (hfilled : allBlank raw = false)
    (style : Style) :
    relaid style raw = indent ++ layoutContent style content ++
      (if style.trimTrailingWhitespace then [] else trailing) ++ carriage := by
  simp only [relaid, h.split, hfilled, h.takeWhile_eq, h.contentOf_eq, h.rtakeWhile_eq,
    Bool.false_eq_true, if_false]

end Cut

theorem solid_relaid (style : Style) (raw : List Char) : solid (relaid style raw) = solid raw := by
  cases hblank : allBlank raw with
  | true =>
    obtain ⟨line, carriage, hsplit⟩ : ∃ line carriage, splitCarriage raw = (line, carriage) :=
      ⟨_, _, rfl⟩
    rw [relaid_blank style hblank hsplit, solid_keptBlank style hsplit]
  | false =>
    obtain ⟨indent, content, trailing, carriage, hcut⟩ := cut_exists hblank
    rw [hcut.relaid_eq hblank, hcut.raw_eq, solid_append, solid_append _ carriage,
      hcut.parts.solid_written style]

theorem allBlank_relaid (style : Style) (raw : List Char) :
    allBlank (relaid style raw) = allBlank raw :=
  allBlank_of_solid_eq (solid_relaid style raw)

theorem isSwitch_relaid (style : Style) {word : String} (hword : isSwitch word raw = false) :
    isSwitch word (relaid style raw) = false := by
  cases hblank : allBlank raw with
  | true => exact isSwitch_of_allBlank word ((allBlank_relaid style raw).trans hblank)
  | false =>
    obtain ⟨indent, content, trailing, carriage, hcut⟩ := cut_exists hblank
    have hcontent : isSwitch word content = false := by
      rw [← hcut.parts.isSwitch, isSwitch_splitCarriage hcut.split, hword]
    -- a content that is not kept as it is starts with a sign, and no switch does
    have hlaid : isSwitch word (layoutContent style content) = false := by
      rcases (layoutContent_kept style hcut.parts.trimmed).head with
        hsame | ⟨c, rest, htext, hsign⟩
      · rw [hsame, hcontent]
      · rw [htext, isSwitch_of_sign word hsign]
    have hline := ((hcut.parts.written style).isSwitch word).trans hlaid
    have htrim := trim_blanks (a := []) (indent ++ layoutContent style content ++
      (if style.trimTrailingWhitespace then [] else trailing)) (by simp)
      (isBlank_carriage (eq_of_splitCarriage hcut.split).2)
    rw [nil_append] at htrim
    rw [hcut.relaid_eq hblank]
    simp only [isSwitch, htrim] at hline ⊢
    exact hline

/-! ## Steps -/

/-- `Lays style state raw written after`: from `state`, the line `raw` is laid out as the lines
`written`, and `after` is the state then. -/
inductive Lays (style : Style) (state : State) (raw : List Char) :
    List (List Char) → State → Prop where
  | copied (off : state.disabled = true) (word : isSwitch "gtformat-enable" raw = false) :
      Lays style state raw [raw] { state with lastBlank := some (allBlank raw) }
  | switchOn (off : state.disabled = true) (word : isSwitch "gtformat-enable" raw = true) :
      Lays style state raw [raw]
        { state with lastBlank := some false, siblings := [], disabled := false }
  | switchOff (on : state.disabled = false) (word : isSwitch "gtformat-disable" raw = true) :
      Lays style state raw [raw] { state with lastBlank := some false, disabled := true }
  | dropped (on : state.disabled = false) (blank : allBlank raw = true)
      (again : state.lastBlank = some true) : Lays style state raw [] state
  | blank (on : state.disabled = false) (blank : allBlank raw = true)
      (first : state.lastBlank ≠ some true) :
      Lays style state raw [relaid style raw] { state with lastBlank := some true }
  | comment (on : state.disabled = false) (word : isSwitch "gtformat-disable" raw = false)
      (filled : allBlank raw = false) (dashes : (contentOf raw).take 2 = ['-', '-']) :
      Lays style state raw [relaid style raw] { state with lastBlank := some false }
  | text (on : state.disabled = false) (word : isSwitch "gtformat-disable" raw = false)
      (filled : allBlank raw = false) (text : (contentOf raw).take 2 ≠ ['-', '-']) :
      Lays style state raw
        ((if separates style state (siblingOf raw) then [[]] else []) ++ [relaid style raw])
        (state.enter (siblingOf raw))

theorem allBlank_of_isSwitch {word : String} (h : isSwitch word raw = true) :
    allBlank raw = false := by
  cases hblank : allBlank raw with
  | false => rfl
  | true =>
    rw [isSwitch_of_allBlank word hblank] at h
    cases h

theorem lays_layoutLine (style : Style) (state : State) (raw : List Char) :
    Lays style state raw (layoutLine style state raw).1 (layoutLine style state raw).2 := by
  obtain ⟨line, carriage, hsplit⟩ : ∃ line carriage, splitCarriage raw = (line, carriage) :=
    ⟨_, _, rfl⟩
  have hword (word : String) := isSwitch_splitCarriage hsplit word
  have hline := allBlank_splitCarriage hsplit
  cases hstate : state.disabled with
  | true =>
    cases hon : isSwitch "gtformat-enable" raw with
    | true =>
      have hfilled := allBlank_of_isSwitch hon
      have hlays : Lays style state raw _ _ := .switchOn hstate hon
      simpa [layoutLine, hsplit, hword, hstate, hon, hfilled] using hlays
    | false =>
      have hlays : Lays style state raw _ _ := .copied hstate hon
      simpa [layoutLine, hsplit, hword, hstate, hon] using hlays
  | false =>
    cases hoff : isSwitch "gtformat-disable" raw with
    | true =>
      have hfilled := allBlank_of_isSwitch hoff
      have hlays : Lays style state raw _ _ := .switchOff hstate hoff
      simpa [layoutLine, hsplit, hword, hstate, hoff, hfilled] using hlays
    | false =>
      cases hblank : allBlank raw with
      | true =>
        rw [layoutLine_blank hstate hsplit (hline.trans hblank),
          ← relaid_blank style hblank hsplit]
        split
        · rename_i hagain
          exact .dropped hstate hblank hagain
        · rename_i hfirst
          exact .blank hstate hblank hfirst
      | false =>
        obtain ⟨indent, content, trailing, carriage, hcut⟩ := cut_exists hblank
        rw [layoutLine_text hstate hcut.split
            ((isSwitch_splitCarriage hcut.split _).trans hoff)
            ((allBlank_splitCarriage hcut.split).trans hblank), hcut.parts.layoutText,
          ← hcut.siblingOf_eq, ← hcut.relaid_eq hblank, ← hcut.contentOf_eq]
        split
        · rename_i hdashes
          exact .comment hstate hoff hblank hdashes
        · rename_i hdashes
          have hlays : Lays style state raw _ _ := .text hstate hoff hblank hdashes
          split <;> simp_all

/-- Each line that is written is an empty one, or has the ink of the line it is written for. -/
theorem Lays.solid_eq {written : List (List Char)} (h : Lays style state raw written after) :
    ∀ line ∈ written, line = [] ∨ solid line = solid raw := by
  intro line hline
  cases h with
  | copied | switchOn | switchOff => exact .inr (by rw [mem_singleton.mp hline])
  | dropped => cases hline
  | blank | comment => exact .inr (mem_singleton.mp hline ▸ solid_relaid style raw)
  | text =>
    rcases mem_append.mp hline with hempty | hline
    · split at hempty
      · exact .inl (mem_singleton.mp hempty)
      · cases hempty
    · exact .inr (mem_singleton.mp hline ▸ solid_relaid style raw)

/-- No character but gaps is written that is not in the line. -/
theorem Lays.mem {written : List (List Char)} (h : Lays style state raw written after)
    (hline : line ∈ written) (hd : d ∈ line) : isGap d = true ∨ d ∈ raw := by
  rcases h.solid_eq line hline with rfl | hsolid
  · cases hd
  · exact mem_of_solid_eq hsolid hd

/-- Only a blank line that follows another is written as no line at all. -/
theorem Lays.ne_nil {written : List (List Char)} (h : Lays style state raw written after)
    (hlast : state.lastBlank ≠ some true) : written ≠ [] := by
  cases h with
  | dropped on blank again => exact absurd again hlast
  | copied | switchOn | switchOff | blank | comment | text => simp

/-! ## Runs -/

def State.run (style : Style) (state : State) (raws : List (List Char)) : State :=
  raws.foldl (fun state raw => (layoutLine style state raw).2) state

theorem layoutLines_cons (style : Style) (state : State) (raw : List Char)
    (rest : List (List Char)) :
    layoutLines style state (raw :: rest) = (layoutLine style state raw).1 ++
      layoutLines style (layoutLine style state raw).2 rest :=
  rfl

/-- Lines are laid out one after the other: the later ones from the state that the earlier leave. -/
theorem layoutLines_append (style : Style) (state : State) (front back : List (List Char)) :
    layoutLines style state (front ++ back) =
      layoutLines style state front ++ layoutLines style (state.run style front) back := by
  induction front generalizing state with
  | nil => rfl
  | cons raw front ih =>
    rw [cons_append, layoutLines_cons, layoutLines_cons, ih, append_assoc]
    rfl

theorem mem_layoutLines {written : List Char} (hw : written ∈ layoutLines style state lines)
    (hd : d ∈ written) : isGap d = true ∨ ∃ raw ∈ lines, d ∈ raw := by
  induction lines generalizing state with
  | nil => cases hw
  | cons raw rest ih =>
    rw [layoutLines_cons, mem_append] at hw
    rcases hw with hw | hw
    · exact ((lays_layoutLine style state raw).mem hw hd).imp_right fun hmem =>
        ⟨raw, mem_cons_self, hmem⟩
    · rcases ih hw with hgap | ⟨other, hother, hmem⟩
      · exact .inl hgap
      · exact .inr ⟨other, mem_cons_of_mem raw hother, hmem⟩

theorem feed_not_mem_layoutLines (style : Style) (state : State)
    (hfeed : ∀ raw ∈ lines, '\n' ∉ raw) :
    ∀ written ∈ layoutLines style state lines, '\n' ∉ written := by
  intro written hw hn
  rcases mem_layoutLines hw hn with hgap | ⟨raw, hraw, hmem⟩
  · revert hgap
    decide
  · exact hfeed raw hraw hmem

/-- Layout brings no character into a text but gaps and line feeds. -/
theorem mem_layout (hd : d ∈ layout style cs) : d = '\n' ∨ isGap d = true ∨ d ∈ cs := by
  rw [layout_eq_finish] at hd
  rcases mem_finish hd with hfeed | ⟨written, hw, hd⟩
  · exact .inl hfeed
  · rcases mem_layoutLines hw hd with hgap | ⟨raw, hraw, hmem⟩
    · exact .inr (.inl hgap)
    · exact .inr (.inr (mem_of_mem_splitFeeds (mem_splitFeeds_of_mem_sourceLines hraw) hmem))

theorem layoutLines_ne_nil (style : Style) (h : lines ≠ []) : layoutLines style {} lines ≠ [] := by
  cases lines with
  | nil => exact absurd rfl h
  | cons raw rest =>
    intro hnil
    have hfirst := (lays_layoutLine style {} raw).ne_nil (by simp)
    exact hfirst (append_eq_nil_iff.mp hnil).1

theorem layout_nil (style : Style) : layout style [] = [] := by
  have hlines : layoutLines style {} [[]] = [[]] := by
    simp [layoutLines, layoutLine, splitCarriage, isSwitch, trim, allBlank, dropRightWhile]
  rw [layout_eq_finish, show sourceLines [] = [[]] from rfl, hlines]
  cases hinsert : style.insertFinalNewline <;> simp [finish, hinsert] <;> rfl

/-- What is laid out is a text of the lines that are written, but for blank ones at the end. -/
theorem layout_eq_fed (style : Style) (cs : List Char) :
    ∃ kept back feed, layoutLines style {} (sourceLines cs) = kept ++ back ∧
      (∀ line ∈ back, allBlank line = true) ∧ (∀ line ∈ kept, '\n' ∉ line) ∧
      layout style cs = fed feed kept := by
  obtain ⟨kept, back, feed, hlines, hblank, hfinish⟩ :=
    finish_eq_fed style (cs.getLast? == some '\n')
      (layoutLines_ne_nil style (sourceLines_ne_nil cs))
  have hfeed := feed_not_mem_layoutLines style {} fun line (hline : line ∈ sourceLines cs) =>
    feed_not_mem_sourceLines hline
  rw [hlines] at hfeed
  exact ⟨kept, back, feed, hlines, hblank, (forall_mem_append.mp hfeed).1,
    (layout_eq_finish style cs).trans hfinish⟩

end GuidedTrack.Layout
