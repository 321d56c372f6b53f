import GuidedTrack.Proofs.Layout.LineSteps

/-! # Layout is idempotent

A line that is laid out is written as lines that stay as they are when they are laid out in the same
state, and that lead to the same state. Runs of lines inherit this, prefixes of runs too, and so
does the whole text, whichever way it ends.
-/

namespace GuidedTrack.Layout

open Text List

variable {lines : List (List Char)} {raw line carriage : List Char} {s state : State}
  {style : Style}

/-! ## Settled lines -/

/-- Each of the lines is written as it stands, on the way from one state to another. -/
inductive Settled (style : Style) : State → List (List Char) → State → Prop where
  | nil {s : State} : Settled style s [] s
  | cons {s s' s'' : State} {raw : List Char} {lines : List (List Char)}
      (first : layoutLine style s raw = ([raw], s')) (rest : Settled style s' lines s'') :
      Settled style s (raw :: lines) s''

theorem Settled.append {style : Style} {s s' s'' : State} {a b : List (List Char)}
    (ha : Settled style s a s') (hb : Settled style s' b s'') : Settled style s (a ++ b) s'' := by
  induction ha with
  | nil => exact hb
  | cons first rest ih => exact .cons first (ih hb)

theorem Settled.of_append {s'' : State} {a b : List (List Char)}
    (h : Settled style s (a ++ b) s'') :
    ∃ s', Settled style s a s' := by
  induction a generalizing s with
  | nil => exact ⟨s, .nil⟩
  | cons raw a ih =>
    rw [cons_append] at h
    cases h with
    | cons first rest =>
      obtain ⟨s', hs'⟩ := ih rest
      exact ⟨s', .cons first hs'⟩

theorem Settled.layoutLines {s' : State} (h : Settled style s lines s') :
    layoutLines style s lines = lines := by
  induction h with
  | nil => rfl
  | cons first rest ih => simp [Layout.layoutLines, first, ih]

theorem Settled.single {s' : State} (h : layoutLine style s raw = ([raw], s')) :
    Settled style s [raw] s' :=
  .cons h .nil

theorem layoutLine_empty (henabled : state.disabled = false)
    (hlast : state.lastBlank = some false) :
    layoutLine style state [] = ([[]], { state with lastBlank := some true }) := by
  simp [layoutLine, splitCarriage, henabled, hlast, isSwitch, trim, allBlank, dropRightWhile]

/-- The line written for a line with content is laid out like that line. -/
theorem Parts.layoutLine_written {indent content trailing : List Char}
    (h : Parts line indent content trailing)
    (hcarriage : CarriageParts (line ++ carriage) line carriage)
    (hswitch : Layout.isSwitch "gtformat-disable" line = false)
    (hblank : Text.allBlank line = false) (style : Style) (henabled : state.disabled = false) :
    layoutLine style state (indent ++ layoutContent style content ++
        (if style.trimTrailingWhitespace then [] else trailing) ++ carriage) =
      Layout.layoutText style state line carriage := by
  have hkept := layoutContent_kept style h.trimmed
  have h' := h.written style
  have hkeep : (if style.trimTrailingWhitespace then []
        else (if style.trimTrailingWhitespace then [] else trailing)) =
      (if style.trimTrailingWhitespace then [] else trailing) := by
    split <;> rfl
  have hswitch' : Layout.isSwitch "gtformat-disable" (layoutContent style content) = false := by
    rcases hkept.head with hsame | ⟨c, rest, htext, hsign⟩
    · rw [hsame, ← h.isSwitch, hswitch]
    · rw [htext, isSwitch_of_sign _ hsign]
  have hblank' : Text.allBlank (layoutContent style content) = false := by
    rcases hkept.head with hsame | ⟨c, rest, htext, hsign⟩
    · rw [hsame, ← h.allBlank, hblank]
    · rw [htext]
      rcases hsign with rfl | rfl <;> rfl
  have hreturn : '\r' ∉ indent ++ layoutContent style content ++
      (if style.trimTrailingWhitespace then [] else trailing) := by
    have hgap : isGap '\r' = false := by decide
    intro hmem
    rcases mem_append.mp hmem with hmem | hmem
    · rcases mem_append.mp hmem with hmem | hmem
      · simp [h.indent _ hmem] at hgap
      · rcases hkept.mem _ hmem with hg | hmem
        · simp [hg] at hgap
        · exact hcarriage.line (by simp [h.line, hmem])
    · simp [h'.trailing _ hmem] at hgap
  have hsplit : CarriageParts (_ ++ carriage) _ carriage := ⟨rfl, hreturn, hcarriage.carriage⟩
  rw [layoutLine_text henabled hsplit.split (by rw [h'.isSwitch, hswitch'])
    (by rw [h'.allBlank, hblank']), h.layoutText, h'.layoutText, hkept.again, hkept.keyword, hkeep]
  simp only [hkept.dashes]

theorem settled_layoutText (henabled : state.disabled = false)
    (hcarriage : CarriageParts (line ++ carriage) line carriage)
    (hswitch : isSwitch "gtformat-disable" line = false) (hblank : allBlank line = false) :
    Settled style state (layoutText style state line carriage).1
      (layoutText style state line carriage).2 := by
  obtain ⟨indent, content, trailing, hparts⟩ := parts_exists hblank
  have hagain {s : State} (hs : s.disabled = false) :=
    hparts.layoutLine_written hcarriage hswitch hblank style hs
  simp only [hparts.layoutText] at hagain ⊢
  split
  · rename_i hdashes
    simp only [hdashes, if_true] at hagain
    exact .single (hagain henabled)
  · rename_i hdashes
    simp only [hdashes, if_false] at hagain
    split
    · rename_i hseparates
      have hlast : state.lastBlank = some false := by
        simp only [separates, Bool.and_eq_true, beq_iff_eq] at hseparates
        exact hseparates.2
      refine .cons (layoutLine_empty henabled hlast) (.single ?_)
      rw [hagain (s := { state with lastBlank := some true }) henabled]
      simp [separates, State.enter]
    · rename_i hseparates
      rw [Bool.not_eq_true] at hseparates
      refine .single ?_
      rw [hagain henabled, hseparates]
      rfl

theorem keptBlank_keptBlank (style : Style) (line : List Char) :
    keptBlank style (keptBlank style line) = keptBlank style line := by
  unfold keptBlank
  split
  · exact rdropWhile_idempotent isGap line
  · rfl

theorem settled_layoutLine_blank (henabled : state.disabled = false)
    (hcarriage : CarriageParts raw line carriage) (hblank : allBlank line = true) :
    Settled style state (layoutLine style state raw).1 (layoutLine style state raw).2 := by
  have hsubset := (keptBlank_prefix_line style line).subset
  have hcarriage' :
      CarriageParts (keptBlank style line ++ carriage) (keptBlank style line) carriage :=
    ⟨rfl, fun hmem => hcarriage.line (hsubset hmem), hcarriage.carriage⟩
  have hblank' : allBlank (keptBlank style line) = true := by
    simp only [allBlank, all_eq_true] at hblank ⊢
    exact fun d hd => hblank d (hsubset hd)
  rw [layoutLine_blank henabled hcarriage.split hblank]
  split
  · exact .nil
  · rename_i hlast
    refine .single ?_
    rw [layoutLine_blank henabled hcarriage'.split hblank', if_neg hlast, keptBlank_keptBlank]

/-- The step lemma: the lines written for a line are settled. -/
theorem settled_layoutLine (style : Style) (state : State) (h : CarriageParts raw line carriage) :
    Settled style state (layoutLine style state raw).1 (layoutLine style state raw).2 := by
  have copied (hraw : (layoutLine style state raw).1 = [raw]) :
      Settled style state (layoutLine style state raw).1 (layoutLine style state raw).2 := by
    rw [hraw]
    exact .single (Prod.ext hraw rfl)
  cases hdisabled : state.disabled with
  | true =>
    apply copied
    simp only [layoutLine, h.split, hdisabled, if_true]
    split <;> rfl
  | false =>
    cases hswitch : isSwitch "gtformat-disable" line with
    | true =>
      apply copied
      simp [layoutLine, h.split, hdisabled, hswitch]
    | false =>
      cases hblank : allBlank line with
      | true => exact settled_layoutLine_blank hdisabled h hblank
      | false =>
        rw [layoutLine_text hdisabled h.split hswitch hblank]
        exact settled_layoutText hdisabled (h.raw ▸ h) hswitch hblank

/-- The run lemma: all lines written for some lines are settled. -/
theorem settled_layoutLines (style : Style) (state : State)
    (h : ∀ raw ∈ lines, ∃ line carriage, CarriageParts raw line carriage) :
    ∃ state', Settled style state (layoutLines style state lines) state' := by
  induction lines generalizing state with
  | nil => exact ⟨state, .nil⟩
  | cons raw rest ih =>
    obtain ⟨line, carriage, hraw⟩ := h raw mem_cons_self
    obtain ⟨state', hrest⟩ := ih (layoutLine style state raw).2
      fun r hr => h r (mem_cons_of_mem raw hr)
    exact ⟨state', (settled_layoutLine style state hraw).append hrest⟩

/-! ## Carriage returns before line feeds -/

def CarriageBeforeFeed (cs : List Char) : Prop :=
  ∀ i, cs[i]? = some '\r' → cs[i + 1]? = some '\n'

instance (cs : List Char) : Decidable (CarriageBeforeFeed cs) :=
  decidable_of_iff (∀ i < cs.length, cs[i]? = some '\r' → cs[i + 1]? = some '\n')
    ⟨fun h i hi => h i (List.getElem?_eq_some_iff.mp hi).choose hi, fun h i _ => h i⟩

theorem carriageParts_of_mem_splitFeeds {cs : List Char} (h : CarriageBeforeFeed cs)
    (hraw : raw ∈ splitFeeds cs) : ∃ line carriage, CarriageParts raw line carriage := by
  induction cs generalizing raw with
  | nil =>
    rw [mem_singleton.mp hraw]
    exact ⟨[], [], rfl, by simp, .inl rfl⟩
  | cons c rest ih =>
    have hrest : CarriageBeforeFeed rest := fun i hi => h (i + 1) hi
    simp only [splitFeeds] at hraw
    split at hraw
    · rcases mem_cons.mp hraw with rfl | hraw
      · exact ⟨[], [], rfl, by simp, .inl rfl⟩
      · exact ih hrest hraw
    · cases hsplit : splitFeeds rest with
      | nil => exact absurd hsplit (splitFeeds_ne_nil rest)
      | cons first more =>
        simp only [hsplit] at hraw ih
        rcases mem_cons.mp hraw with rfl | hraw
        · by_cases hc : c = '\r'
          · -- the line feed that must follow ends the line at once
            subst hc
            obtain ⟨tail, rfl⟩ : ∃ tail, rest = '\n' :: tail := by
              have hnext : rest[0]? = some '\n' := h 0 rfl
              cases rest with
              | nil => cases hnext
              | cons d tail => exact ⟨tail, by rw [Option.some.inj hnext]⟩
            simp only [splitFeeds, beq_self_eq_true, if_true] at hsplit
            obtain ⟨rfl, -⟩ := List.cons.inj hsplit
            exact ⟨[], ['\r'], rfl, by simp, .inr rfl⟩
          · obtain ⟨line, carriage, hfirst⟩ := ih hrest mem_cons_self
            refine ⟨c :: line, carriage, by rw [hfirst.raw]; rfl, ?_, hfirst.carriage⟩
            simpa [eq_comm, hc] using hfirst.line
        · exact ih hrest (mem_cons_of_mem first hraw)

/-! ## The whole text -/

theorem layout_joinFeeds_feed (hne : lines ≠ []) (hfeed : ∀ line ∈ lines, '\n' ∉ line)
    (h : Settled style {} lines state) :
    layout style (joinFeeds lines ++ ['\n']) = finish style true lines := by
  have hlines := sourceLines_fed hne hfeed
  rw [fed_eq_joinFeeds true hne, if_pos rfl] at hlines
  have hlast : ((joinFeeds lines ++ ['\n']).getLast? == some '\n') = true := by simp
  rw [layout_eq_finish, hlines, h.layoutLines, hlast]

theorem layout_joinFeeds (hne : lines ≠ []) (hfeed : ∀ line ∈ lines, '\n' ∉ line)
    (hlast : (joinFeeds lines).getLast? ≠ some '\n') (h : Settled style {} lines state) :
    layout style (joinFeeds lines) = finish style false lines := by
  have hlines : sourceLines (joinFeeds lines) = lines := by
    simp [sourceLines, hlast, splitFeeds_joinFeeds hne hfeed]
  have hlast' : ((joinFeeds lines).getLast? == some '\n') = false := by simpa using hlast
  rw [layout_eq_finish, hlines, h.layoutLines, hlast']

theorem layout_finish_of_insert (hinsert : style.insertFinalNewline = true) (feed : Bool)
    (hfeed : ∀ line ∈ lines, '\n' ∉ line) (hsettled : Settled style {} lines state) :
    layout style (finish style feed lines) = finish style feed lines := by
  by_cases hkept : dropBlankEnd lines = []
  · have hnil : finish style feed lines = [] := by simp [finish, hinsert, hkept]
    rw [hnil, layout_nil]
  · -- what is kept at the end is a prefix, so it is settled too
    obtain ⟨rest, hrest⟩ := dropBlankEnd_prefix_self lines
    obtain ⟨state', hprefix⟩ := Settled.of_append (hrest ▸ hsettled)
    have hagain : dropBlankEnd (dropBlankEnd lines) ≠ [] := by
      rwa [dropBlankEnd_dropBlankEnd]
    rw [finish_of_insert hinsert feed hkept,
      layout_joinFeeds_feed hkept
        (fun line hline => hfeed line ((dropBlankEnd_prefix_self lines).subset hline)) hprefix,
      finish_of_insert hinsert true hagain, dropBlankEnd_dropBlankEnd]

theorem layout_finish_of_keep (hkeep : style.insertFinalNewline = false) (feed : Bool)
    (hne : lines ≠ []) (hfeed : ∀ line ∈ lines, '\n' ∉ line)
    (hsettled : Settled style {} lines state) :
    layout style (finish style feed lines) = finish style feed lines := by
  rw [finish_of_keep hkeep]
  cases feed with
  | true =>
    rw [if_pos rfl, layout_joinFeeds_feed hne hfeed hsettled, finish_of_keep hkeep, if_pos rfl]
  | false =>
    rw [if_neg Bool.false_ne_true, append_nil]
    obtain ⟨init, last, rfl⟩ : ∃ init last, lines = init ++ [last] :=
      ⟨_, _, (dropLast_append_getLast hne).symm⟩
    by_cases hempty : last = [] ∧ init ≠ []
    · -- an empty last line reads as a line feed at the end the second time
      obtain ⟨rfl, hinit⟩ := hempty
      obtain ⟨state', hprefix⟩ := hsettled.of_append
      rw [joinFeeds_concat_nil hinit, layout_joinFeeds_feed hinit
        (fun line hline => hfeed line (mem_append_left _ hline)) hprefix,
        finish_of_keep hkeep, if_pos rfl]
    · have hlast : (joinFeeds (init ++ [last])).getLast? ≠ some '\n' := by
        by_cases hl : last = []
        · have hinit : init = [] := by
            by_contra hinit
            exact hempty ⟨hl, hinit⟩
          simp [hl, hinit, joinFeeds]
        · rw [getLast?_joinFeeds init hl]
          exact fun hmem => hfeed last (by simp) (mem_of_getLast? hmem)
      rw [layout_joinFeeds hne hfeed hlast hsettled, finish_of_keep hkeep,
        if_neg Bool.false_ne_true, append_nil]

theorem layout_layout (style : Style) {cs : List Char} (h : CarriageBeforeFeed cs) :
    layout style (layout style cs) = layout style cs := by
  have hcarriage : ∀ raw ∈ sourceLines cs, ∃ line carriage, CarriageParts raw line carriage :=
    fun raw hraw => carriageParts_of_mem_splitFeeds h (mem_splitFeeds_of_mem_sourceLines hraw)
  have hsource : ∀ raw ∈ sourceLines cs, '\n' ∉ raw :=
    fun raw hraw => feed_not_mem_of_mem_splitFeeds (mem_splitFeeds_of_mem_sourceLines hraw)
  have hne := layoutLines_ne_nil style (sourceLines_ne_nil cs)
  have hfeed := feed_not_mem_layoutLines style {} hsource
  obtain ⟨state, hsettled⟩ := settled_layoutLines style {} hcarriage
  rw [layout_eq_finish style cs]
  cases hfinal : style.insertFinalNewline with
  | true => exact layout_finish_of_insert hfinal _ hfeed hsettled
  | false => exact layout_finish_of_keep hfinal _ hne hfeed hsettled

/-- Layout is idempotent on every text in which a carriage return stands only right before a line
feed. -/
theorem format_idempotent (style : Style) (source : String)
    (h : CarriageBeforeFeed source.toList) :
    format style (format style source) = format style source := by
  simp only [format, String.toList_ofList, layout_layout style h]

/-- Every kind of line, with both kinds of line breaks. -/
theorem format_idempotent_mixed :
    let source := "*if:x ,( y\r\n\ta \r\n\r\n\r\n>>a -1->- b  -- c\n--gtformat-disable\r\n x \n"
    CarriageBeforeFeed source.toList ∧ format {} (format {} source) = format {} source := by
  intro source
  have h : CarriageBeforeFeed source.toList := by
    unfold source
    decide
  exact ⟨h, format_idempotent {} source h⟩

end GuidedTrack.Layout
