import GuidedTrack.Proofs.Layout.BlockSeparation

/-! # Ends of lines

A text may end its lines with a carriage return and a line feed. Layout takes the carriage return
off a line and puts it back, but it puts none on the empty lines that separate blocks, nor before a
line feed at the end of the text. These two apart, lines keep their ends.
-/

namespace GuidedTrack.Layout

open Text List

variable {back front kept : List (List Char)} {cs line raw : List Char} {i : Nat} {style : Style}

/-! ## Texts with carriage returns -/

def Carried (cs : List Char) : Prop :=
  ∀ i < cs.length, cs[i]? = some '\n' → 0 < i ∧ cs[i - 1]? = some '\r'

instance (cs : List Char) : Decidable (Carried cs) :=
  inferInstanceAs (Decidable (∀ i < cs.length, _ → _ ∧ _))

theorem carried_of_feed_not_mem (h : '\n' ∉ cs) : Carried cs :=
  fun _ _ hfeed => absurd (mem_of_getElem? hfeed) h

theorem carried_line (h : '\n' ∉ line) (rest : List Char) :
    Carried (line ++ '\n' :: rest) ↔ line.getLast? = some '\r' ∧ Carried rest := by
  have hrest (i : Nat) : (line ++ '\n' :: rest)[line.length + 1 + i]? = rest[i]? := by
    rw [getElem?_append_right (by omega),
      show line.length + 1 + i - line.length = i + 1 by omega, getElem?_cons_succ]
  have hfeed : (line ++ '\n' :: rest)[line.length]? = some '\n' := by simp
  have hlast (hpos : 0 < line.length) :
      (line ++ '\n' :: rest)[line.length - 1]? = line.getLast? := by
    rw [getElem?_append_left (by omega), getLast?_eq_getElem?]
  constructor
  · intro hcarried
    obtain ⟨hpos, hcarriage⟩ := hcarried line.length (by simp) hfeed
    refine ⟨(hlast hpos).symm.trans hcarriage, fun i hi hat => ?_⟩
    have hprevious := (hcarried (line.length + 1 + i) (by simp; omega) ((hrest i).trans hat)).2
    cases i with
    | zero =>
      -- right before it stands the line feed behind the line
      rw [Nat.add_zero, Nat.add_sub_cancel, hfeed] at hprevious
      cases hprevious
    | succ i =>
      rw [show line.length + 1 + (i + 1) - 1 = line.length + 1 + i by omega, hrest] at hprevious
      exact ⟨by omega, hprevious⟩
  · rintro ⟨hcarriage, hcarried⟩ i hi hat
    rcases Nat.lt_trichotomy i line.length with hlt | rfl | hlt
    · rw [getElem?_append_left hlt] at hat
      exact absurd (mem_of_getElem? hat) h
    · have hpos : 0 < line.length := by
        cases line with
        | nil => cases hcarriage
        | cons c cs => simp
      exact ⟨hpos, (hlast hpos).trans hcarriage⟩
    · obtain ⟨k, rfl⟩ := Nat.exists_eq_add_of_le hlt
      rw [Nat.succ_eq_add_one, hrest] at hat
      obtain ⟨hpos, hprevious⟩ := hcarried k (List.getElem?_eq_some_iff.mp hat).1 hat
      refine ⟨by omega, ?_⟩
      rw [Nat.succ_eq_add_one, show line.length + 1 + k - 1 = line.length + 1 + (k - 1) by omega,
        hrest, hprevious]

/-- In terms of lines: each has a carriage return at its end, but for a last one with no line
feed. -/
theorem carried_fed_iff (feed : Bool) {lines : List (List Char)}
    (hfeed : ∀ line ∈ lines, '\n' ∉ line) :
    Carried (fed feed lines) ↔
      ∀ line ∈ if feed then lines else lines.dropLast, line.getLast? = some '\r' := by
  induction lines with
  | nil => simp [fed, Carried]
  | cons line rest ih =>
    obtain ⟨hline, hrest⟩ := forall_mem_cons.mp hfeed
    have ih := ih hrest
    cases rest with
    | nil =>
      cases feed with
      | false => simp [fed, carried_of_feed_not_mem hline]
      | true =>
        rw [show fed true [line] = line ++ '\n' :: [] by simp [fed], carried_line hline]
        simp [Carried]
    | cons next rest =>
      rw [show fed feed (line :: next :: rest) = line ++ '\n' :: fed feed (next :: rest) by
        simp [fed], carried_line hline, ih]
      cases feed <;> simp

theorem carriage_lineAt (h : Carried cs) (hi : i < (sourceLines cs).length)
    (hnext : cs.getLast? = some '\n' ∨ i + 1 < (sourceLines cs).length) :
    (lineAt (sourceLines cs) i).getLast? = some '\r' := by
  have hlines := fun line (hline : line ∈ sourceLines cs) => feed_not_mem_sourceLines hline
  rw [← fed_sourceLines cs, carried_fed_iff _ hlines] at h
  refine h _ ?_
  rw [lineAt, getElem?_eq_getElem hi, Option.getD_some]
  split
  · exact getElem_mem hi
  · rename_i hfeed
    have hlt : i < (sourceLines cs).dropLast.length := by
      rw [length_dropLast]
      have := hnext.resolve_left (by simpa using hfeed)
      omega
    rw [← getElem_dropLast hlt]
    exact getElem_mem hlt

/-! ## Lines with carriage returns -/

theorem Trimmed.getLast?_solid (h : Trimmed cs) : (solid cs).getLast? = cs.getLast? := by
  rcases eq_nil_or_concat cs with rfl | ⟨front, c, rfl⟩
  · rfl
  · rw [concat_eq_append] at h ⊢
    have hc : isGap c = false := h c (by simp)
    rw [solid_append, show solid [c] = [c] by simp [solid, hc], getLast?_concat,
      getLast?_concat]

theorem carriage_relaid (h : raw.getLast? = some '\r') :
    (relaid style raw).getLast? = some '\r' := by
  have hsplit : splitCarriage raw = (raw.dropLast, ['\r']) := by simp [splitCarriage, h]
  simp only [relaid, hsplit]
  split <;> simp

/-- The line that is written for a line with content ends with a carriage return just where the line
does, or where its content does and gaps are taken from its end. -/
theorem carriage_relaid_iff (hfilled : allBlank raw = false) :
    (relaid style raw).getLast? = some '\r' ↔ raw.getLast? = some '\r' ∨
      style.trimTrailingWhitespace = true ∧ (contentOf raw).getLast? = some '\r' := by
  by_cases hraw : raw.getLast? = some '\r'
  · exact iff_of_true (carriage_relaid hraw) (.inl hraw)
  -- with no carriage return to put back, the line ends as its content or the gaps behind it do
  obtain ⟨indent, content, trailing, carriage, hcut⟩ := cut_exists hfilled
  have hcarriage : carriage = [] := by
    have hsplit : splitCarriage raw = (raw, []) := by simp [splitCarriage, hraw]
    exact (Prod.mk.inj (hcut.split.symm.trans hsplit)).2
  have htrimmed := hcut.parts.trimmed
  have hkept := layoutContent_kept style htrimmed
  have hcontent : (layoutContent style content).getLast? = content.getLast? := by
    rw [← hkept.trimmed.getLast?_solid, solid_layoutContent style htrimmed, htrimmed.getLast?_solid]
  obtain ⟨c, rest, hhead, -⟩ := hcut.parts.head
  obtain ⟨d, hlast⟩ : ∃ d, content.getLast? = some d := ⟨_, by rw [hhead, getLast?_cons]⟩
  rw [hcut.relaid_eq hfilled, hcut.contentOf_eq, hcarriage, append_nil]
  have hraw' : raw.getLast? = (trailing.getLast?.or (some d)) := by
    rw [hcut.raw_eq, hcarriage, append_nil, getLast?_append, getLast?_append, hlast,
      Option.some_or]
  cases htrim : style.trimTrailingWhitespace with
  | true =>
    rw [if_pos rfl, append_nil, getLast?_append, hcontent, hlast, Option.some_or]
    simp [hraw]
  | false =>
    rw [if_neg Bool.false_ne_true, getLast?_append, getLast?_append, hcontent, hlast,
      Option.some_or, ← hraw']
    simp

section

variable {style : Style} {raws : List (List Char)} {i : Nat}

theorem carriage_keptLine {before : List (List Char)} (h : (lineAt raws i).getLast? = some '\r') :
    ∀ line ∈ keptLine style raws before i, line.getLast? = some '\r' := by
  intro line hline
  unfold keptLine at hline
  split at hline
  · rwa [mem_singleton.mp hline]
  split at hline
  · cases hline
  · rw [mem_singleton.mp hline, carriage_relaid h]

/-- For line `i` a line is written that ends with a carriage return: the line does, or gaps behind
one are taken from its end. -/
def KeepsCarriage (style : Style) (raws : List (List Char)) (i : Nat) : Prop :=
  (lineAt raws i).getLast? = some '\r' ∨ style.trimTrailingWhitespace = true ∧ ¬ Inside raws i ∧
    (contentOf (lineAt raws i)).getLast? = some '\r'

theorem keptLine_cases (style : Style) (raws before : List (List Char)) (i : Nat) :
    keptLine style raws before i = [] ∨ ∃ line, keptLine style raws before i = [line] := by
  unfold keptLine
  split
  · exact .inr ⟨_, rfl⟩
  split
  · exact .inl rfl
  · exact .inr ⟨_, rfl⟩

theorem keptLine_filled (style : Style) (before : List (List Char))
    (h : allBlank (lineAt raws i) = false) :
    ∃ line, keptLine style raws before i = [line] ∧ allBlank line = false ∧
      (line.getLast? = some '\r' ↔ KeepsCarriage style raws i) := by
  unfold keptLine KeepsCarriage
  by_cases hinside : Inside raws i
  · exact ⟨_, if_pos hinside, h, by simp [hinside]⟩
  · refine ⟨relaid style (lineAt raws i), by simp [hinside, h],
      (allBlank_relaid style _).trans h, ?_⟩
    rw [carriage_relaid_iff h]
    simp [hinside]

theorem mem_layoutLines_take (h : i ≤ raws.length) :
    ∀ line ∈ layoutLines style {} (raws.take i),
      (∃ j < i, Separates raws style (layoutLines style {} (raws.take j)) j) ∨
        ∃ j < i, line ∈ keptLine style raws (layoutLines style {} (raws.take j)) j := by
  induction i with
  | zero => simp [layoutLines]
  | succ i ih =>
    intro line hline
    rw [layoutLines_take_succ style h, mem_append, mem_append] at hline
    rcases hline with hline | hline | hline
    · rcases ih (Nat.le_of_succ_le h) line hline with ⟨j, hj, hseparates⟩ | ⟨j, hj, hkept⟩
      · exact .inl ⟨j, by omega, hseparates⟩
      · exact .inr ⟨j, by omega, hkept⟩
    · split at hline
      · rename_i hseparates
        exact .inl ⟨i, by omega, hseparates⟩
      · cases hline
    · exact .inr ⟨i, by omega, hline⟩

end

/-! ## Line feeds without carriage returns -/

theorem exists_eq_append_of_filled {later : List (List Char)}
    (h : front ++ line :: later = kept ++ back) (hback : ∀ other ∈ back, allBlank other = true)
    (hfilled : allBlank line = false) : ∃ more, kept = front ++ line :: more := by
  have hline : line ∉ back := fun hmem => by simp [hback line hmem] at hfilled
  rcases append_eq_append_iff.mp h with ⟨as, hkept, hlater⟩ | ⟨cs, -, rfl⟩
  · cases as with
    | nil =>
      rw [nil_append] at hlater
      exact absurd (hlater ▸ mem_cons_self) hline
    | cons first more =>
      obtain ⟨rfl, -⟩ := List.cons.inj hlater
      exact ⟨more, hkept⟩
  · simp at hline

theorem exists_kept_eq (style : Style) {raws : List (List Char)} (hi : i < raws.length)
    (hfilled : allBlank (lineAt raws i) = false) (hlines : layoutLines style {} raws = kept ++ back)
    (hback : ∀ other ∈ back, allBlank other = true) :
    let before := layoutLines style {} (raws.take i)
    ∃ line more, (line.getLast? = some '\r' ↔ KeepsCarriage style raws i) ∧
      kept = before ++ (if Separates raws style before i then [[]] else []) ++ line :: more := by
  intro before
  obtain ⟨line, hkept, hline, hcarriage⟩ := keptLine_filled style before hfilled
  have hwritten := layoutLines_append style {} (raws.take (i + 1)) (raws.drop (i + 1))
  rw [take_append_drop, hlines, layoutLines_take_succ style hi, hkept, ← append_assoc,
    append_assoc _ [line], singleton_append] at hwritten
  obtain ⟨more, hmore⟩ := exists_eq_append_of_filled hwritten.symm hback hline
  exact ⟨line, more, hcarriage, hmore⟩

section

variable {style : Style} {cs : List Char} {i : Nat}

theorem not_carried_of_separates (hi : i < (sourceLines cs).length)
    (h : Separates (sourceLines cs) style (layoutLines style {} ((sourceLines cs).take i)) i) :
    ¬ Carried (layout style cs) := by
  obtain ⟨kept, back, feed, hlines, hback, hfeed, hlayout⟩ := layout_eq_fed style cs
  obtain ⟨line, more, -, hkept⟩ := exists_kept_eq style hi h.active.filled hlines hback
  rw [if_pos h] at hkept
  rw [hlayout, carried_fed_iff feed hfeed, hkept]
  intro hcarried
  have hempty := hcarried [] (by cases feed <;> simp)
  cases hempty

theorem keepsCarriage_of_carried (hinsert : style.insertFinalNewline = true)
    (hi : i < (sourceLines cs).length) (hfilled : allBlank (lineAt (sourceLines cs) i) = false)
    (h : Carried (layout style cs)) : KeepsCarriage style (sourceLines cs) i := by
  have hsplit : layoutLines style {} (sourceLines cs) = dropBlankEnd _ ++ rtakeWhile _ _ :=
    rdropWhile_append_rtakeWhile.symm
  obtain ⟨line, more, hcarriage, hkept⟩ :=
    exists_kept_eq style hi hfilled hsplit fun other hother => mem_rtakeWhile_imp hother
  have hfeed := feed_not_mem_layoutLines style {} fun line (hline : line ∈ sourceLines cs) =>
    feed_not_mem_sourceLines hline
  rw [layout_eq_finish, finish_eq_fed_of_insert hinsert, carried_fed_iff true fun other hother =>
    hfeed other ((dropBlankEnd_prefix_self _).subset hother), if_pos rfl] at h
  exact hcarriage.mp (h line (by rw [hkept]; simp))

/-- Where a last line may have no carriage return, the line feeds before it have one, and so has one
behind it if the line itself has. -/
theorem carried_finish (style : Style) (feed : Bool) (hne : front ++ back ≠ [])
    (hfeed : ∀ line ∈ front ++ back, '\n' ∉ line)
    (hfront : ∀ line ∈ front, line.getLast? = some '\r') (hback : back = [] ∨ ∃ last, back = [last])
    (hlast : ∀ line ∈ back, feed = true ∨ style.insertFinalNewline = true ∧ allBlank line = false →
      line.getLast? = some '\r') : Carried (finish style feed (front ++ back)) := by
  rcases hback with rfl | ⟨last, rfl⟩
  · obtain ⟨kept, back, feed', hlines, -, hfinish⟩ := finish_eq_fed style feed hne
    rw [append_nil] at hlines hfeed
    have hkept : ∀ line ∈ kept, line ∈ front := fun line hline =>
      hlines ▸ mem_append_left back hline
    rw [hfinish, carried_fed_iff feed' fun line hline => hfeed line (hkept line hline)]
    intro line hline
    refine hfront line (hkept line ?_)
    split at hline
    · exact hline
    · exact dropLast_subset _ hline
  · have hlast := hlast last mem_cons_self
    cases hinsert : style.insertFinalNewline with
    | false =>
      rw [finish_eq_fed_of_keep hinsert feed hne, carried_fed_iff feed hfeed]
      cases feed with
      | false => simpa using hfront
      | true => simpa [or_imp, forall_and] using ⟨hfront, hlast (.inl rfl)⟩
    | true =>
      rw [finish_eq_fed_of_insert hinsert, carried_fed_iff true fun line hline =>
        hfeed line ((dropBlankEnd_prefix_self _).subset hline), if_pos rfl]
      intro line hline
      cases hfilled : allBlank last with
      | true =>
        -- the last line is left out, and the line feed is put behind one before it
        have hdrop : dropBlankEnd (front ++ [last]) = dropBlankEnd front :=
          rdropWhile_append_of_forall front (by simpa using hfilled)
        rw [hdrop] at hline
        exact hfront line ((dropBlankEnd_prefix_self front).subset hline)
      | false =>
        rcases mem_append.mp ((dropBlankEnd_prefix_self _).subset hline) with hline | hline
        · exact hfront line hline
        · rw [mem_singleton.mp hline, hlast (.inr ⟨hinsert, hfilled⟩)]

/-- With no line that separates blocks, and a carriage return before a line feed that is put at the
end, all line feeds keep theirs. -/
theorem carried_layout (hcs : Carried cs)
    (hnone : ∀ i < (sourceLines cs).length,
      ¬ Separates (sourceLines cs) style (layoutLines style {} ((sourceLines cs).take i)) i)
    (hlast : style.insertFinalNewline = true → ∀ i, i + 1 = (sourceLines cs).length →
      allBlank (lineAt (sourceLines cs) i) = false → KeepsCarriage style (sourceLines cs) i) :
    Carried (layout style cs) := by
  obtain ⟨n, hn⟩ : ∃ n, n + 1 = (sourceLines cs).length :=
    ⟨_, Nat.sub_add_cancel (length_pos_of_ne_nil (sourceLines_ne_nil cs))⟩
  have hwritten : layoutLines style {} (sourceLines cs) =
      layoutLines style {} ((sourceLines cs).take n) ++ keptLine style (sourceLines cs)
        (layoutLines style {} ((sourceLines cs).take n)) n := by
    conv_lhs => rw [← take_length (l := sourceLines cs), ← hn]
    rw [layoutLines_take_succ style (by omega), if_neg (hnone n (by omega)), nil_append]
  have hne := layoutLines_ne_nil style (sourceLines_ne_nil cs)
  have hfeed := feed_not_mem_layoutLines style {} fun line (hline : line ∈ sourceLines cs) =>
    feed_not_mem_sourceLines hline
  rw [layout_eq_finish]
  rw [hwritten] at hne hfeed ⊢
  refine carried_finish style _ hne hfeed (fun line hline => ?_) (keptLine_cases style _ _ n)
    fun line hline hend => ?_
  · rcases mem_layoutLines_take (by omega) line hline with ⟨j, hj, hseparates⟩ | ⟨j, hj, hkept⟩
    · exact absurd hseparates (hnone j (by omega))
    · exact carriage_keptLine (carriage_lineAt hcs (by omega) (.inr (by omega))) line hkept
  · rcases hend with hend | ⟨hinsert, hfilled⟩
    · exact carriage_keptLine (carriage_lineAt hcs (by omega) (.inl (beq_iff_eq.mp hend)))
        line hline
    · rw [allBlank_of_solid_eq (solid_keptLine _ line hline)] at hfilled
      obtain ⟨last, hkept, -, hcarriage⟩ := keptLine_filled style
        (layoutLines style {} ((sourceLines cs).take n)) hfilled
      rw [hkept] at hline
      rw [mem_singleton.mp hline]
      exact hcarriage.mpr (hlast hinsert n hn hfilled)

end

/-- In a text with a carriage return before each line feed, layout leaves it so just if it puts no
empty line between blocks and, where it puts a line feed at the end, the last line has a carriage
return to keep. -/
theorem format_carried_iff (style : Style) (source : String) (h : Carried source.toList) :
    let raws := sourceLines source.toList
    Carried (format style source).toList ↔
      (∀ i < raws.length, ¬ Separates raws style (layoutLines style {} (raws.take i)) i) ∧
      (style.insertFinalNewline = true → ∀ i, i + 1 = raws.length →
        allBlank (lineAt raws i) = false → KeepsCarriage style raws i) := by
  intro raws
  have hformat : (format style source).toList = layout style source.toList := by simp [format]
  rw [hformat]
  constructor
  · intro hcarried
    refine ⟨fun i hi hseparates => not_carried_of_separates hi hseparates hcarried, ?_⟩
    exact fun hinsert i hi hfilled =>
      keepsCarriage_of_carried hinsert (show i < raws.length by omega) hfilled hcarried
  · rintro ⟨hnone, hlast⟩
    exact carried_layout h hnone hlast

/-- Two blocks with a blank line between them, and a last line with no line feed. -/
theorem format_carried_iff_blocks :
    let source := "a\r\n\tb \r\n \r\nc\r"
    Carried source.toList ∧ format {} source = "a\r\n\tb\r\n\r\nc\r\n" ∧
      Carried (format {} source).toList := by
  intro source
  have hsource : Carried source.toList := by decide
  refine ⟨hsource, by decide, (format_carried_iff {} source hsource).mpr ⟨by decide, ?_⟩⟩
  intro _ i hi _
  have hlength : (sourceLines source.toList).length = 4 := by decide
  obtain rfl : i = 3 := by omega
  exact .inl (by decide)

/-- Between two blocks a line feed is put with no carriage return. -/
theorem format_not_carried :
    let source := "a\r\n\tb\r\nc\r\n"
    Carried source.toList ∧ format {} source = "a\r\n\tb\r\n\nc\r\n" ∧
      ¬ Carried (format {} source).toList := by
  decide

end GuidedTrack.Layout
