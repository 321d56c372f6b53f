import GuidedTrack.Layout
import Mathlib.Data.List.DropRight

/-! # Texts and their lines

Layout cuts a text at its line feeds and joins the lines that are written. Both ways of counting
lines are here: `splitFeeds` with the empty piece behind a line feed at the end, `sourceLines`
without it. `fed` puts lines back together, and `finish` is what layout does at the end of the text.
-/

namespace GuidedTrack.Layout

open Text List

variable {d : Char} {lines : List (List Char)} {cs line : List Char} {style : Style}

/-! ## Cutting and joining -/

theorem splitFeeds_ne_nil (cs : List Char) : splitFeeds cs ≠ [] := by
  cases cs with
  | nil => simp [splitFeeds]
  | cons c rest =>
    simp only [splitFeeds]
    split
    · simp
    split <;> simp

theorem splitFeeds_append (line : List Char) (h : '\n' ∉ line) (rest : List Char) :
    splitFeeds (line ++ '\n' :: rest) = line :: splitFeeds rest := by
  induction line with
  | nil => simp [splitFeeds]
  | cons c line ih =>
    have hc : c ≠ '\n' := fun hc => h (hc ▸ mem_cons_self)
    have hline : '\n' ∉ line := fun hm => h (mem_cons_of_mem c hm)
    simp [splitFeeds, hc, ih hline]

theorem splitFeeds_line (line : List Char) (h : '\n' ∉ line) : splitFeeds line = [line] := by
  induction line with
  | nil => rfl
  | cons c line ih =>
    have hc : c ≠ '\n' := fun hc => h (hc ▸ mem_cons_self)
    have hline : '\n' ∉ line := fun hm => h (mem_cons_of_mem c hm)
    simp [splitFeeds, hc, ih hline]

theorem feed_not_mem_of_mem_splitFeeds (h : line ∈ splitFeeds cs) : '\n' ∉ line := by
  induction cs generalizing line with
  | nil => simp_all [splitFeeds]
  | cons c rest ih =>
    simp only [splitFeeds] at h
    split at h
    · rcases mem_cons.mp h with rfl | h
      · simp
      · exact ih h
    · rename_i hc
      cases hrest : splitFeeds rest with
      | nil => exact absurd hrest (splitFeeds_ne_nil rest)
      | cons first more =>
        simp only [hrest] at h ih
        rcases mem_cons.mp h with rfl | h
        · have hfirst : '\n' ∉ first := ih mem_cons_self
          simp only [mem_cons, not_or]
          exact ⟨fun hn => hc (by simp [← hn]), hfirst⟩
        · exact ih (mem_cons_of_mem first h)

theorem mem_of_mem_splitFeeds (h : line ∈ splitFeeds cs) (hd : d ∈ line) : d ∈ cs := by
  induction cs generalizing line with
  | nil => rwa [mem_singleton.mp h] at hd
  | cons c rest ih =>
    simp only [splitFeeds] at h
    split at h
    · rcases mem_cons.mp h with rfl | h
      · cases hd
      · exact mem_cons_of_mem c (ih h hd)
    · cases hsplit : splitFeeds rest with
      | nil => exact absurd hsplit (splitFeeds_ne_nil rest)
      | cons first more =>
        simp only [hsplit] at h ih
        rcases mem_cons.mp h with rfl | h
        · rcases mem_cons.mp hd with rfl | hd
          · exact mem_cons_self
          · exact mem_cons_of_mem c (ih mem_cons_self hd)
        · exact mem_cons_of_mem c (ih (mem_cons_of_mem first h) hd)

theorem joinFeeds_cons (line : List Char) {rest : List (List Char)} (h : rest ≠ []) :
    joinFeeds (line :: rest) = line ++ '\n' :: joinFeeds rest := by
  cases rest with
  | nil => exact absurd rfl h
  | cons next rest => simp [joinFeeds, intercalate]

theorem joinFeeds_concat_nil (h : lines ≠ []) :
    joinFeeds (lines ++ [[]]) = joinFeeds lines ++ ['\n'] := by
  induction lines with
  | nil => exact absurd rfl h
  | cons line rest ih =>
    cases rest with
    | nil => simp [joinFeeds, intercalate]
    | cons next rest =>
      rw [cons_append, joinFeeds_cons line (by simp), joinFeeds_cons line (by simp),
        ih (by simp)]
      simp

theorem splitFeeds_joinFeeds (hne : lines ≠ []) (h : ∀ line ∈ lines, '\n' ∉ line) :
    splitFeeds (joinFeeds lines) = lines := by
  induction lines with
  | nil => exact absurd rfl hne
  | cons line rest ih =>
    have hline := h line mem_cons_self
    cases rest with
    | nil => simpa [joinFeeds, intercalate] using splitFeeds_line line hline
    | cons next rest =>
      rw [joinFeeds_cons line (by simp), splitFeeds_append line hline,
        ih (by simp) fun l hl => h l (mem_cons_of_mem line hl)]

theorem getLast?_joinFeeds (init : List (List Char)) {last : List Char} (h : last ≠ []) :
    (joinFeeds (init ++ [last])).getLast? = last.getLast? := by
  induction init with
  | nil => simp [joinFeeds, intercalate]
  | cons line init ih =>
    rw [cons_append, joinFeeds_cons line (by simp), getLast?_append,
      getLast?_cons, ih]
    cases last with
    | nil => exact absurd rfl h
    | cons c last => simp [getLast?_cons]

theorem mem_joinFeeds (h : d ∈ joinFeeds lines) : d = '\n' ∨ ∃ line ∈ lines, d ∈ line := by
  induction lines with
  | nil => cases h
  | cons line lines ih =>
    cases lines with
    | nil => exact .inr ⟨line, mem_cons_self, by simpa [joinFeeds, intercalate] using h⟩
    | cons next lines =>
      rw [joinFeeds_cons line (by simp)] at h
      rcases mem_append.mp h with h | h
      · exact .inr ⟨line, mem_cons_self, h⟩
      rcases mem_cons.mp h with h | h
      · exact .inl h
      · rcases ih h with hfeed | ⟨other, hother, hmem⟩
        · exact .inl hfeed
        · exact .inr ⟨other, mem_cons_of_mem line hother, hmem⟩

theorem joinFeeds_splitFeeds (cs : List Char) : joinFeeds (splitFeeds cs) = cs := by
  induction cs with
  | nil => rfl
  | cons c rest ih =>
    rw [splitFeeds]
    split
    · rename_i hc
      rw [joinFeeds_cons [] (splitFeeds_ne_nil rest), ih, beq_iff_eq.mp hc]
      rfl
    · cases hsplit : splitFeeds rest with
      | nil => exact absurd hsplit (splitFeeds_ne_nil rest)
      | cons line more =>
        rw [hsplit] at ih
        cases more with
        | nil => simpa [joinFeeds, intercalate] using ih
        | cons next more =>
          rw [joinFeeds_cons line (by simp)] at ih
          simp only [joinFeeds_cons (c :: line) (cons_ne_nil next more),
            cons_append, ih]

/-! ## The lines of a text -/

/-- The lines of a text: what follows a line feed at its end is none. -/
def sourceLines (cs : List Char) : List (List Char) :=
  if cs.getLast? == some '\n' then (splitFeeds cs).dropLast else splitFeeds cs

theorem sourceLines_ne_nil (cs : List Char) : sourceLines cs ≠ [] := by
  unfold sourceLines
  split
  · rename_i hlast
    -- the text is a line feed behind some text, which has a line of its own
    obtain ⟨front, rfl⟩ : ∃ front, cs = front ++ ['\n'] := by
      rw [beq_iff_eq] at hlast
      exact ⟨cs.dropLast, (dropLast_append_getLast? _ hlast).symm⟩
    induction front with
    | nil => decide
    | cons c front ih =>
      have ih := ih (by simp)
      simp only [cons_append, splitFeeds]
      split
      · cases hsplit : splitFeeds (front ++ ['\n']) with
        | nil => exact absurd hsplit (splitFeeds_ne_nil _)
        | cons first more => simp
      · cases hsplit : splitFeeds (front ++ ['\n']) with
        | nil => exact absurd hsplit (splitFeeds_ne_nil _)
        | cons first more =>
          rw [hsplit] at ih
          cases more with
          | nil => exact absurd rfl ih
          | cons next more => simp
  · exact splitFeeds_ne_nil cs

theorem sourceLines_prefix_splitFeeds (cs : List Char) : sourceLines cs <+: splitFeeds cs := by
  unfold sourceLines
  split
  · exact dropLast_prefix _
  · exact prefix_rfl

theorem mem_splitFeeds_of_mem_sourceLines {raw : List Char} (h : raw ∈ sourceLines cs) :
    raw ∈ splitFeeds cs :=
  (sourceLines_prefix_splitFeeds cs).subset h

def fed (feed : Bool) : List (List Char) → List Char
  | [] => []
  | raw :: rest => raw ++ ((if feed || !rest.isEmpty then ['\n'] else []) ++ fed feed rest)

theorem fed_eq_joinFeeds (feed : Bool) {raws : List (List Char)} (h : raws ≠ []) :
    fed feed raws = joinFeeds raws ++ (if feed then ['\n'] else []) := by
  induction raws with
  | nil => exact absurd rfl h
  | cons raw rest ih =>
    cases rest with
    | nil => simp [fed, joinFeeds, intercalate]
    | cons next rest =>
      rw [fed, ih (by simp), joinFeeds_cons raw (by simp)]
      simp

theorem fed_sourceLines (cs : List Char) :
    fed (cs.getLast? == some '\n') (sourceLines cs) = cs := by
  rw [fed_eq_joinFeeds _ (sourceLines_ne_nil cs), sourceLines]
  split
  · rename_i hlast
    -- the last piece behind a line feed at the end is empty
    obtain ⟨front, last, hsplit⟩ : ∃ front last, splitFeeds cs = front ++ [last] :=
      ⟨_, _, (dropLast_append_getLast (splitFeeds_ne_nil cs)).symm⟩
    have hjoin := joinFeeds_splitFeeds cs
    have hfront : front ≠ [] := by
      have hne := sourceLines_ne_nil cs
      rw [sourceLines, if_pos hlast, hsplit, dropLast_concat] at hne
      exact hne
    have hempty : last = [] := by
      by_contra hfilled
      have hend := getLast?_joinFeeds front hfilled
      rw [← hsplit, hjoin, beq_iff_eq.mp hlast] at hend
      have hfeed := feed_not_mem_of_mem_splitFeeds (show last ∈ splitFeeds cs by simp [hsplit])
      exact hfeed (mem_of_getLast? hend.symm)
    rw [hsplit, hempty] at hjoin
    rw [hsplit, dropLast_concat, ← joinFeeds_concat_nil hfront]
    exact hjoin
  · simp [joinFeeds_splitFeeds]

theorem fed_append (feed : Bool) (front : List (List Char)) {back : List (List Char)}
    (h : back ≠ []) : fed feed (front ++ back) = fed true front ++ fed feed back := by
  induction front with
  | nil => rfl
  | cons raw front ih => simp [fed, ih, h]

theorem splitFeeds_fed (h : ∀ line ∈ lines, '\n' ∉ line) (cs : List Char) :
    splitFeeds (fed true lines ++ cs) = lines ++ splitFeeds cs := by
  induction lines with
  | nil => rfl
  | cons line lines ih =>
    obtain ⟨hline, hlines⟩ := forall_mem_cons.mp h
    have hsplit := splitFeeds_append line hline (fed true lines ++ cs)
    simpa [fed, ih hlines] using hsplit

/-- The pieces of a text: its lines, and an empty one behind a line feed at the end. -/
theorem splitFeeds_fed_lines (feed : Bool) (hne : lines ≠ []) (h : ∀ line ∈ lines, '\n' ∉ line) :
    splitFeeds (fed feed lines) = lines ++ (if feed then [[]] else []) := by
  cases feed with
  | true => simpa [splitFeeds] using splitFeeds_fed h []
  | false => simpa [fed_eq_joinFeeds false hne] using splitFeeds_joinFeeds hne h

theorem feed_not_mem_sourceLines (h : line ∈ sourceLines cs) : '\n' ∉ line :=
  feed_not_mem_of_mem_splitFeeds (mem_splitFeeds_of_mem_sourceLines h)

/-- The lines of a text that ends with a line feed are followed by the lines of what comes next. -/
theorem sourceLines_fed_append (h : ∀ line ∈ lines, '\n' ∉ line) (hcs : cs ≠ []) :
    sourceLines (fed true lines ++ cs) = lines ++ sourceLines cs := by
  have hlast : (fed true lines ++ cs).getLast? = cs.getLast? := by
    rw [getLast?_append, getLast?_eq_getLast_of_ne_nil hcs, Option.some_or]
  simp only [sourceLines, splitFeeds_fed h, hlast]
  split
  · rw [dropLast_append_of_ne_nil (splitFeeds_ne_nil cs)]
  · rfl

theorem getLast?_fed (h : lines ≠ []) : (fed true lines).getLast? = some '\n' := by
  rw [fed_eq_joinFeeds true h]
  simp

theorem sourceLines_fed (hne : lines ≠ []) (h : ∀ line ∈ lines, '\n' ∉ line) :
    sourceLines (fed true lines) = lines := by
  have hsplit := splitFeeds_fed h []
  rw [append_nil] at hsplit
  simp [sourceLines, getLast?_fed hne, hsplit, splitFeeds]

/-! ## The end of a text -/

def finish (style : Style) (feed : Bool) (lines : List (List Char)) : List Char :=
  if style.insertFinalNewline then
    match dropBlankEnd lines with
    | [] => []
    | kept => joinFeeds kept ++ ['\n']
  else joinFeeds lines ++ (if feed then ['\n'] else [])

theorem layout_eq_finish (style : Style) (cs : List Char) :
    layout style cs =
      finish style (cs.getLast? == some '\n') (layoutLines style {} (sourceLines cs)) :=
  rfl

theorem dropBlankEnd_prefix_self (lines : List (List Char)) : dropBlankEnd lines <+: lines :=
  rdropWhile_prefix allBlank lines

theorem dropBlankEnd_dropBlankEnd (lines : List (List Char)) :
    dropBlankEnd (dropBlankEnd lines) = dropBlankEnd lines :=
  rdropWhile_idempotent allBlank lines

theorem finish_of_insert (hinsert : style.insertFinalNewline = true) (feed : Bool)
    (hkept : dropBlankEnd lines ≠ []) :
    finish style feed lines = joinFeeds (dropBlankEnd lines) ++ ['\n'] := by
  cases hlines : dropBlankEnd lines with
  | nil => exact absurd hlines hkept
  | cons first more => simp only [finish, hinsert, if_true, hlines]

theorem finish_of_keep (hkeep : style.insertFinalNewline = false) (feed : Bool)
    (lines : List (List Char)) :
    finish style feed lines = joinFeeds lines ++ (if feed then ['\n'] else []) := by
  simp [finish, hkeep]

theorem mem_finish {feed : Bool} (h : d ∈ finish style feed lines) :
    d = '\n' ∨ ∃ line ∈ lines, d ∈ line := by
  cases hinsert : style.insertFinalNewline with
  | true =>
    by_cases hkept : dropBlankEnd lines = []
    · simp [finish, hinsert, hkept] at h
    · rw [finish_of_insert hinsert feed hkept] at h
      rcases mem_append.mp h with h | h
      · rcases mem_joinFeeds h with hfeed | ⟨line, hline, hmem⟩
        · exact .inl hfeed
        · exact .inr ⟨line, (dropBlankEnd_prefix_self lines).subset hline, hmem⟩
      · exact .inl (mem_singleton.mp h)
  | false =>
    rw [finish_of_keep hinsert] at h
    rcases mem_append.mp h with h | h
    · exact mem_joinFeeds h
    · split at h
      · exact .inl (mem_singleton.mp h)
      · cases h

theorem finish_eq_fed_of_keep (hkeep : style.insertFinalNewline = false) (feed : Bool)
    (h : lines ≠ []) : finish style feed lines = fed feed lines := by
  rw [finish_of_keep hkeep, fed_eq_joinFeeds feed h]

theorem finish_eq_fed_of_insert (hinsert : style.insertFinalNewline = true) (feed : Bool)
    (lines : List (List Char)) : finish style feed lines = fed true (dropBlankEnd lines) := by
  by_cases hkept : dropBlankEnd lines = []
  · simp [finish, hinsert, hkept, fed]
  · rw [finish_of_insert hinsert feed hkept, fed_eq_joinFeeds true hkept]
    rfl

theorem getLast?_dropBlankEnd (h : line ∈ (dropBlankEnd lines).getLast?) :
    allBlank line = false := by
  have hne : lines.rdropWhile allBlank ≠ [] := by
    intro hnil
    rw [show dropBlankEnd lines = [] from hnil] at h
    cases h
  have hlast : (lines.rdropWhile allBlank).getLast hne = line :=
    Option.some.inj ((getLast?_eq_getLast_of_ne_nil hne).symm.trans h)
  simpa [hlast] using rdropWhile_last_not allBlank lines hne

theorem finish_eq_fed (style : Style) (feed : Bool) (hne : lines ≠ []) :
    ∃ kept back feed', lines = kept ++ back ∧ (∀ raw ∈ back, allBlank raw = true) ∧
      finish style feed lines = fed feed' kept := by
  cases hinsert : style.insertFinalNewline with
  | false =>
    exact ⟨lines, [], feed, by simp, by simp, finish_eq_fed_of_keep hinsert feed hne⟩
  | true =>
    exact ⟨dropBlankEnd lines, lines.rtakeWhile allBlank, true,
      rdropWhile_append_rtakeWhile.symm, fun raw hraw => mem_rtakeWhile_imp hraw,
      finish_eq_fed_of_insert hinsert feed lines⟩

end GuidedTrack.Layout
