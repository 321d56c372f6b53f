import GuidedTrack.Proofs.Layout.LiteralConservation

/-! # What layout conserves

Layout rewrites gaps. Each line that is not blank is written once, in its place: with its
indentation and its ink, a comment as it stands but for gaps at its end, and code with its string
literals and its comment as the scanner finds them.
-/

namespace GuidedTrack.Layout

open Source Text Token List

variable {lines : List (List Char)} {rest : List Char} {source : String}

/-! ## Lines and where they start -/

/-- Lines with the index at which each starts, a line feed standing between any two. -/
def rowsFrom (start : Nat) : List (List Char) → List (Nat × List Char)
  | [] => []
  | line :: rest => (start, line) :: rowsFrom (start + line.length + 1) rest

/-- The lines of a text that are not blank, each with the index at which it starts. -/
def filledRows (cs : List Char) : List (Nat × List Char) :=
  (rowsFrom 0 (splitFeeds cs)).filter fun row => !allBlank row.2

def IsRow (cs : List Char) (row : Nat × List Char) : Prop :=
  ∃ a rest, cs = a ++ (row.2 ++ rest) ∧ a.length = row.1 ∧ EndsLine a ∧
    (rest = [] ∨ rest.head? = some '\n') ∧ '\n' ∉ row.2

theorem map_snd_rowsFrom (start : Nat) (lines : List (List Char)) :
    (rowsFrom start lines).map Prod.snd = lines := by
  induction lines generalizing start with
  | nil => rfl
  | cons line rest ih => rw [rowsFrom, map_cons, ih]

theorem isRow_of_mem_rowsFrom {a : List Char} (ha : EndsLine a)
    (hfeed : ∀ line ∈ lines, '\n' ∉ line) :
    ∀ row ∈ rowsFrom a.length lines, IsRow (a ++ joinFeeds lines) row := by
  induction lines generalizing a with
  | nil => simp [rowsFrom]
  | cons line rest ih =>
    obtain ⟨hline, hrest⟩ := forall_mem_cons.mp hfeed
    intro row hrow
    by_cases hlast : rest = []
    · subst hlast
      rw [rowsFrom, rowsFrom, mem_singleton] at hrow
      subst hrow
      exact ⟨a, [], by simp [joinFeeds], rfl, ha, .inl rfl, hline⟩
    · rw [joinFeeds_cons line hlast]
      rcases mem_cons.mp hrow with rfl | hrow
      · exact ⟨a, _, rfl, rfl, ha, .inr rfl, hline⟩
      · have hnext : EndsLine (a ++ line ++ ['\n']) := .inr (by simp)
        have hlength : a.length + line.length + 1 = (a ++ line ++ ['\n']).length := by
          simp [Nat.add_assoc]
        rw [hlength] at hrow
        simpa using ih hnext hrest row hrow

theorem isRow_of_mem_filledRows {cs : List Char} : ∀ row ∈ filledRows cs, IsRow cs row := by
  intro row hrow
  have hmem := mem_of_mem_filter hrow
  have hisRow := isRow_of_mem_rowsFrom (a := []) (.inl rfl)
    (fun line hline => feed_not_mem_of_mem_splitFeeds hline) row hmem
  rwa [nil_append, joinFeeds_splitFeeds] at hisRow

theorem map_snd_filledRows (cs : List Char) :
    (filledRows cs).map Prod.snd = (splitFeeds cs).filter fun line => !allBlank line := by
  conv_rhs => rw [← map_snd_rowsFrom 0 (splitFeeds cs)]
  rw [filter_map]
  rfl

/-! ## Lines that are written -/

theorem filter_splitFeeds_fed (feed : Bool) (hfeed : ∀ line ∈ lines, '\n' ∉ line) :
    (splitFeeds (fed feed lines)).filter (fun line => !allBlank line) =
      lines.filter fun line => !allBlank line := by
  by_cases hne : lines = []
  · subst hne
    rfl
  · rw [splitFeeds_fed_lines feed hne hfeed, filter_append]
    cases feed <;> simp [allBlank]

/-- One line is written for each line that is not blank: the line itself, or the line laid out. -/
theorem Lays.filter_filled {style : Style} {state after : State} {raw : List Char}
    {written : List (List Char)} (h : Lays style state raw written after) :
    Forall₂ (fun raw line => line = raw ∨ line = relaid style raw)
      ([raw].filter fun line => !allBlank line) (written.filter fun line => !allBlank line) := by
  have hsame (line : List Char) (hblank : allBlank line = allBlank raw)
      (hline : line = raw ∨ line = relaid style raw) :
      Forall₂ (fun raw line => line = raw ∨ line = relaid style raw)
        ([raw].filter fun line => !allBlank line) ([line].filter fun line => !allBlank line) := by
    cases hfilled : allBlank raw with
    | true => simp [hblank, hfilled]
    | false => simpa [hblank, hfilled] using hline
  have hlaid := hsame (relaid style raw) (allBlank_relaid style raw) (.inr rfl)
  cases h with
  | copied | switchOn | switchOff => exact hsame raw rfl (.inl rfl)
  | dropped on blank again => simp [blank]
  | blank | comment => exact hlaid
  | text =>
    rw [filter_append]
    split <;> simpa [show allBlank [] = true from rfl] using hlaid

theorem forall₂_layoutLines (style : Style) (state : State) (raws : List (List Char)) :
    Forall₂ (fun raw line => line = raw ∨ line = relaid style raw)
      (raws.filter fun line => !allBlank line)
      ((layoutLines style state raws).filter fun line => !allBlank line) := by
  induction raws generalizing state with
  | nil => exact .nil
  | cons raw rest ih =>
    rw [layoutLines_cons, filter_append, ← singleton_append, filter_append]
    exact rel_append (lays_layoutLine style state raw).filter_filled (ih _)

theorem forall₂_filledRows (style : Style) (cs : List Char) :
    Forall₂ (fun row other => other.2 = row.2 ∨ other.2 = relaid style row.2)
      (filledRows cs) (filledRows (layout style cs)) := by
  have hlines := forall₂_layoutLines style {} (sourceLines cs)
  have hsource := filter_splitFeeds_fed (cs.getLast? == some '\n')
    fun line (hline : line ∈ sourceLines cs) => feed_not_mem_sourceLines hline
  obtain ⟨kept, back, feed, hwritten, hback, hfeed, hlayout⟩ := layout_eq_fed style cs
  have hnone : back.filter (fun line => !allBlank line) = [] :=
    filter_eq_nil_iff.mpr fun line hline => by simp [hback line hline]
  rw [fed_sourceLines] at hsource
  rw [hwritten, filter_append, hnone, append_nil, ← filter_splitFeeds_fed feed hfeed,
    ← hlayout, ← hsource, ← map_snd_filledRows, ← map_snd_filledRows, forall₂_map_left_iff,
    forall₂_map_right_iff] at hlines
  exact hlines

/-! ## What a line keeps -/

/-- Two lines that differ at most in the gaps at their ends, those before a carriage return. -/
def SameButEnd (raw line : List Char) : Prop :=
  ∃ front gaps others carriage,
    raw = front ++ gaps ++ carriage ∧ line = front ++ others ++ carriage ∧
    Gaps (gaps ++ others) ∧ (carriage = [] ∨ carriage = ['\r'])

namespace Cut

variable {raw indent content trailing carriage : List Char}

theorem dropWhile_eq (h : Cut raw indent content trailing carriage) :
    raw.dropWhile isGap = content ++ (trailing ++ carriage) := by
  obtain ⟨c, rest, hcontent, hc⟩ := h.parts.head
  rw [h.raw_eq, append_assoc, append_assoc, dropWhile_append_of_pos h.parts.indent,
    hcontent]
  simp [hc]

theorem exists_content (h : Cut raw indent content trailing carriage) {c : Char}
    (hc : isGap c = false ∧ c ≠ '\r') (hsigns : (raw.dropWhile isGap).take 2 = [c, c]) :
    ∃ rest, content = c :: c :: rest := by
  have hend : ∀ d ∈ trailing ++ carriage, d ≠ c := by
    rintro d hd rfl
    rcases mem_append.mp hd with hd | hd
    · rw [h.parts.trailing d hd] at hc
      cases hc.1
    · rcases (eq_of_splitCarriage h.split).2 with rfl | rfl
      · cases hd
      · exact hc.2 (mem_singleton.mp hd)
  rw [h.dropWhile_eq] at hsigns
  obtain ⟨first, rest, rfl, -⟩ := h.parts.head
  cases rest with
  | nil =>
    -- the second sign would stand in the gaps behind the content, or be the carriage return
    cases hback : trailing ++ carriage with
    | nil => simp [hback] at hsigns
    | cons d more =>
      simp only [hback, cons_append, nil_append, take_succ_cons,
        List.cons.injEq] at hsigns
      exact absurd hsigns.2.1 (hend d (by simp [hback]))
  | cons second rest =>
    simp only [cons_append, take_succ_cons, take_zero, List.cons.injEq,
      and_true] at hsigns
    exact ⟨rest, by rw [hsigns.1, hsigns.2]⟩

theorem return_not_mem (h : Cut raw indent content trailing carriage)
    (hreturn : '\r' ∉ raw.dropLast) : '\r' ∉ indent ++ content ++ trailing := by
  have hsplit := h.split
  unfold splitCarriage at hsplit
  split at hsplit
  · rwa [← (Prod.mk.inj hsplit).1]
  · rename_i hlast
    rw [← (Prod.mk.inj hsplit).1]
    intro hmem
    have hne := ne_nil_of_mem hmem
    rw [← dropLast_append_getLast hne] at hmem
    rcases mem_append.mp hmem with hmem | hmem
    · exact hreturn hmem
    · refine hlast (beq_iff_eq.mpr ?_)
      rw [getLast?_eq_getLast_of_ne_nil hne, ← mem_singleton.mp hmem]

theorem return_not_mem_written (h : Cut raw indent content trailing carriage)
    (hreturn : '\r' ∉ indent ++ content ++ trailing) (style : Style) :
    '\r' ∉ indent ++ layoutContent style content ++
      (if style.trimTrailingWhitespace then [] else trailing) := by
  intro hmem
  rcases mem_of_solid_eq (h.parts.solid_written style) hmem with hgap | hmem
  · cases hgap
  · exact hreturn hmem

theorem relaid (h : Cut raw indent content trailing carriage) (hfilled : allBlank raw = false)
    (hreturn : '\r' ∉ indent ++ content ++ trailing) (style : Style) :
    Cut (Layout.relaid style raw) indent (layoutContent style content)
      (if style.trimTrailingWhitespace then [] else trailing) carriage where
  split := by
    rw [h.relaid_eq hfilled]
    exact CarriageParts.split
      ⟨rfl, h.return_not_mem_written hreturn style, (eq_of_splitCarriage h.split).2⟩
  parts := h.parts.written style

theorem takeWhile_relaid (h : Cut raw indent content trailing carriage)
    (hfilled : allBlank raw = false) (style : Style) :
    (Layout.relaid style raw).takeWhile isGap = raw.takeWhile isGap := by
  obtain ⟨c, rest, hcontent, hc⟩ := (h.parts.written style).head
  rw [h.relaid_eq hfilled, h.takeWhile_eq, append_assoc, append_assoc,
    takeWhile_append_of_pos h.parts.indent, hcontent]
  simp [hc]

theorem sameButEnd_relaid (h : Cut raw indent ('-' :: '-' :: rest) trailing carriage)
    (hfilled : allBlank raw = false) (style : Style) :
    SameButEnd raw (Layout.relaid style raw) := by
  refine ⟨indent ++ '-' :: '-' :: rest, trailing,
    if style.trimTrailingWhitespace then [] else trailing, carriage, h.raw_eq,
    h.relaid_eq hfilled style, ?_, (eq_of_splitCarriage h.split).2⟩
  exact forall_mem_append.mpr ⟨h.parts.trailing, (h.parts.written style).trailing⟩

theorem literals_eq {start : Nat} (h : Cut raw indent ('>' :: '>' :: rest) trailing carriage)
    (hreturn : '\r' ∉ indent ++ '>' :: '>' :: rest ++ trailing)
    (hrow : IsRow source.toList (start, raw)) :
    (literalsIn source start (start + raw.length)).map fragment = fragments rest := by
  obtain ⟨a, behind, htext, rfl, ha, hbehind, hfeed⟩ := hrow
  rw [show (a.length, raw).2 = raw from rfl, h.raw_eq] at htext hfeed
  have hinline : Inline (indent ++ '>' :: '>' :: rest ++ trailing) := by
    intro c hc
    simp only [isInline, Bool.and_eq_true, bne_iff_ne]
    exact ⟨fun heq => hfeed (mem_append_left _ (heq ▸ hc)), fun heq => hreturn (heq ▸ hc)⟩
  have hbody : (indent ++ '>' :: '>' :: rest ++ trailing).dropWhile isGap =
      '>' :: '>' :: (rest ++ trailing) := by
    rw [append_assoc, dropWhile_append_of_pos h.parts.indent]
    rfl
  obtain ⟨depth, q, hliterals⟩ := literalsIn_line htext ha (by simp) hinline
    (eq_of_splitCarriage h.split).2 hbehind
  rw [hbody, scanContent, filter_cons_of_neg (by simp [isLiteral, covering]), ← h.raw_eq]
    at hliterals
  rw [hliterals, fragments_scanExpression, fragments_trailing h.parts.trailing]

end Cut

/-! ## What a text keeps -/

/-- What a line of a document keeps as a line of the document that is laid out: its indentation and
its ink, a comment all but the gaps at its end, and code its string literals and its comment. -/
structure RowKept (source laid : String) (row other : Nat × List Char) : Prop where
  indent : other.2.takeWhile isGap = row.2.takeWhile isGap
  ink : solid other.2 = solid row.2
  comment : (row.2.dropWhile isGap).take 2 = ['-', '-'] → SameButEnd row.2 other.2
  literals : (row.2.dropWhile isGap).take 2 = ['>', '>'] → '\r' ∉ row.2.dropLast →
    (literalsIn laid other.1 (other.1 + other.2.length)).map fragment =
      (literalsIn source row.1 (row.1 + row.2.length)).map fragment

theorem rowKept {laid : String} {row other : Nat × List Char} (style : Style)
    (hrow : IsRow source.toList row) (hother : IsRow laid.toList other)
    (hfilled : allBlank row.2 = false) (hline : other.2 = row.2 ∨ other.2 = relaid style row.2) :
    RowKept source laid row other := by
  obtain ⟨start, raw⟩ := row
  obtain ⟨start', line⟩ := other
  obtain ⟨indent, content, trailing, carriage, hcut⟩ := cut_exists hfilled
  dsimp only at hfilled hcut hline
  -- a line that is copied has its literals at another place at most
  rcases hline with rfl | rfl
  · refine ⟨rfl, rfl, fun _ => ⟨line, [], [], [], by simp, by simp, by simp, .inl rfl⟩, ?_⟩
    intro hsigns hreturn
    obtain ⟨rest, rfl⟩ := hcut.exists_content (by decide) hsigns
    have hreturn := hcut.return_not_mem hreturn
    rw [hcut.literals_eq hreturn hother, hcut.literals_eq hreturn hrow]
  · refine ⟨hcut.takeWhile_relaid hfilled style, solid_relaid style raw, ?_, ?_⟩
    · intro hsigns
      obtain ⟨rest, rfl⟩ := hcut.exists_content (by decide) hsigns
      exact hcut.sameButEnd_relaid hfilled style
    · intro hsigns hreturn
      obtain ⟨rest, rfl⟩ := hcut.exists_content (by decide) hsigns
      have htrimmed : Trimmed rest :=
        (show Trimmed (['>', '>'] ++ rest) from hcut.parts.trimmed).of_append
      have hreturn := hcut.return_not_mem hreturn
      have hlaid := hcut.relaid hfilled hreturn style
      have hreturn' := hcut.return_not_mem_written hreturn style
      rw [layoutContent_expression] at hlaid hreturn'
      rw [hcut.literals_eq hreturn hrow, hlaid.literals_eq hreturn' hother,
        fragments_afterSpace htrimmed (fragments_code style true)]

/-- Layout rewrites blanks alone: the lines that are not blank stay, in order, and each keeps its
indentation, its ink, and the text of its comment or of the literals in its code. -/
theorem format_conserves (style : Style) (source : String) :
    Forall₂ (RowKept source (format style source)) (filledRows source.toList)
      (filledRows (format style source).toList) := by
  have hrows := forall₂_filledRows style source.toList
  have hformat : layout style source.toList = (format style source).toList := by simp [format]
  rw [hformat, forall₂_iff_zip] at hrows
  refine forall₂_iff_zip.mpr ⟨hrows.1, fun {row other} hmem => ?_⟩
  obtain ⟨hrow, hother⟩ := of_mem_zip hmem
  have hfilled : allBlank row.2 = false := by simpa using (mem_filter.mp hrow).2
  exact rowKept style (isRow_of_mem_filledRows row hrow) (isRow_of_mem_filledRows other hother)
    hfilled (hrows.2 hmem)

end GuidedTrack.Layout
