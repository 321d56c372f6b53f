import GuidedTrack.Configuration
import GuidedTrack.Proofs.Rule.MendedLines
import GuidedTrack.Proofs.StableSorting
import GuidedTrack.Proofs.Token.LineTokens

/-! # One pass of fixing

The fixes of a source come from three rules, which look at its lines. Put into the order of their
places they rewrite the source line by line: the indentation of each line, and then its content.
-/

namespace GuidedTrack

open List Text Rule Token Source

variable {line : Line} {source front tail : List Char} {p : Position} {mended : Line}
  {added ending : List Char} {fixes : List Fix} {lines : List Line} {i number : Nat}

namespace Fix

open Text

theorem slice_advance (hdrop : source.drop i = front ++ tail) (hi : i ≤ source.length) {stop : Int}
    (hstop : (i + front.length : Nat) ≤ stop) :
    slice source i stop = front ++ slice source (i + front.length : Nat) stop := by
  have hlength := congrArg List.length hdrop
  rw [length_drop, length_append] at hlength
  have hbound : i + front.length ≤ clampBound source.length stop := by
    simp only [clampBound]
    omega
  rw [slice, slice, clampBound_of_le hi, clampBound_of_le (add_le_of_drop hdrop hi), drop_take,
    drop_take, hdrop,
    drop_add_of_drop_eq hdrop, take_append, take_of_length_le (by omega)]
  congr 2
  omega

theorem applyFrom_advance (hdrop : source.drop i = front ++ tail) (hi : i ≤ source.length)
    (h : ∀ fix ∈ fixes, ((i + front.length : Nat) : Int) ≤ fix.start) :
    applyFrom source i fixes = front ++ applyFrom source (i + front.length : Nat) fixes := by
  have hlength := congrArg List.length hdrop
  rw [length_drop, length_append] at hlength
  cases fixes with
  | nil =>
    rw [applyFrom, applyFrom, sliceFrom_of_le hi, sliceFrom_of_le (by omega), hdrop,
      drop_add_of_drop_eq hdrop]
  | cons fix rest =>
    have hstart := h fix mem_cons_self
    rw [applyFrom, applyFrom, if_neg (by omega), if_neg (by omega), slice_advance hdrop hi hstart]
    simp only [append_assoc]

theorem start_le_trans (a b c : Fix) (hab : decide (a.start ≤ b.start) = true)
    (hbc : decide (b.start ≤ c.start) = true) : decide (a.start ≤ c.start) = true := by
  simp only [decide_eq_true_eq] at hab hbc ⊢
  omega

theorem start_le_total (a b : Fix) :
    (decide (a.start ≤ b.start) || decide (b.start ≤ a.start)) = true := by
  simp only [Bool.or_eq_true, decide_eq_true_eq]
  omega

theorem sorted_eq_insertion (fixes : List Fix) :
    sorted fixes = fixes.insertionSort fun a b => decide (a.start ≤ b.start) :=
  mergeSort_eq_insertion start_le_trans start_le_total fixes

theorem applyAll_of_sorted (h : fixes.Pairwise (·.start ≤ ·.start)) (source : String) :
    applyAll source fixes = String.ofList (applyFrom source.toList 0 fixes) := by
  rw [applyAll, sorted, mergeSort_of_pairwise (h.imp decide_eq_true)]

end Fix

namespace Lint

/-! ## Reports that rewrite a text -/

def Before (a b : Report) : Prop :=
  a.line < b.line ∨ a.line = b.line ∧ a.column < b.column

/-- The fixes of some reports, one behind the other, make `text` out of what follows index `i`. All
stand at or behind a line and a column. -/
structure Rewrites (source : List Char) (i : Nat) (line column : Int) (text : List Char)
    (reports : List Report) : Prop where
  ordered : reports.Pairwise Before
  behind : ∀ report ∈ reports, line < report.line ∨ line = report.line ∧ column ≤ report.column
  fixable : ∀ report ∈ reports, report.fix.isSome = true
  sorted : (reports.filterMap (·.fix)).Pairwise (·.start ≤ ·.start)
  apart : (reports.filterMap (·.fix)).Pairwise (·.stop ≤ ·.start)
  starts : ∀ fix ∈ reports.filterMap (·.fix), (i : Int) ≤ fix.start
  applied : Fix.applyFrom source i (reports.filterMap (·.fix)) = text

namespace Rewrites

variable {source text front tail : List Char} {i j : Nat} {line column : Int} {report : Report}
  {reports : List Report}

theorem nil (hi : i ≤ source.length) : Rewrites source i line column (source.drop i) [] where
  ordered := .nil
  behind := by simp
  fixable := by simp
  sorted := .nil
  apart := .nil
  starts := by simp
  applied := sliceFrom_of_le hi

theorem weaken (h : Rewrites source i line column text reports) {line' column' : Int}
    (hle : line' < line ∨ line' = line ∧ column' ≤ column) :
    Rewrites source i line' column' text reports :=
  { h with behind := fun report hreport => by have := h.behind report hreport; omega }

theorem advance (h : Rewrites source (i + front.length) line column text reports)
    (hdrop : source.drop i = front ++ tail) (hi : i ≤ source.length) :
    Rewrites source i line column (front ++ text) reports :=
  { h with
    starts := fun fix hfix => by have := h.starts fix hfix; omega
    applied := by rw [Fix.applyFrom_advance hdrop hi h.starts, h.applied] }

/-- One report in front of others replaces the text up to where they start. -/
theorem cons (h : Rewrites source j line (column + 1) text reports) {added : List Char}
    (hline : report.line = line) (hcolumn : report.column = column) (hij : i ≤ j)
    (hfix : report.fix = some ⟨i, j, String.ofList added⟩) :
    Rewrites source i line column (added ++ text) (report :: reports) where
  ordered := by
    refine pairwise_cons.mpr ⟨fun other hother => ?_, h.ordered⟩
    have hbehind := h.behind other hother
    unfold Before
    omega
  behind := by
    refine forall_mem_cons.mpr ⟨.inr ⟨hline.symm, by omega⟩, fun other hother => ?_⟩
    have hbehind := h.behind other hother
    omega
  fixable := forall_mem_cons.mpr ⟨by rw [hfix]; rfl, h.fixable⟩
  sorted := by
    rw [filterMap_cons_some hfix]
    refine pairwise_cons.mpr ⟨fun fix hmem => ?_, h.sorted⟩
    have hstart := h.starts fix hmem
    dsimp only
    omega
  apart := by
    rw [filterMap_cons_some hfix]
    exact pairwise_cons.mpr ⟨h.starts, h.apart⟩
  starts := by
    rw [filterMap_cons_some hfix]
    refine forall_mem_cons.mpr ⟨Int.le_refl _, fun fix hmem => ?_⟩
    have hstart := h.starts fix hmem
    omega
  applied := by
    have hnone : slice source i i = [] :=
      slice_self source i
    rw [filterMap_cons_some hfix, Fix.applyFrom, if_neg (by simp), hnone, nil_append,
      String.toList_ofList, h.applied]

/-- Reports on one line that insert text at one place, in front of those on later lines. -/
theorem inserts {new : List Report} {place : Int} (hnew : Inserts line place column added new)
    (hplace : place = i) {later other : Int}
    (h : Rewrites source i later other text reports) (hlater : line < later) :
    Rewrites source i line column (added ++ text) (new ++ reports) := by
  induction hnew with
  | nil => exact h.weaken (.inl hlater)
  | @cons column text' added report new sameLine behind fix rest ih =>
    subst hplace
    rw [append_assoc, cons_append]
    refine weaken (cons ih sameLine rfl (Nat.le_refl i) fix) (.inr ⟨rfl, behind⟩)

end Rewrites

/-! ## The lines of a source -/

open Source (Line)

def fixedLead (lead : List Char) : List Char :=
  if lead.head? == some ' ' then tabify lead else lead

structure MendedLine (line mended : Line) : Prop where
  ending : mended.ending = line.ending
  content : line.content.dropWhile isGap = [] ∧ mended.content = line.content ∨
    ∃ body, Mended (line.content.dropWhile isGap) body ∧
      mended.content = fixedLead (line.content.takeWhile isGap) ++ body

def textOf (lines : List Line) : List Char :=
  lines.flatMap fun line => line.content ++ line.ending

def lineReports (number offset : Nat) (lineEnd : Int) (lines : List Line) (tokens : List Token) :
    List Report :=
  spaceIndents number offset lines ++ tokens.filterMap unclosedString? ++
    fixable (bracketReports [] lineEnd tokens)

theorem starts_after (hopens : line.Opens source tail) (opened : List Nat) (p q : Position) :
    Rule.Starts (Token.lineBreak line p ++ Token.scanLines opened q (Source.lines tail)) := by
  unfold lineBreak
  split
  · rename_i hnone
    obtain rfl : tail = [] := by
      have hends := hopens.ends
      rw [List.isEmpty_iff.mp hnone] at hends
      cases hends
      rfl
    cases opened with
    | nil => exact ⟨_, _, rfl, rfl⟩
    | cons depth opened => exact ⟨_, _, rfl, rfl⟩
  · exact ⟨_, _, rfl, rfl⟩

theorem MendedLine.content_of_blank (h : MendedLine line mended)
    (hblank : line.content.dropWhile isGap = []) : mended.content = line.content := by
  rcases h.content with ⟨-, hcontent⟩ | ⟨body, ⟨front, added, tail, hbody, -, hmends⟩, -⟩
  · exact hcontent
  · rw [hblank] at hbody
    exact absurd (append_eq_nil_iff.mp hbody.symm).1 hmends.filled

def indentReports (number offset : Nat) (line : Line) : List Report :=
  spaceIndents number offset [line]

theorem spaceIndents_cons (number offset : Nat) (line : Line) (lines : List Line) :
    spaceIndents number offset (line :: lines) =
      indentReports number offset line ++
        spaceIndents (number + 1) (offset + line.length) lines := by
  rw [indentReports, spaceIndents, spaceIndents, spaceIndents, append_nil]

theorem indentReports_of_blank (h : line.content.dropWhile isGap = []) (number offset : Nat) :
    indentReports number offset line = [] := by
  have hlead := takeWhile_append_dropWhile (p := isGap) (l := line.content)
  rw [h, append_nil] at hlead
  rw [indentReports, spaceIndents, hlead]
  simp [spaceIndents]

section

variable {source text tail : List Char} {i number : Nat} {line : Line} {reports : List Report}

theorem end_le_of_opens (hopens : line.Opens (source.drop i) tail) (hi : i ≤ source.length) :
    i + line.length ≤ source.length := by
  have hbound := add_le_of_drop hopens.drop_ending (add_le_of_drop hopens.text hi)
  rw [Line.length]
  omega

theorem after_of_opens (hopens : line.Opens (source.drop i) tail)
    (hmore : Source.lines tail = lines) (hline : p.line = number) (hoffset : p.offset = i)
    (hlines : lines ≠ []) :
    (line.after p).line = (number + 1 : Nat) ∧ (line.after p).column = 1 ∧
      (line.after p).offset = (i + line.length : Nat) := by
  have hending : line.ending.isEmpty = false := by
    refine isEmpty_eq_false_iff.mpr fun hnone => ?_
    have hends := hopens.ends
    rw [hnone] at hends
    cases hends
    exact hlines hmore.symm
  rw [Line.after, hending]
  simp [hline, hoffset]

theorem rewrites_past (hopens : line.Opens (source.drop i) tail) (hi : i ≤ source.length)
    (h : Rewrites source (i + line.length) (number + 1 : Nat) 1 text reports) :
    Rewrites source i number 1 ((line.content ++ line.ending) ++ text) reports := by
  have htext : source.drop i = (line.content ++ line.ending) ++ tail := by
    rw [hopens.text, append_assoc]
  have hlength : line.length = (line.content ++ line.ending).length := by
    rw [length_append, Line.length]
  rw [hlength] at h
  exact (h.weaken (.inl (by omega))).advance htext hi

theorem text_of_opens (hopens : line.Opens (source.drop i) tail) :
    source.drop i = line.content.takeWhile isGap ++
      (line.content.dropWhile isGap ++ (line.ending ++ tail)) := by
  rw [hopens.text, ← append_assoc (line.content.takeWhile _), takeWhile_append_dropWhile]

theorem body_of_opens (hopens : line.Opens (source.drop i) tail) (hi : i ≤ source.length) :
    source.drop (i + (line.content.takeWhile isGap).length) =
        line.content.dropWhile isGap ++ (line.ending ++ tail) ∧
      i + (line.content.takeWhile isGap).length ≤ source.length ∧
      i + line.length = i + (line.content.takeWhile isGap).length +
        (line.content.dropWhile isGap ++ line.ending).length := by
  have htext := text_of_opens hopens
  refine ⟨drop_add_of_drop_eq htext, add_le_of_drop htext hi, ?_⟩
  have hcut := congrArg List.length
    (takeWhile_append_dropWhile (p := isGap) (l := line.content))
  simp only [length_append] at hcut ⊢
  rw [Line.length]
  omega

theorem rewrites_row {behind : List Char} {row : List Report} {column : Int}
    (hinserts : Inserts number (i + front.length : Nat) column added row)
    (hdrop : source.drop i = front ++ behind ++ (ending ++ tail)) (hi : i ≤ source.length)
    (h : Rewrites source (i + (front ++ behind ++ ending).length) (number + 1) 1 text reports) :
    Rewrites source i number column (front ++ (added ++ behind) ++ (ending ++ text))
      (row ++ reports) := by
  have hrest : source.drop (i + front.length) = (behind ++ ending) ++ tail := by
    refine drop_add_of_drop_eq (hdrop.trans ?_)
    simp only [append_assoc]
  have hle : i + front.length ≤ source.length := by
    have hbound := add_le_of_drop hdrop hi
    rw [length_append] at hbound
    omega
  have hlength : i + (front ++ behind ++ ending).length =
      i + front.length + (behind ++ ending).length := by
    simp only [length_append]
    omega
  rw [hlength] at h
  have hnew := Rewrites.inserts hinserts rfl (h.advance hrest hle) (by omega)
  have hall := hnew.advance (hdrop.trans (append_assoc _ _ _)) hi
  simpa only [append_assoc] using hall

theorem rewrites_body {body mended : List Char} (hmended : Mended body mended)
    (hdrop : source.drop i = body ++ (ending ++ tail)) (hi : i ≤ source.length)
    (hline : p.line = number) (hoffset : p.offset = i)
    (h : Rewrites source (i + (body ++ ending).length) (number + 1) 1 text reports) (depth : Nat)
    (lineEnd : Int) :
    Rewrites source i number p.column (mended ++ (ending ++ text))
      (rowReports lineEnd (scanContent depth p body) ++ reports) := by
  obtain ⟨front, added, behind, rfl, rfl, hmends⟩ := hmended
  have hinserts := hmends.inserts depth lineEnd p
  rw [hline, hoffset] at hinserts
  exact rewrites_row hinserts hdrop hi h

theorem rewrites_indent (hopens : line.Opens (source.drop i) tail) (hi : i ≤ source.length)
    (hbody : line.content.dropWhile isGap ≠ [])
    (h : Rewrites source (i + (line.content.takeWhile isGap).length) number
      (1 + (line.content.takeWhile isGap).length) text reports) :
    Rewrites source i number 1 (fixedLead (line.content.takeWhile isGap) ++ text)
      (indentReports number i line ++ reports) := by
  have hcut := takeWhile_append_dropWhile (p := isGap) (l := line.content)
  have htext := text_of_opens hopens
  rw [indentReports, spaceIndents, spaceIndents, append_nil]
  generalize line.content.takeWhile isGap = lead, line.content.dropWhile isGap = rest at *
  have hshorter : lead.length < line.content.length := by
    have hpos := length_pos_iff.mpr hbody
    rw [← hcut, length_append]
    omega
  rw [fixedLead]
  simp only [hshorter, decide_true, Bool.true_and]
  cases hspace : lead.head? == some ' ' with
  | true =>
    have hpos : 0 < lead.length := by
      cases lead with
      | nil => cases hspace
      | cons c lead => exact Nat.succ_pos _
    refine Rewrites.cons (h.weaken (.inr ⟨rfl, by omega⟩)) rfl rfl (by omega) ?_
    simp
  | false =>
    exact (h.weaken (.inr ⟨rfl, by omega⟩)).advance htext hi

theorem rewrites_line (hmended : MendedLine line mended) (hopens : line.Opens (source.drop i) tail)
    (hi : i ≤ source.length) (hbody : line.content.dropWhile isGap ≠ [])
    (hline : p.line = number) (hcolumn : p.column = 1) (hoffset : p.offset = i)
    (h : Rewrites source (i + line.length) (number + 1) 1 text reports) (depth : Nat)
    (lineEnd : Int) :
    Rewrites source i number 1 (mended.content ++ mended.ending ++ text)
      (indentReports number i line ++ (rowReports lineEnd (scanContent depth
        (p.advance (line.content.takeWhile isGap).length) (line.content.dropWhile isGap)) ++
        reports)) := by
  obtain ⟨body, hbodyMended, hcontent⟩ := hmended.content.resolve_left fun hnil => hbody hnil.1
  obtain ⟨hrest, hle, hall⟩ := body_of_opens hopens hi
  rw [hall] at h
  have hoffset' : (p.advance (line.content.takeWhile isGap).length).offset =
      (i + (line.content.takeWhile isGap).length : Nat) := by
    simp only [Position.advance, hoffset]
    omega
  have hbehind := rewrites_body hbodyMended hrest hle (p := p.advance _) hline hoffset' h depth
    lineEnd
  have hstart : (p.advance (line.content.takeWhile isGap).length).column =
      1 + (line.content.takeWhile isGap).length := by
    simp only [Position.advance, hcolumn]
  rw [hstart] at hbehind
  have hwhole := rewrites_indent hopens hi hbody hbehind
  rw [hcontent, hmended.ending]
  simpa only [append_assoc] using hwhole

end

theorem filterMap_unclosedString?_structural {marks : List Token}
    (h : ∀ token ∈ marks, token.kind.isStructural = true) :
    marks.filterMap unclosedString? = [] := by
  refine filterMap_unclosedString? fun token htoken => ?_
  have hkind := h token htoken
  unfold isOpenString
  cases heq : token.kind <;> first | rfl | (rw [heq] at hkind; cases hkind)

theorem isStructural_lineBreak (line : Line) (p : Position) :
    ∀ token ∈ lineBreak line p, token.kind.isStructural = true := by
  intro token htoken
  rw [kinds_lineBreak line p token htoken]
  rfl

theorem scanLines_line (hbody : line.content.dropWhile isGap ≠ []) (opened : List Nat)
    (p : Position) (lines : List Line) :
    ∃ blocks depth inside, (∀ token ∈ blocks, token.kind.isStructural = true) ∧
      scanLines opened p (line :: lines) = blocks ++ scanContent depth
        (p.advance (line.content.takeWhile isGap).length) (line.content.dropWhile isGap) ++
          lineBreak line p ++ scanLines inside (line.after p) lines := by
  rw [scanLines]
  dsimp only
  rw [if_neg (by simpa using hbody)]
  refine ⟨_, _, _, fun token htoken => ?_, rfl⟩
  rcases indentation_kinds _ _ _ _ token htoken with hkind | hkind
  all_goals
    rw [hkind]
    rfl

theorem scanLines_blank (hblank : line.content.dropWhile isGap = []) (opened : List Nat)
    (p : Position) (lines : List Line) :
    scanLines opened p (line :: lines) = scanLines opened (line.after p) lines := by
  rw [scanLines]
  dsimp only
  rw [if_pos (by simpa using hblank)]

/-- The checks of brackets and of strings over a line with content and over those behind it. -/
theorem reports_scanLines {cs : List Char} (hlines : Source.lines cs = line :: lines)
    (hbody : line.content.dropWhile isGap ≠ []) (opened : List Nat) (p : Position) :
    ∃ depth inside row, row = scanContent depth
        (p.advance (line.content.takeWhile isGap).length) (line.content.dropWhile isGap) ∧
      (∀ lineEnd, bracketReports [] lineEnd (scanLines opened p (line :: lines)) =
        rowFaults [] row ++ (unclosedReports (row.foldl afterToken []).reverse
          (row.foldl endAfter lineEnd) ++ bracketReports [] (row.foldl endAfter lineEnd)
            (scanLines inside (line.after p) lines))) ∧
      (scanLines opened p (line :: lines)).filterMap unclosedString? =
        row.filterMap unclosedString? ++
          (scanLines inside (line.after p) lines).filterMap unclosedString? := by
  obtain ⟨tail, hopens, hmore⟩ := opens_of_lines hlines
  obtain ⟨blocks, depth, inside, hblocks, hscan⟩ := scanLines_line hbody opened p lines
  have hstarts := starts_after hopens inside p (line.after p)
  rw [hmore] at hstarts
  have hbreak := isStructural_lineBreak line p
  refine ⟨depth, inside, _, rfl, fun lineEnd => ?_, ?_⟩
  · rw [hscan, append_assoc, append_assoc, bracketReports_structural hblocks,
      bracketReports_append (kinds_scanContent depth _ _).1 hstarts,
      bracketReports_structural hbreak]
  · simp only [hscan, filterMap_append, filterMap_unclosedString?_structural hblocks,
      filterMap_unclosedString?_structural hbreak, nil_append, append_nil]

theorem scanLines_nil_reports (opened : List Nat) (p : Position) (lineEnd : Int) :
    (scanLines opened p []).filterMap unclosedString? = [] ∧
      bracketReports [] lineEnd (scanLines opened p []) = [] := by
  have hmarks : ∀ token ∈ scanLines opened p [], token.kind.isStructural = true := by
    intro token htoken
    rcases mem_append.mp htoken with htoken | htoken
    · obtain ⟨_, -, rfl⟩ := mem_map.mp htoken
      rfl
    · rw [mem_singleton.mp htoken]
      rfl
  have hbrackets := bracketReports_structural hmarks lineEnd []
  rw [append_nil] at hbrackets
  exact ⟨filterMap_unclosedString?_structural hmarks, hbrackets⟩

theorem lineReports_nil (number offset : Nat) (lineEnd : Int) (opened : List Nat) (p : Position) :
    lineReports number offset lineEnd [] (scanLines opened p []) = [] := by
  obtain ⟨hstrings, hbrackets⟩ := scanLines_nil_reports opened p lineEnd
  rw [lineReports, hstrings, hbrackets]
  rfl

/-- The reports on some lines of a source, the first of which starts at offset `i`, in the order of
the lines. -/
inductive ReportedLines (source : List Char) : Nat → Nat → List Line → List Report → Prop where
  | nil {i number : Nat} (within : i ≤ source.length) (none : source.drop i = []) :
      ReportedLines source i number [] []
  | blank {i number : Nat} {line : Line} {tail : List Char} {lines : List Line}
      {reports : List Report} (opens : line.Opens (source.drop i) tail) (within : i ≤ source.length)
      (blank : line.content.dropWhile isGap = [])
      (rest : ReportedLines source (i + line.length) (number + 1) lines reports) :
      ReportedLines source i number (line :: lines) reports
  | line {i number : Nat} {line : Line} {tail : List Char} {lines : List Line}
      {reports : List Report} {p : Position} (opens : line.Opens (source.drop i) tail)
      (within : i ≤ source.length) (filled : line.content.dropWhile isGap ≠ [])
      (start : p.line = number ∧ p.column = 1 ∧ p.offset = i) (depth : Nat) (lineEnd : Int)
      (rest : ReportedLines source (i + line.length) (number + 1) lines reports) :
      ReportedLines source i number (line :: lines)
        (indentReports number i line ++ (rowReports lineEnd (scanContent depth
          (p.advance (line.content.takeWhile isGap).length)
            (line.content.dropWhile isGap)) ++ reports))

/-- The reports on the lines of a source are made line by line. -/
theorem exists_reported (hlines : Source.lines (source.drop i) = lines) (hi : i ≤ source.length)
    {p : Position} (hplace : lines ≠ [] → p.line = number ∧ p.column = 1 ∧ p.offset = i)
    (opened : List Nat) (lineEnd : Int) :
    ∃ reports, ReportedLines source i number lines reports ∧
      (lineReports number i lineEnd lines (scanLines opened p lines)).Perm reports := by
  induction lines generalizing i number p opened lineEnd with
  | nil =>
    exact ⟨[], .nil hi (lines_eq_nil hlines),
      .of_eq (lineReports_nil number i lineEnd opened p)⟩
  | cons line lines ih =>
    have hstart := hplace (cons_ne_nil _ _)
    obtain ⟨tail, hopens, hmore⟩ := opens_of_lines hlines
    have hnext : lines ≠ [] → _ := after_of_opens hopens hmore hstart.1 hstart.2.2
    have hbehind (opened : List Nat) (lineEnd : Int) :=
      ih (hopens.drop_after ▸ hmore) (end_le_of_opens hopens hi) hnext opened lineEnd
    by_cases hblank : line.content.dropWhile isGap = []
    · -- a blank line leaves no token, and no report is on it
      obtain ⟨reports, hreported, hperm⟩ := hbehind opened lineEnd
      refine ⟨reports, .blank hopens hi hblank hreported, ?_⟩
      rwa [scanLines_blank hblank, lineReports, spaceIndents_cons, indentReports_of_blank hblank]
    · obtain ⟨depth, inside, row, hrow, hbrackets, hstrings⟩ :=
        reports_scanLines hlines hblank opened p
      obtain ⟨reports, hreported, hperm⟩ := hbehind inside (row.foldl endAfter lineEnd)
      refine ⟨_, .line hopens hi hblank hstart depth lineEnd hreported, ?_⟩
      refine .trans ?_ ((hperm.append_left _).append_left _)
      rw [← hrow, lineReports, lineReports, rowReports, spaceIndents_cons, hbrackets, hstrings]
      simp only [fixable_append, fixable_rowFaults, fixable_unclosedReports,
        nil_append, append_assoc]
      -- both sides are the same five lists in another order
      refine perm_iff_count.mpr fun report => ?_
      simp only [count_append]
      omega

theorem exists_reported_source (source : String) :
    ∃ reports, ReportedLines source.toList 0 1 (Source.lines source.toList) reports ∧
      (lineReports 1 0 0 (Source.lines source.toList) (Token.ofSource source)).Perm reports :=
  exists_reported (by rw [drop_zero]) (Nat.zero_le _) (fun _ => ⟨rfl, rfl, rfl⟩) [] 0

theorem ReportedLines.rewrites {mended : List Line} {reports : List Report}
    (h : ReportedLines source i number lines reports)
    (hmended : Forall₂ MendedLine lines mended) :
    Rewrites source i number 1 (textOf mended) reports := by
  induction h generalizing mended with
  | @nil i number within none =>
    cases hmended
    have hnil := @Rewrites.nil source i number 1 within
    rwa [none] at hnil
  | @blank _ _ line _ _ _ opens within blank rest ih =>
    cases hmended with
    | @cons _ mendedLine _ mended hline hrest =>
      have hmended : textOf (mendedLine :: mended) =
          (line.content ++ line.ending) ++ textOf mended := by
        rw [textOf, flatMap_cons, hline.content_of_blank blank, hline.ending, textOf]
      rw [hmended]
      exact rewrites_past opens within (ih hrest)
  | line opens within filled start depth lineEnd rest ih =>
    cases hmended with
    | cons hline hrest =>
      exact rewrites_line hline opens within filled start.1 start.2.1 start.2.2 (ih hrest) depth
        lineEnd

end Lint
end GuidedTrack
