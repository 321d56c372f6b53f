import GuidedTrack.Proofs.Layout.DisabledRegions
import Mathlib.Data.Nat.Find

/-! # Blank lines between blocks

Layout puts an empty line before a line that starts a new block. Which lines do is said here without
the state that layout keeps: a line has a previous sibling, the last line of its depth with no
shallower line between the two, and starts a block if the sibling had deeper lines or is of the
other kind. The open siblings of the state are the last lines of their depths; from this both agree.
-/

namespace GuidedTrack.Layout

open Text List Nat

/-! ## Siblings -/

section

variable (raws : List (List Char))

/-- Line `i` counts where blocks are separated: it has content, it is laid out, and it is no
comment. -/
structure Active (i : Nat) : Prop where
  filled : allBlank (lineAt raws i) = false
  outside : ¬ Inside raws i
  text : (contentOf (lineAt raws i)).take 2 ≠ ['-', '-']

def depthAt (i : Nat) : Nat :=
  ((lineAt raws i).takeWhile isGap).count '\t'

def keywordAt (i : Nat) : Bool :=
  (directiveName? (contentOf (lineAt raws i))).isSome

def Closes (k : Nat) : Prop :=
  OpenBefore raws k ∧ isSwitch "gtformat-enable" (lineAt raws k) = true

/-- Line `j` is before line `i` and of its depth, and nothing between them parts the two: no line
that is shallower, and no end of a region that is not laid out. -/
structure Level (j i : Nat) : Prop where
  before : j < i
  active : Active raws j
  depth : depthAt raws j = depthAt raws i
  enclosed : ∀ k < i, j < k → Active raws k → depthAt raws i ≤ depthAt raws k
  unparted : ∀ k < i, j < k → ¬ Closes raws k

/-- Line `j` is the previous sibling of line `i`: the last line on a level with it. -/
structure PreviousSibling (j i : Nat) : Prop where
  level : Level raws j i
  last : ∀ k < i, Level raws k i → k ≤ j

/-- Line `i` starts a new block: its previous sibling had deeper lines, or just one of the two is a
directive. -/
def StartsBlock (i : Nat) : Prop :=
  ∃ j < i, PreviousSibling raws j i ∧
    ((∃ k < i, j < k ∧ Active raws k ∧ depthAt raws i < depthAt raws k) ∨
      keywordAt raws i ≠ keywordAt raws j)

/-- An empty line is due before line `i`, given the lines that are written before it. -/
structure Separates (style : Style) (before : List (List Char)) (i : Nat) : Prop where
  on : 0 < style.blankLinesBetweenBlocks
  active : Active raws i
  starts : StartsBlock raws i
  after : before.getLast?.any (!allBlank ·) = true

end

section

variable {raws : List (List Char)}

instance (i : Nat) : Decidable (Active raws i) :=
  decidable_of_iff (allBlank (lineAt raws i) = false ∧ ¬ Inside raws i ∧
      (contentOf (lineAt raws i)).take 2 ≠ ['-', '-'])
    ⟨fun h => ⟨h.1, h.2.1, h.2.2⟩, fun h => ⟨h.filled, h.outside, h.text⟩⟩

instance (k : Nat) : Decidable (Closes raws k) :=
  inferInstanceAs (Decidable (_ ∧ _))

instance (j i : Nat) : Decidable (Level raws j i) :=
  decidable_of_iff (j < i ∧ Active raws j ∧ depthAt raws j = depthAt raws i ∧
      (∀ k < i, j < k → Active raws k → depthAt raws i ≤ depthAt raws k) ∧
      ∀ k < i, j < k → ¬ Closes raws k)
    ⟨fun h => ⟨h.1, h.2.1, h.2.2.1, h.2.2.2.1, h.2.2.2.2⟩,
      fun h => ⟨h.before, h.active, h.depth, h.enclosed, h.unparted⟩⟩

instance (j i : Nat) : Decidable (PreviousSibling raws j i) :=
  decidable_of_iff (Level raws j i ∧ ∀ k < i, Level raws k i → k ≤ j)
    ⟨fun h => ⟨h.1, h.2⟩, fun h => ⟨h.level, h.last⟩⟩

instance (i : Nat) : Decidable (StartsBlock raws i) :=
  inferInstanceAs (Decidable (∃ j < i, _ ∧ ((∃ k < i, _) ∨ _)))

instance (style : Style) (before : List (List Char)) (i : Nat) :
    Decidable (Separates raws style before i) :=
  decidable_of_iff (0 < style.blankLinesBetweenBlocks ∧ Active raws i ∧ StartsBlock raws i ∧
      before.getLast?.any (!allBlank ·) = true)
    ⟨fun h => ⟨h.1, h.2.1, h.2.2.1, h.2.2.2⟩, fun h => ⟨h.on, h.active, h.starts, h.after⟩⟩

-- deeper lines stand between the two lines that are not indented
example : Separates ["a".toList, "\tb".toList, "c".toList] {} ["a".toList, "\tb".toList] 2 := by
  decide

/-! ## Siblings that are open -/

/-- Line `j` is the last line of its depth before line `i`, and its block is still open. -/
structure Live (raws : List (List Char)) (i j : Nat) : Prop where
  before : j < i
  active : Active raws j
  deeper : ∀ k < i, j < k → Active raws k → depthAt raws j < depthAt raws k
  unparted : ∀ k < i, j < k → ¬ Closes raws k

variable {i j : Nat}

theorem previousSibling_iff :
    PreviousSibling raws j i ↔ Live raws i j ∧ depthAt raws j = depthAt raws i := by
  constructor
  · intro h
    refine ⟨⟨h.level.before, h.level.active, fun k hk hjk hactive => ?_, h.level.unparted⟩,
      h.level.depth⟩
    rw [h.level.depth]
    refine lt_of_le_of_ne (h.level.enclosed k hk hjk hactive) fun heq => ?_
    -- a later line of the same depth would be on a level with line `i` too
    have hlevel : Level raws k i :=
      ⟨hk, hactive, heq.symm, fun m hm hkm => h.level.enclosed m hm (by omega),
        fun m hm hkm => h.level.unparted m hm (by omega)⟩
    have hle := h.last k hk hlevel
    omega
  · rintro ⟨hlive, hdepth⟩
    refine ⟨⟨hlive.before, hlive.active, hdepth, fun k hk hjk hactive => ?_, hlive.unparted⟩,
      fun k hk hlevel => ?_⟩
    · have hlt := hlive.deeper k hk hjk hactive
      omega
    · by_contra hjk
      have hlt := hlive.deeper k hk (by omega) hlevel.active
      have heq := hlevel.depth
      omega

theorem live_succ_of_not_active (hactive : ¬ Active raws i) (hcloses : ¬ Closes raws i) :
    Live raws (i + 1) j ↔ Live raws i j := by
  constructor
  · intro h
    have hj : j ≠ i := by
      rintro rfl
      exact hactive h.active
    have hlt := h.before
    exact ⟨by omega, h.active, fun k hk => h.deeper k (by omega),
      fun k hk => h.unparted k (by omega)⟩
  · intro h
    have hj := h.before
    refine ⟨by omega, h.active, fun k hk hjk hk' => ?_, fun k hk hjk => ?_⟩
    · rcases Nat.lt_succ_iff_lt_or_eq.mp hk with hk | rfl
      · exact h.deeper k hk hjk hk'
      · exact absurd hk' hactive
    · rcases Nat.lt_succ_iff_lt_or_eq.mp hk with hk | rfl
      · exact h.unparted k hk hjk
      · exact hcloses

theorem not_live_of_closes (hcloses : Closes raws i) : ¬ Live raws (i + 1) j := by
  intro h
  rcases Nat.lt_succ_iff_lt_or_eq.mp h.before with hj | rfl
  · exact h.unparted i (by omega) hj hcloses
  · exact h.active.outside (.inl hcloses.1)

theorem live_succ_of_active (hactive : Active raws i) :
    Live raws (i + 1) j ↔ j = i ∨ Live raws i j ∧ depthAt raws j < depthAt raws i := by
  constructor
  · intro h
    rcases Nat.lt_succ_iff_lt_or_eq.mp h.before with hj | rfl
    · exact .inr ⟨⟨hj, h.active, fun k hk => h.deeper k (by omega),
        fun k hk => h.unparted k (by omega)⟩, h.deeper i (by omega) hj hactive⟩
    · exact .inl rfl
  · rintro (rfl | ⟨h, hdepth⟩)
    · exact ⟨by omega, hactive, by omega, by omega⟩
    · have hj := h.before
      refine ⟨by omega, h.active, fun k hk hjk hk' => ?_, fun k hk hjk => ?_⟩
      · rcases Nat.lt_succ_iff_lt_or_eq.mp hk with hk | rfl
        · exact h.deeper k hk hjk hk'
        · exact hdepth
      · rcases Nat.lt_succ_iff_lt_or_eq.mp hk with hk | rfl
        · exact h.unparted k hk hjk
        · exact fun hcloses => hactive.outside (.inl hcloses.1)

/-- Behind an open line, some line is deeper if and only if some open line is. -/
theorem exists_deeper_iff (h : Live raws i j) :
    (∃ k < i, j < k ∧ Active raws k ∧ depthAt raws j < depthAt raws k) ↔
      ∃ k, Live raws i k ∧ depthAt raws j < depthAt raws k := by
  constructor
  · rintro ⟨k, hk, hjk, hactive, -⟩
    -- the last line that counts is open
    obtain ⟨m, hm, hjm, hactive, hlast⟩ : ∃ m < i, j < m ∧ Active raws m ∧
        ∀ n < i, m < n → ¬ (j < n ∧ Active raws n) := by
      have hspec := findGreatest_spec (P := fun n => j < n ∧ Active raws n)
        (show k ≤ i - 1 by omega) ⟨hjk, hactive⟩
      have hle := findGreatest_le (P := fun n => j < n ∧ Active raws n) (i - 1)
      refine ⟨_, by omega, hspec.1, hspec.2, fun n hn hmn => ?_⟩
      exact findGreatest_is_greatest hmn (by omega)
    exact ⟨m, ⟨hm, hactive, fun n hn hmn hn' => absurd ⟨by omega, hn'⟩ (hlast n hn hmn),
      fun n hn hmn => h.unparted n hn (by omega)⟩, h.deeper m hm hjm hactive⟩
  · rintro ⟨k, hk, hdepth⟩
    -- were line `k` before line `j`, it would be shallower, as it is open behind line `j`
    have hjk : j < k := by
      by_contra hkj
      rcases Nat.lt_or_eq_of_le (Nat.le_of_not_lt hkj) with hkj | rfl
      · have hlt := hk.deeper j h.before hkj h.active
        omega
      · omega
    exact ⟨k, hk.before, hjk, hk.active, hdepth⟩

end

/-! ## The siblings of the state -/

def Descending (siblings : List Sibling) : Prop :=
  siblings.Pairwise fun a b => b.depth < a.depth

/-- The deeper siblings come first, then the one of the line's own depth if there is one, and then
the shallower ones. -/
theorem startsBlock_cases {siblings : List Sibling} (h : Descending siblings) (line : Sibling) :
    ∃ deeper outer, (∀ sibling ∈ deeper, line.depth < sibling.depth) ∧
      (∀ sibling ∈ outer, sibling.depth < line.depth) ∧
      (siblings = deeper ++ outer ∧ startsBlock siblings line = (false, line :: outer) ∨
        ∃ previous, previous.depth = line.depth ∧ siblings = deeper ++ previous :: outer ∧
          startsBlock siblings line =
            (!deeper.isEmpty || previous.isKeyword != line.isKeyword, line :: outer)) := by
  have hcut : siblings.takeWhile (fun sibling => line.depth < sibling.depth) ++
      siblings.dropWhile (fun sibling => line.depth < sibling.depth) = siblings :=
    takeWhile_append_dropWhile
  have hdeeper : ∀ sibling ∈ siblings.takeWhile (fun sibling => line.depth < sibling.depth),
      line.depth < sibling.depth :=
    fun sibling hmem => by simpa using mem_takeWhile_imp hmem
  simp only [startsBlock]
  cases houter : siblings.dropWhile fun sibling => line.depth < sibling.depth with
  | nil =>
    rw [houter] at hcut
    exact ⟨_, [], hdeeper, by simp, .inl ⟨hcut.symm, rfl⟩⟩
  | cons previous rest =>
    have hfirst : ¬ line.depth < previous.depth := by
      have hhead := head?_dropWhile_not (fun sibling : Sibling => line.depth < sibling.depth)
        siblings
      rw [houter] at hhead
      simpa using hhead
    rw [houter] at hcut
    have hrest : ∀ sibling ∈ rest, sibling.depth < previous.depth := by
      have hdescending := h
      rw [← hcut] at hdescending
      exact (pairwise_cons.mp (pairwise_append.mp hdescending).2.1).1
    by_cases heq : previous.depth = line.depth
    · refine ⟨_, rest, hdeeper, fun sibling hmem => heq ▸ hrest sibling hmem,
        .inr ⟨previous, heq, hcut.symm, ?_⟩⟩
      simp [heq]
    · refine ⟨_, previous :: rest, hdeeper, fun sibling hmem => ?_, .inl ⟨hcut.symm, ?_⟩⟩
      · rcases mem_cons.mp hmem with rfl | hmem
        · omega
        · have hlt := hrest sibling hmem
          omega
      · simp [heq]

theorem mem_startsBlock {siblings : List Sibling} (h : Descending siblings)
    (line sibling : Sibling) : sibling ∈ (startsBlock siblings line).2 ↔
      sibling = line ∨ sibling ∈ siblings ∧ sibling.depth < line.depth := by
  obtain ⟨deeper, outer, hdeeper, houter, ⟨rfl, hstarts⟩ | ⟨previous, hdepth, rfl, hstarts⟩⟩ :=
    startsBlock_cases h line <;> rw [hstarts] <;> grind

theorem descending_startsBlock {siblings : List Sibling} (h : Descending siblings)
    (line : Sibling) : Descending (startsBlock siblings line).2 := by
  obtain ⟨deeper, outer, hdeeper, houter, ⟨rfl, hstarts⟩ | ⟨previous, hdepth, rfl, hstarts⟩⟩ :=
    startsBlock_cases h line
  · rw [hstarts]
    exact .cons houter (pairwise_append.mp h).2.1
  · rw [hstarts]
    exact .cons houter (pairwise_cons.mp (pairwise_append.mp h).2.1).2

/-- A line starts a block if it has an open sibling of its depth that is of the other kind, or
behind which a deeper one is open. -/
theorem startsBlock_eq_true_iff {siblings : List Sibling} (h : Descending siblings)
    (line : Sibling) : (startsBlock siblings line).1 = true ↔
      ∃ previous ∈ siblings, previous.depth = line.depth ∧
        ((∃ sibling ∈ siblings, line.depth < sibling.depth) ∨
          line.isKeyword ≠ previous.isKeyword) := by
  obtain ⟨deeper, outer, hdeeper, houter, ⟨rfl, hstarts⟩ | ⟨previous, hdepth, rfl, hstarts⟩⟩ :=
    startsBlock_cases h line
  · rw [hstarts]
    refine iff_of_false Bool.false_ne_true ?_
    rintro ⟨other, hother, hdepth, -⟩
    rcases mem_append.mp hother with hother | hother
    · have hlt := hdeeper other hother
      omega
    · have hlt := houter other hother
      omega
  · rw [hstarts, Bool.or_eq_true, bne_iff_ne]
    constructor
    · intro hstart
      refine ⟨previous, by simp, hdepth, hstart.imp (fun hfilled => ?_) Ne.symm⟩
      cases deeper with
      | nil => cases hfilled
      | cons first rest => exact ⟨first, by simp, hdeeper first mem_cons_self⟩
    · rintro ⟨other, hother, hdepth', hstart⟩
      have hall {sibling : Sibling} (hmem : sibling ∈ deeper ++ previous :: outer) :
          sibling ∈ deeper ∨ sibling = previous ∨ sibling.depth < line.depth := by
        rcases mem_append.mp hmem with hmem | hmem
        · exact .inl hmem
        · exact .inr ((mem_cons.mp hmem).imp_right (houter sibling))
      refine hstart.imp ?_ fun hkind => ?_
      · rintro ⟨sibling, hmem, hlt⟩
        rcases hall hmem with hmem | rfl | hshallow
        · cases deeper with
          | nil => cases hmem
          | cons first rest => rfl
        · omega
        · omega
      · rcases hall hother with hmem | rfl | hshallow
        · have hlt := hdeeper other hmem
          omega
        · exact Ne.symm hkind
        · omega

/-! ## Steps and runs -/

section

variable {style : Style} {raws : List (List Char)} {i : Nat} {state after : State}
  {written : List (List Char)}

theorem not_inside (hopen : state.disabled = true ↔ OpenBefore raws i)
    (on : state.disabled = false) (word : isSwitch "gtformat-disable" (lineAt raws i) = false) :
    ¬ Inside raws i := by
  rintro (hoff | hoff)
  · rw [hopen.mpr hoff] at on
    cases on
  · rw [hoff] at word
    cases word

/-- What is left of the siblings after a line: a line that counts enters them, and the end of a
region drops them all. -/
theorem Lays.siblings (h : Lays style state (lineAt raws i) written after)
    (hopen : state.disabled = true ↔ OpenBefore raws i) :
    after.siblings =
      if Active raws i then (startsBlock state.siblings (siblingOf (lineAt raws i))).2
      else if Closes raws i then [] else state.siblings := by
  have hinside (off : OpenBefore raws i) : ¬ Active raws i :=
    fun hactive => hactive.outside (.inl off)
  have hclosed (on : state.disabled = false) : ¬ Closes raws i := fun hcloses => by
    rw [hopen.mpr hcloses.1] at on
    cases on
  cases h with
  | copied off word =>
    have hcloses : ¬ Closes raws i := fun hcloses => by
      rw [hcloses.2] at word
      cases word
    rw [if_neg (hinside (hopen.mp off)), if_neg hcloses]
  | switchOn off word =>
    rw [if_neg (hinside (hopen.mp off)), if_pos ⟨hopen.mp off, word⟩]
  | switchOff on word =>
    rw [if_neg fun hactive => hactive.outside (.inr word), if_neg (hclosed on)]
  | dropped on blank | blank on blank =>
    have hactive : ¬ Active raws i := fun hactive => by simp [hactive.filled] at blank
    rw [if_neg hactive, if_neg (hclosed on)]
  | comment on word filled dashes =>
    rw [if_neg fun hactive => hactive.text dashes, if_neg (hclosed on)]
  | text on word filled text =>
    rw [if_pos ⟨filled, not_inside hopen on word, text⟩]
    rfl

/-- The open siblings of the state before line `i` are the lines that are open there. -/
structure Tracks (raws : List (List Char)) (i : Nat) (siblings : List Sibling) : Prop where
  descending : Descending siblings
  mem : ∀ sibling, sibling ∈ siblings ↔ ∃ j, Live raws i j ∧ siblingOf (lineAt raws j) = sibling

theorem Lays.tracks (h : Lays style state (lineAt raws i) written after)
    (hopen : state.disabled = true ↔ OpenBefore raws i) (htracks : Tracks raws i state.siblings) :
    Tracks raws (i + 1) after.siblings := by
  rw [h.siblings hopen]
  split
  · rename_i hactive
    refine ⟨descending_startsBlock htracks.descending _, fun sibling => ?_⟩
    simp only [mem_startsBlock htracks.descending, htracks.mem, live_succ_of_active hactive]
    constructor
    · rintro (rfl | ⟨⟨j, hlive, rfl⟩, hdepth⟩)
      · exact ⟨i, .inl rfl, rfl⟩
      · exact ⟨j, .inr ⟨hlive, hdepth⟩, rfl⟩
    · rintro ⟨j, rfl | ⟨hlive, hdepth⟩, rfl⟩
      · exact .inl rfl
      · exact .inr ⟨⟨j, hlive, rfl⟩, hdepth⟩
  rename_i hactive
  split
  · rename_i hcloses
    refine ⟨.nil, fun sibling => iff_of_false (by simp) ?_⟩
    rintro ⟨j, hlive, -⟩
    exact not_live_of_closes hcloses hlive
  · rename_i hcloses
    refine ⟨htracks.descending, fun sibling => ?_⟩
    simp only [htracks.mem, live_succ_of_not_active hactive hcloses]

theorem Tracks.startsBlock_iff {siblings : List Sibling} (h : Tracks raws i siblings) :
    (startsBlock siblings (siblingOf (lineAt raws i))).1 = true ↔ StartsBlock raws i := by
  rw [startsBlock_eq_true_iff h.descending]
  constructor
  · rintro ⟨_, hmem, hdepth, hstart⟩
    obtain ⟨j, hlive, rfl⟩ := (h.mem _).mp hmem
    refine ⟨j, hlive.before, previousSibling_iff.mpr ⟨hlive, hdepth⟩, hstart.imp_left ?_⟩
    rintro ⟨_, hmem', hlt⟩
    obtain ⟨k, hk, rfl⟩ := (h.mem _).mp hmem'
    have hdeeper := (exists_deeper_iff hlive).mpr ⟨k, hk, hdepth.trans_lt hlt⟩
    simpa only [show depthAt raws j = depthAt raws i from hdepth] using hdeeper
  · rintro ⟨j, hj, hprevious, hstart⟩
    obtain ⟨hlive, hdepth⟩ := previousSibling_iff.mp hprevious
    refine ⟨_, (h.mem _).mpr ⟨j, hlive, rfl⟩, hdepth, hstart.imp_left fun hdeeper => ?_⟩
    rw [← hdepth] at hdeeper
    obtain ⟨k, hk, hlt⟩ := (exists_deeper_iff hlive).mp hdeeper
    exact ⟨_, (h.mem _).mpr ⟨k, hk, rfl⟩, hdepth.symm.trans_lt hlt⟩

end

theorem tracks_stateBefore (style : Style) {raws : List (List Char)} {i : Nat}
    (h : i ≤ raws.length) : Tracks raws i (stateBefore style raws i).siblings := by
  induction i with
  | zero =>
    refine ⟨.nil, fun sibling => iff_of_false (by simp [stateBefore, State.run]) ?_⟩
    rintro ⟨j, hlive, -⟩
    exact absurd hlive.before (by omega)
  | succ i ih =>
    have hi := le_of_succ_le h
    exact (lays_lineAt style h).tracks (disabled_stateBefore style hi) (ih hi)

/-! ## Lines that are written -/

section

variable {front : List (List Char)} {i : Nat}

theorem lineAt_append (back : List (List Char)) (h : i < front.length) :
    lineAt (front ++ back) i = lineAt front i := by
  rw [lineAt, lineAt, getElem?_append_left h]

theorem lineAt_concat (front : List (List Char)) (line : List Char) :
    lineAt (front ++ [line]) front.length = line := by
  simp [lineAt]

theorem openBefore_append (back : List (List Char)) (h : i ≤ front.length) :
    OpenBefore (front ++ back) i ↔ OpenBefore front i := by
  refine exists_congr fun j => and_congr_right fun hj => ?_
  rw [lineAt_append back (by omega)]
  refine and_congr_right fun _ => forall₂_congr fun k hk => ?_
  rw [lineAt_append back (by omega)]

end

/-- What the state knows of the lines that are written: whether layout is switched off behind them,
and whether the last of them is blank. Two of them in a row are blank only where layout is off. -/
structure Clean (state : State) (lines : List (List Char)) : Prop where
  off : state.disabled = true ↔ OpenBefore lines lines.length
  last : state.lastBlank = lines.getLast?.map allBlank
  single : ∀ k, k + 1 < lines.length → allBlank (lineAt lines k) = true →
    allBlank (lineAt lines (k + 1)) = true → OpenBefore lines (k + 1)

theorem clean_nil : Clean {} [] where
  off := by simp [OpenBefore]
  last := rfl
  single _ hk := absurd hk (by simp)

section

variable {style : Style} {state after : State} {lines : List (List Char)}

theorem Clean.any_getLast? (h : Clean state lines) (blank : Bool) :
    lines.getLast?.any (allBlank · == blank) = (state.lastBlank == some blank) := by
  rw [h.last]
  cases lines.getLast? <;> rfl

theorem Clean.concat (h : Clean state lines) {line : List Char}
    (hoff : after.disabled = true ↔ isSwitch "gtformat-disable" line = true ∨
      state.disabled = true ∧ isSwitch "gtformat-enable" line = false)
    (hlast : after.lastBlank = some (allBlank line))
    (hsingle : state.lastBlank = some true → allBlank line = true → state.disabled = true) :
    Clean after (lines ++ [line]) where
  off := by
    rw [length_append, length_singleton, openBefore_succ, lineAt_concat,
      openBefore_append _ (le_refl _), ← h.off, hoff]
  last := by rw [getLast?_concat, hlast, Option.map_some]
  single k hk hblank hnext := by
    rw [length_append, length_singleton] at hk
    rw [lineAt_append _ (by omega)] at hblank
    rw [openBefore_append _ (by omega)]
    rcases Nat.lt_succ_iff_lt_or_eq.mp hk with hk | hk
    · rw [lineAt_append _ hk] at hnext
      exact h.single k hk hblank hnext
    · -- the new line and the last one before it
      rw [hk, lineAt_concat] at hnext
      rw [hk, ← h.off]
      refine hsingle ?_ hnext
      have hlines : lines[k]? = lines.getLast? := by
        rw [getLast?_eq_getElem?, ← hk, Nat.add_sub_cancel]
      rw [h.last, ← hlines, getElem?_eq_getElem (by omega)]
      simpa [lineAt, getElem?_eq_getElem (show k < lines.length by omega)] using hblank

theorem Lays.clean {raw : List Char} {written : List (List Char)}
    (h : Lays style state raw written after) (hclean : Clean state lines) :
    Clean after (lines ++ written) := by
  have hdisabled := h.disabled
  cases h with
  | copied off word => exact hclean.concat hdisabled rfl fun _ _ => off
  | switchOn off word =>
    exact hclean.concat hdisabled (by rw [allBlank_of_isSwitch word]) fun _ _ => off
  | switchOff on word =>
    refine hclean.concat hdisabled (by rw [allBlank_of_isSwitch word]) fun _ hblank => ?_
    simp [allBlank_of_isSwitch word] at hblank
  | dropped on blank again => rwa [append_nil]
  | blank on blank first =>
    have hblank := (allBlank_relaid style raw).trans blank
    refine hclean.concat ?_ (by rw [hblank]) fun hlast => absurd hlast first
    simp [on, isSwitch_of_allBlank _ hblank]
  | comment on word filled dashes =>
    have hfilled := (allBlank_relaid style raw).trans filled
    refine hclean.concat ?_ (by rw [hfilled]) fun _ hblank => by simp [hfilled] at hblank
    simp [on, isSwitch_relaid style word]
  | text on word filled text =>
    have hfilled := (allBlank_relaid style raw).trans filled
    have htext : (state.enter (siblingOf raw)).disabled = true ↔
        isSwitch "gtformat-disable" (relaid style raw) = true ∨
        state.disabled = true ∧ isSwitch "gtformat-enable" (relaid style raw) = false := by
      simp [on, isSwitch_relaid style word, State.enter]
    split
    · rename_i hseparates
      -- the empty line is put behind a line that is not blank
      have hempty : Clean { state with lastBlank := some true } (lines ++ [[]]) := by
        refine hclean.concat ?_ rfl fun hlast => ?_
        · simp [on, isSwitch_of_allBlank _ (show allBlank [] = true from rfl)]
        · simp [separates, hlast] at hseparates
      rw [← append_assoc]
      exact hempty.concat htext (by rw [hfilled]; rfl) fun _ hblank => by simp [hfilled] at hblank
    · exact hclean.concat htext (by rw [hfilled]; rfl) fun _ hblank => by simp [hfilled] at hblank

end

theorem clean_layoutLines (style : Style) {state : State} {lines : List (List Char)}
    (h : Clean state lines) (raws : List (List Char)) :
    Clean (state.run style raws) (lines ++ layoutLines style state raws) := by
  induction raws generalizing state lines with
  | nil =>
    rw [show layoutLines style state [] = [] from rfl, append_nil]
    exact h
  | cons raw rest ih =>
    rw [layoutLines_cons, ← append_assoc]
    exact ih ((lays_layoutLine style state raw).clean h)

/-! ## Blocks -/

/-- What is written for line `i` but for an empty line before it, given the lines that are written
before: the line itself in a region that is not laid out, and nothing for a blank line that follows
another. -/
def keptLine (style : Style) (raws before : List (List Char)) (i : Nat) : List (List Char) :=
  if Inside raws i then [lineAt raws i]
  else if allBlank (lineAt raws i) && before.getLast?.any allBlank then []
  else [relaid style (lineAt raws i)]

section

variable {style : Style} {raws : List (List Char)} {i : Nat}

theorem solid_keptLine (before : List (List Char)) :
    ∀ line ∈ keptLine style raws before i, solid line = solid (lineAt raws i) := by
  intro line hline
  unfold keptLine at hline
  split at hline
  · rw [mem_singleton.mp hline]
  split at hline
  · cases hline
  · rw [mem_singleton.mp hline, solid_relaid]

theorem separates_iff {state : State} {before : List (List Char)} (hactive : Active raws i)
    (htracks : Tracks raws i state.siblings) (hclean : Clean state before) :
    separates style state (siblingOf (lineAt raws i)) = true ↔ Separates raws style before i := by
  have hafter : before.getLast?.any (!allBlank ·) = (state.lastBlank == some false) := by
    simpa using hclean.any_getLast? false
  simp only [separates, ← hafter, Bool.and_eq_true, decide_eq_true_eq, htracks.startsBlock_iff]
  constructor
  · rintro ⟨⟨hon, hstarts⟩, hafter⟩
    exact ⟨hon, hactive, hstarts, hafter⟩
  · intro h
    exact ⟨⟨h.on, h.starts⟩, h.after⟩

/-- A step told by the lines: what is kept of a line, behind an empty line where one is due. -/
theorem Lays.written_eq {state after : State} {written before : List (List Char)}
    (h : Lays style state (lineAt raws i) written after)
    (hopen : state.disabled = true ↔ OpenBefore raws i)
    (htracks : Tracks raws i state.siblings) (hclean : Clean state before) :
    written =
      (if Separates raws style before i then [[]] else []) ++ keptLine style raws before i := by
  have hnot (hactive : ¬ Active raws i) : ¬ Separates raws style before i :=
    fun hseparates => hactive hseparates.active
  have hlast : before.getLast?.any allBlank = (state.lastBlank == some true) := by
    simpa using hclean.any_getLast? true
  cases h with
  | copied off | switchOn off =>
    have hinside : Inside raws i := .inl (hopen.mp off)
    rw [if_neg (hnot fun hactive => hactive.outside hinside), keptLine, if_pos hinside]
    rfl
  | switchOff on word =>
    have hinside : Inside raws i := .inr word
    rw [if_neg (hnot fun hactive => hactive.outside hinside), keptLine, if_pos hinside]
    rfl
  | dropped on blank again =>
    have hactive : ¬ Active raws i := fun hactive => by simp [hactive.filled] at blank
    have hinside := not_inside hopen on (isSwitch_of_allBlank _ blank)
    simp [hnot hactive, keptLine, hinside, blank, hlast, again]
  | blank on blank first =>
    have hactive : ¬ Active raws i := fun hactive => by simp [hactive.filled] at blank
    have hinside := not_inside hopen on (isSwitch_of_allBlank _ blank)
    simp [hnot hactive, keptLine, hinside, hlast, first]
  | comment on word filled dashes =>
    have hinside := not_inside hopen on word
    simp [hnot fun hactive => hactive.text dashes, keptLine, hinside, filled]
  | text on word filled text =>
    have hinside := not_inside hopen on word
    have hactive : Active raws i := ⟨filled, hinside, text⟩
    simp only [separates_iff hactive htracks hclean, keptLine, hinside, filled, Bool.false_and,
      if_false, Bool.false_eq_true]

end

/-- The run lemma: line by line, what is written grows by what is kept of the line, behind an empty
line where one is due. -/
theorem layoutLines_take_succ (style : Style) {raws : List (List Char)} {i : Nat}
    (h : i < raws.length) :
    let before := layoutLines style {} (raws.take i)
    layoutLines style {} (raws.take (i + 1)) = before ++
      ((if Separates raws style before i then [[]] else []) ++ keptLine style raws before i) := by
  intro before
  have hi := le_of_lt h
  have hclean : Clean (stateBefore style raws i) before :=
    clean_layoutLines style clean_nil (raws.take i)
  rw [take_succ_eq h, layoutLines_append, layoutLines_cons, ← (lays_lineAt style h).written_eq
    (disabled_stateBefore style hi) (tracks_stateBefore style hi) hclean]
  simp [before, stateBefore, layoutLines]

theorem sourceLines_layout (style : Style) (cs : List Char) :
    sourceLines (layout style cs) = [[]] ∨
      sourceLines (layout style cs) <+: layoutLines style {} (sourceLines cs) := by
  obtain ⟨kept, back, feed, hlines, -, hfeed, hlayout⟩ := layout_eq_fed style cs
  rw [hlayout, hlines]
  by_cases hkept : kept = []
  · left
    rw [hkept]
    cases feed <;> rfl
  · refine .inr (IsPrefix.trans ?_ (prefix_append kept back))
    cases feed with
    | true => exact ⟨[], by rw [sourceLines_fed hkept hfeed, append_nil]⟩
    | false =>
      have hlast := sourceLines_prefix_splitFeeds (fed false kept)
      rwa [splitFeeds_fed_lines false hkept hfeed, if_neg Bool.false_ne_true,
        append_nil] at hlast

theorem inside_of_allBlank (style : Style) (cs : List Char) {outs : List (List Char)}
    (houts : sourceLines (layout style cs) = outs) {k : Nat} (hk : k + 1 < outs.length)
    (hblank : allBlank (lineAt outs k) = true) (hnext : allBlank (lineAt outs (k + 1)) = true) :
    Inside outs k ∧ Inside outs (k + 1) := by
  have hopen : OpenBefore outs (k + 1) := by
    rcases sourceLines_layout style cs with hempty | ⟨back, hback⟩
    · rw [← houts, hempty] at hk
      exact absurd hk (by simp)
    · have hclean := (clean_layoutLines style clean_nil (sourceLines cs)).single k
      rw [nil_append, ← hback, houts, lineAt_append _ (by omega), lineAt_append _ hk,
        openBefore_append _ (by omega), length_append] at hclean
      exact hclean (by omega) hblank hnext
  rcases (openBefore_succ outs k).mp hopen with hoff | ⟨hprevious, -⟩
  · simp [isSwitch_of_allBlank _ hblank] at hoff
  · exact ⟨.inl hprevious, .inl hopen⟩

/-- A text is laid out line by line. Before a line that starts a new block an empty line is put, and
no other blank line anywhere; of the line is kept what `keptLine` says. Outside regions that are not
laid out no two blank lines follow each other. -/
theorem format_separates (style : Style) (source : String) :
    let raws := sourceLines source.toList
    let outs := sourceLines (format style source).toList
    (∃ written : Nat → List (List Char), written 0 = [] ∧
      (∀ i < raws.length, written (i + 1) = written i ++
        ((if Separates raws style (written i) i then [[]] else []) ++
          keptLine style raws (written i) i)) ∧
      (∀ i, ∀ line ∈ keptLine style raws (written i) i, solid line = solid (lineAt raws i)) ∧
      (format style source).toList =
        finish style (source.toList.getLast? == some '\n') (written raws.length)) ∧
    ∀ k, k + 1 < outs.length → allBlank (lineAt outs k) = true →
      allBlank (lineAt outs (k + 1)) = true → Inside outs k ∧ Inside outs (k + 1) := by
  intro raws outs
  have hformat : (format style source).toList = layout style source.toList := by simp [format]
  refine ⟨⟨fun i => layoutLines style {} (raws.take i), rfl,
    fun i hi => layoutLines_take_succ style hi, fun i => solid_keptLine _, ?_⟩, fun k => ?_⟩
  · simp only [hformat, layout_eq_finish, raws, take_length]
  · exact inside_of_allBlank style source.toList (congrArg sourceLines hformat.symm)

end GuidedTrack.Layout
