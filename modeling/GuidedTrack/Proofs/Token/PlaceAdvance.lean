import GuidedTrack.Proofs.Token.TokenRows

/-! # Places and line breaks

The line and the column of an index are counted off the text itself: one line more for every line
break before it, and the distance to the front of its line. The lines a source is cut into are seen
to start where that count says.
-/

namespace GuidedTrack.Source

open List

variable {c : Char} {line : Line} {cs tail ending : List Char} {i : Nat}

/-- A line break ends with the character at index `i`: a line feed, or a carriage return that no
line feed follows. -/
def breakEnds (cs : List Char) (i : Nat) : Bool :=
  cs[i]? == some '\n' || cs[i]? == some '\r' && cs[i + 1]? != some '\n'

def breaksBefore (cs : List Char) (i : Nat) : Nat :=
  (range i).countP (breakEnds cs)

def lineStart (cs : List Char) : Nat → Nat
  | 0 => 0
  | i + 1 => if breakEnds cs i then i + 1 else lineStart cs i

def place (cs : List Char) (i : Nat) : Position :=
  ⟨1 + breaksBefore cs i, i - lineStart cs i + 1, i⟩

theorem place_succ (h : breakEnds cs i = false) : place cs (i + 1) = (place cs i).advance 1 := by
  simp only [place, breaksBefore, lineStart, h, range_succ, countP_append,
    countP_singleton, Bool.false_eq_true, if_false, Position.advance, Position.mk.injEq]
  omega

theorem place_break (h : breakEnds cs i = true) :
    place cs (i + 1) = ⟨(place cs i).line + 1, 1, i + 1⟩ := by
  simp only [place, breaksBefore, lineStart, h, range_succ, countP_append,
    countP_singleton, if_true, Position.mk.injEq]
  omega

def isInline (c : Char) : Bool :=
  c != '\n' && c != '\r'

@[simp] abbrev Inline (cs : List Char) : Prop :=
  ∀ c ∈ cs, isInline c = true

theorem isInline_of_pos {p : Char → Bool} (hfeed : p '\n' = false) (hreturn : p '\r' = false)
    (h : p c = true) : isInline c = true := by
  simp only [isInline, Bool.and_eq_true, bne_iff_ne]
  constructor <;> rintro rfl
  · exact Bool.noConfusion (hfeed.symm.trans h)
  · exact Bool.noConfusion (hreturn.symm.trans h)

theorem getElem?_of_drop (h : cs.drop i = c :: tail) : cs[i]? = some c := by
  rw [← head?_drop, h, head?_cons]

theorem breakEnds_inline (hdrop : cs.drop i = c :: tail) (hc : isInline c = true) :
    breakEnds cs i = false := by
  have hget := getElem?_of_drop hdrop
  simp only [isInline, Bool.and_eq_true, bne_iff_ne] at hc
  simp [breakEnds, hget, hc]

theorem drop_add_of_drop_eq {front : List Char} (h : cs.drop i = front ++ tail) :
    cs.drop (i + front.length) = tail := by
  rw [← drop_drop, h, drop_left]

theorem drop_succ_of_drop (h : cs.drop i = c :: tail) : cs.drop (i + 1) = tail := by
  rw [← drop_drop, h]
  rfl

theorem place_inline {front : List Char} (hdrop : cs.drop i = front ++ tail)
    (hfront : Inline front) :
    place cs (i + front.length) = (place cs i).advance front.length := by
  induction front generalizing i with
  | nil => simp
  | cons c front ih =>
    have hstep := place_succ (breakEnds_inline hdrop (hfront c mem_cons_self))
    have hrest : cs.drop (i + 1) = front ++ tail := drop_succ_of_drop hdrop
    have hplace := ih hrest fun d hd => hfront d (mem_cons_of_mem c hd)
    rw [hstep, Position.advance_advance, Nat.add_assoc] at hplace
    simpa [Nat.add_comm] using hplace

theorem place_add {n : Nat} (hn : n ≤ ((cs.drop i).takeWhile isInline).length) :
    place cs (i + n) = (place cs i).advance n := by
  have hcut := takeWhile_append_dropWhile (p := isInline) (l := cs.drop i)
  rw [← take_append_drop n ((cs.drop i).takeWhile isInline), append_assoc] at hcut
  have hplace := place_inline hcut.symm fun c hc =>
    all_eq_true.mp all_takeWhile c (mem_of_mem_take hc)
  rwa [length_take_of_le hn] at hplace

def Between (cs : List Char) (i : Nat) : Prop :=
  ∀ k, i = k + 1 → cs[k]? = some '\r' → cs[i]? ≠ some '\n'

theorem between_zero (cs : List Char) : Between cs 0 := by
  intro k hk
  omega

theorem between_break (h : breakEnds cs i = true) : Between cs (i + 1) := by
  intro k hk hreturn
  obtain rfl : i = k := by omega
  simpa [breakEnds, hreturn] using h

theorem between_inline (hdrop : cs.drop i = c :: tail) (hc : isInline c = true) :
    Between cs (i + 1) := by
  intro k hk hreturn
  obtain rfl : i = k := by omega
  have hget := getElem?_of_drop hdrop
  rw [hget] at hreturn
  obtain rfl := Option.some.inj hreturn
  cases hc

inductive Ends : List Char → List Char → Prop where
  | source : Ends [] []
  | feed {tail : List Char} : Ends ['\n'] tail
  | both {tail : List Char} : Ends ['\r', '\n'] tail
  | carriage {tail : List Char} (alone : tail.head? ≠ some '\n') : Ends ['\r'] tail

theorem Ends.takeWhile_isInline (h : Ends ending tail) :
    (ending ++ tail).takeWhile isInline = [] := by
  cases h <;> rfl

structure Line.Opens (line : Line) (cs tail : List Char) : Prop where
  text : cs = line.content ++ (line.ending ++ tail)
  inline : ∀ c ∈ line.content, isInline c = true
  ends : Ends line.ending tail

theorem lines_eq_nil (h : lines cs = []) : cs = [] := by
  unfold lines at h
  split at h
  · rfl
  · cases h
  · cases h
  · cases h
  · split at h <;> cases h

theorem opens_of_lines {more : List Line} (h : lines cs = line :: more) :
    ∃ tail, line.Opens cs tail ∧ lines tail = more := by
  fun_induction lines cs generalizing line more with
  | case1 => cases h
  | case2 rest ih =>
    cases h
    exact ⟨rest, ⟨rfl, by simp, .both⟩, rfl⟩
  | case3 rest hrest ih =>
    cases h
    refine ⟨rest, ⟨rfl, by simp, .carriage ?_⟩, rfl⟩
    intro hhead
    cases rest with
    | nil => cases hhead
    | cons d rest =>
      obtain rfl := Option.some.inj hhead
      exact hrest rest rfl
  | case4 rest ih =>
    cases h
    exact ⟨rest, ⟨rfl, by simp, .feed⟩, rfl⟩
  | case5 c rest hboth hcarriage hfeed hnil ih =>
    cases h
    obtain rfl := lines_eq_nil hnil
    have hc : isInline c = true := by simpa [isInline] using ⟨hfeed, hcarriage⟩
    exact ⟨[], ⟨rfl, by simpa using hc, .source⟩, rfl⟩
  | case6 c rest hboth hcarriage hfeed line more hlines ih =>
    cases h
    obtain ⟨tail, hopens, htail⟩ := ih hlines
    have hc : isInline c = true := by simpa [isInline] using ⟨hfeed, hcarriage⟩
    refine ⟨tail, ⟨congrArg (c :: ·) hopens.text, ?_, hopens.ends⟩, htail⟩
    intro d hd
    rcases mem_cons.mp hd with rfl | hd
    · exact hc
    · exact hopens.inline d hd

theorem lines_cons_inline (hc : isInline c = true) {rest : List Char} {more : List Line}
    (h : lines rest = line :: more) :
    lines (c :: rest) = { line with content := c :: line.content } :: more := by
  simp only [isInline, Bool.and_eq_true, bne_iff_ne] at hc
  rw [lines, h]
  · exact fun _ hreturn => absurd hreturn hc.2
  · exact hc.2
  · exact hc.1

theorem lines_of_opens (h : line.Opens cs tail) (hfilled : cs ≠ []) :
    lines cs = line :: lines tail := by
  obtain ⟨content, ending⟩ := line
  obtain ⟨rfl, hinline, hends⟩ := h
  dsimp only at hinline hends hfilled ⊢
  induction content with
  | nil =>
    cases hends with
    | source => exact absurd rfl hfilled
    | feed => simp [lines]
    | both => simp [lines]
    | carriage alone =>
      have halone : ∀ rest, tail ≠ '\n' :: rest := fun rest heq => alone (by rw [heq]; rfl)
      rw [nil_append, singleton_append, lines]
      exact fun rest heq => halone rest heq
  | cons c content ih =>
    obtain ⟨hc, hcontent⟩ := forall_mem_cons.mp hinline
    by_cases hrest : content ++ (ending ++ tail) = []
    · simp only [append_eq_nil_iff] at hrest
      obtain ⟨rfl, rfl, rfl⟩ := hrest
      simp only [isInline, Bool.and_eq_true, bne_iff_ne] at hc
      simp [lines, hc]
    · exact lines_cons_inline hc (ih hcontent hrest)

theorem lines_feed (hinline : Inline cs) (tail : List Char) :
    lines (cs ++ '\n' :: tail) = ⟨cs, ['\n']⟩ :: lines tail :=
  lines_of_opens ⟨rfl, hinline, .feed⟩ (by simp)

theorem lines_single (hfilled : cs ≠ []) (hinline : Inline cs)
    (hending : ending = [] ∨ ending = ['\n']) : lines (cs ++ ending) = [⟨cs, ending⟩] := by
  have hends : Ends ending [] := by
    rcases hending with rfl | rfl
    · exact .source
    · exact .feed
  have hopens : Line.Opens ⟨cs, ending⟩ (cs ++ ending) [] :=
    ⟨by rw [append_nil], hinline, hends⟩
  exact lines_of_opens hopens (by simp [hfilled])

theorem Ends.place_eq (h : Ends ending tail) (hdrop : cs.drop i = ending ++ tail)
    (hfilled : ending ≠ []) :
    place cs (i + ending.length) = ⟨(place cs i).line + 1, 1, i + ending.length⟩ ∧
      Between cs (i + ending.length) := by
  cases h with
  | source => exact absurd rfl hfilled
  | feed =>
    have hbreak : breakEnds cs i = true := by simp [breakEnds, getElem?_of_drop hdrop]
    exact ⟨place_break hbreak, between_break hbreak⟩
  | both =>
    have hnext : cs.drop (i + 1) = '\n' :: tail := drop_succ_of_drop hdrop
    have hopen : breakEnds cs i = false := by
      simp [breakEnds, getElem?_of_drop hdrop, getElem?_of_drop hnext]
    have hbreak : breakEnds cs (i + 1) = true := by simp [breakEnds, getElem?_of_drop hnext]
    have hplace := place_break hbreak
    rw [place_succ hopen] at hplace
    exact ⟨hplace, between_break hbreak⟩
  | carriage alone =>
    have hnext : cs[i + 1]? = tail.head? := by
      rw [← head?_drop, drop_succ_of_drop hdrop]
      rfl
    have hbreak : breakEnds cs i = true := by
      simp [breakEnds, getElem?_of_drop hdrop, hnext, alone]
    exact ⟨place_break hbreak, between_break hbreak⟩

namespace Line.Opens

variable {line : Line} {cs tail : List Char} {i : Nat}

theorem takeWhile_isInline (h : line.Opens cs tail) : cs.takeWhile isInline = line.content := by
  rw [h.text, takeWhile_append_of_pos h.inline, h.ends.takeWhile_isInline, append_nil]

theorem place_ending (h : line.Opens (cs.drop i) tail) :
    place cs (i + line.content.length) = (place cs i).advance line.content.length :=
  place_inline h.text h.inline

theorem drop_ending (h : line.Opens (cs.drop i) tail) :
    cs.drop (i + line.content.length) = line.ending ++ tail :=
  drop_add_of_drop_eq h.text

theorem drop_after (h : line.Opens (cs.drop i) tail) : cs.drop (i + line.length) = tail := by
  rw [length, ← Nat.add_assoc]
  exact drop_add_of_drop_eq h.drop_ending

/-- A line that starts between line breaks has its ending between line breaks too. -/
theorem between_ending (h : line.Opens (cs.drop i) tail) (hi : Between cs i) :
    Between cs (i + line.content.length) := by
  rcases eq_nil_or_concat line.content with hnil | ⟨front, c, hcontent⟩
  · simpa [hnil] using hi
  · rw [concat_eq_append] at hcontent
    have htext := h.text
    rw [hcontent, append_assoc] at htext
    have hlast := between_inline (drop_add_of_drop_eq htext)
      (h.inline c (by rw [hcontent]; exact mem_append_right front mem_cons_self))
    simpa [hcontent, Nat.add_assoc] using hlast

theorem after_eq (h : line.Opens (cs.drop i) tail) (hi : Between cs i) :
    line.after (place cs i) = place cs (i + line.length) ∧ Between cs (i + line.length) := by
  rw [length, ← Nat.add_assoc, after]
  split
  · rename_i hnil
    rw [List.isEmpty_iff.mp hnil, length_nil, Nat.add_zero]
    exact ⟨h.place_ending.symm, h.between_ending hi⟩
  · rename_i hfilled
    obtain ⟨hplace, hbetween⟩ := h.ends.place_eq h.drop_ending (by simpa using hfilled)
    refine ⟨?_, hbetween⟩
    rw [hplace, h.place_ending]
    simp [place, length, Position.advance, Int.add_assoc]

end Line.Opens
end GuidedTrack.Source

namespace GuidedTrack.Token

open List

open Source (Line)

/-- A numeral or a literal of a fragment is scanned out of one of its lines. -/
theorem exists_line_of_mem_ofExpression {text : String} {origin : Position} {token : Token}
    (h : token ∈ ofExpression text origin) (hkind : token.kind = .number ∨ token.kind = .string) :
    ∃ p content, content <:+: text.toList ∧ token ∈ (scanExpression none p content).1 := by
  have hlines (lines : List Line) (cs : List Char) (p : Position) (hcs : Source.lines cs = lines)
      (h : token ∈ scanExpressionLines p lines) :
      ∃ p content, content <:+: cs ∧ token ∈ (scanExpression none p content).1 := by
    induction lines generalizing cs p with
    | nil =>
      obtain rfl := mem_singleton.mp h
      rcases hkind with hkind | hkind <;> cases hkind
    | cons line more ih =>
      obtain ⟨tail, hopens, hmore⟩ := Source.opens_of_lines hcs
      rw [hopens.text]
      rw [scanExpressionLines, mem_append, mem_append] at h
      rcases h with (h | h) | h
      · exact ⟨p, line.content, (prefix_append _ _).isInfix, h⟩
      · rw [kinds_lineBreak line p token h] at hkind
        rcases hkind with hkind | hkind <;> cases hkind
      · obtain ⟨q, content, hcontent, hmem⟩ := ih tail _ hmore h
        refine ⟨q, content, hcontent.trans ?_, hmem⟩
        exact ((suffix_append _ _).trans (suffix_append _ _)).isInfix
  exact hlines _ text.toList origin rfl h

end GuidedTrack.Token
