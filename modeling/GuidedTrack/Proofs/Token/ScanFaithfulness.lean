import GuidedTrack.Proofs.Text.SliceBounds
import GuidedTrack.Proofs.Token.PlaceAdvance
import GuidedTrack.Proofs.Token.ScannerRows

/-! # Faithful scans

The tokens of a document stand in the order of the text, each spelled as it is there and each at its
true line and column, and between them nothing is lost but blanks. Main statement:
`ofSource_faithful`.
-/

namespace GuidedTrack.Token

open Source Text List Nat

variable {kind : Kind} {ending cs tail : List Char} {tokens : List Token} {i : Nat} {p : Position}

/-- The text from index `i` to index `j` is one line break, neither more nor less. -/
structure LineBreak (cs : List Char) (i j : Nat) : Prop where
  text : slice cs i j ∈ [['\n'], ['\r'], ['\r', '\n']]
  opens : Between cs i
  closes : Between cs j

/-- The token covers the text from index `i` to index `j`. -/
structure Laid (cs : List Char) (i j : Nat) (token : Token) : Prop where
  start : token.span.start = place cs i
  stop : token.span.stop.offset = j
  forward : i ≤ j
  bound : j ≤ cs.length
  filled : token.kind ≠ .dedent → token.kind ≠ .endOfInput → i < j
  spells : token.Spells (slice cs i j)
  inline : token.kind ≠ .newline → ∀ c ∈ slice cs i j, c ≠ '\n' ∧ c ≠ '\r'
  newline : token.kind = .newline → LineBreak cs i j

theorem Laid.offset {cs : List Char} {i j : Nat} {token : Token} (h : Laid cs i j token) :
    token.span.start.offset = i := by
  rw [h.start]
  rfl

/-- Tokens that lose nothing of a text but blanks and know their places in it. -/
structure Faithful (cs : List Char) (tokens : List Token) : Prop where
  laid : ∀ token ∈ tokens, ∃ i j, Laid cs i j token
  ordered : tokens.Pairwise fun s t => s.span.stop.offset ≤ t.span.start.offset
  blank : ∀ (i : Nat) (c : Char), cs[i]? = some c →
    (∀ token ∈ tokens, ¬ (token.span.start.offset ≤ i ∧ i < token.span.stop.offset)) →
      isBlank c = true

/-- Tokens over the text from index `i` to index `j`, with blanks between them. -/
inductive Covers (cs : List Char) : Nat → Nat → List Token → Prop where
  | nil {i : Nat} : Covers cs i i []
  | blank {i j : Nat} {c : Char} {tokens : List Token} (get : cs[i]? = some c)
      (blank : isBlank c = true) (rest : Covers cs (i + 1) j tokens) : Covers cs i j tokens
  | token {i j k : Nat} {token : Token} {tokens : List Token} (laid : Laid cs i j token)
      (rest : Covers cs j k tokens) : Covers cs i k (token :: tokens)

namespace Covers

variable {cs : List Char} {i j k : Nat} {tokens more : List Token}

theorem append (h : Covers cs i j tokens) (hmore : Covers cs j k more) :
    Covers cs i k (tokens ++ more) := by
  induction h with
  | nil => exact hmore
  | blank get hblank rest ih => exact .blank get hblank (ih hmore)
  | token laid rest ih => exact .token laid (ih hmore)

theorem mem (h : Covers cs i j tokens) {token : Token} (htoken : token ∈ tokens) :
    ∃ m n, Laid cs m n token ∧ i ≤ m := by
  induction h with
  | nil => cases htoken
  | blank get hblank rest ih =>
    obtain ⟨m, n, hlaid, hm⟩ := ih htoken
    exact ⟨m, n, hlaid, le_of_succ_le hm⟩
  | token laid rest ih =>
    rcases mem_cons.mp htoken with rfl | htoken
    · exact ⟨_, _, laid, le_refl _⟩
    · obtain ⟨m, n, hlaid, hm⟩ := ih htoken
      exact ⟨m, n, hlaid, le_trans laid.forward hm⟩

theorem ordered (h : Covers cs i j tokens) :
    tokens.Pairwise fun s t => s.span.stop.offset ≤ t.span.start.offset := by
  induction h with
  | nil => exact .nil
  | blank get hblank rest ih => exact ih
  | token laid rest ih =>
    refine .cons (fun t ht => ?_) ih
    obtain ⟨m, n, hlaid, hm⟩ := rest.mem ht
    rw [laid.stop, hlaid.start]
    exact Int.ofNat_le.mpr hm

theorem uncovered (h : Covers cs i j tokens) {n : Nat} {c : Char} (hi : i ≤ n) (hj : n < j)
    (get : cs[n]? = some c)
    (hfree : ∀ token ∈ tokens, ¬ (token.span.start.offset ≤ n ∧ n < token.span.stop.offset)) :
    isBlank c = true := by
  induction h with
  | nil => omega
  | @blank i j d tokens hget hblank rest ih =>
    rcases eq_or_lt_of_le hi with rfl | hi
    · rw [hget] at get
      exact Option.some.inj get ▸ hblank
    · exact ih hi hj hfree
  | @token i m j token tokens laid rest ih =>
    have hstart := laid.offset
    have hstop := laid.stop
    have hout := hfree token mem_cons_self
    exact ih (by omega) hj fun t ht => hfree t (mem_cons_of_mem token ht)

theorem faithful (h : Covers cs 0 cs.length tokens) : Faithful cs tokens where
  laid token htoken := by
    obtain ⟨m, n, hlaid, -⟩ := h.mem htoken
    exact ⟨m, n, hlaid⟩
  ordered := h.ordered
  blank n c get hfree := h.uncovered (zero_le n) (List.getElem?_eq_some_iff.mp get).1 get hfree

end Covers

/-! ## Rows and line breaks -/

section

variable {cs front tail : List Char} {i : Nat} {tokens : List Token}

theorem Covers.blanks (hdrop : cs.drop i = front ++ tail) (h : ∀ c ∈ front, isBlank c = true) :
    Covers cs i (i + front.length) [] := by
  induction front generalizing i with
  | nil => exact .nil
  | cons c front ih =>
    have hrest : cs.drop (i + 1) = front ++ tail := drop_succ_of_drop hdrop
    have hcovers := ih hrest fun d hd => h d (mem_cons_of_mem c hd)
    rw [Nat.add_assoc, Nat.add_comm 1] at hcovers
    exact .blank (getElem?_of_drop hdrop) (h c mem_cons_self) hcovers

theorem laid_mark (empty : kind = .dedent ∨ kind = .endOfInput) (hi : i ≤ cs.length) :
    Laid cs i i (mark kind (place cs i)) := by
  have hnil : slice cs i i = [] := slice_self cs i
  refine ⟨rfl, ?_, le_refl i, hi, ?_, ?_, ?_, ?_⟩
  · simp [mark, covering, place]
  · rcases empty with rfl | rfl <;> simp [mark, covering]
  · rw [hnil]
    rcases empty with rfl | rfl <;> simp [Spells, mark, covering]
  · simp [hnil]
  · rcases empty with rfl | rfl <;> simp [mark, covering]

theorem Row.covers (h : Row p front tokens) (hp : p = place cs i)
    (hdrop : cs.drop i = front ++ tail) (hi : i ≤ cs.length)
    (hinline : Inline front) : Covers cs i (i + front.length) tokens := by
  induction h generalizing i with
  | nil => exact .nil
  | @blank p c front tokens hblank rest ih =>
    have hrest : cs.drop (i + 1) = front ++ tail := drop_succ_of_drop hdrop
    have hplace := place_succ (breakEnds_inline hdrop (hinline c mem_cons_self))
    have hcovers := ih (by rw [hp, hplace]) hrest
      (add_le_of_drop (hdrop.trans (singleton_append).symm) hi)
      fun d hd => hinline d (mem_cons_of_mem c hd)
    rw [Nat.add_assoc, Nat.add_comm 1] at hcovers
    exact .blank (getElem?_of_drop hdrop) hblank hcovers
  | @token p token piece front tokens span spells filled kind rest ih =>
    rw [append_assoc] at hdrop
    have hslice := slice_eq_of_drop hdrop hi
    have hpiece : Inline piece := fun c hc =>
      hinline c (mem_append_left front hc)
    have hplace := place_inline hdrop hpiece
    have hcovers := ih (by rw [hp, hplace]) (drop_add_of_drop_eq hdrop)
      (add_le_of_drop hdrop hi) fun c hc => hinline c (mem_append_right piece hc)
    rw [length_append, ← Nat.add_assoc]
    refine .token ⟨?_, ?_, le_add_right _ _, add_le_of_drop hdrop hi, ?_, ?_, ?_, ?_⟩ hcovers
    · rw [span, hp]
    · simp [span, hp, Position.advance, place]
    · have := length_pos_iff.mpr filled
      intros
      omega
    · rwa [hslice]
    · intro _ c hc
      rw [hslice] at hc
      simpa [isInline] using hpiece c hc
    · exact fun h => absurd h kind
  | mark empty rest ih =>
    subst hp
    exact .token (laid_mark empty hi) (ih rfl hdrop hi hinline)

theorem Ends.mem (h : Ends ending tail) (hfilled : ending ≠ []) :
    ending ∈ [['\n'], ['\r'], ['\r', '\n']] := by
  cases h with
  | source => exact absurd rfl hfilled
  | _ => simp

end

theorem covers_lineBreak {line : Line} (h : line.Opens (cs.drop i) tail) (hbetween : Between cs i)
    (hi : i ≤ cs.length) :
    Covers cs (i + line.content.length) (i + line.length) (lineBreak line (place cs i)) := by
  have hafter := (h.after_eq hbetween).2
  have hj := add_le_of_drop h.text hi
  have hslice := slice_eq_of_drop h.drop_ending hj
  have hend := add_le_of_drop h.drop_ending hj
  rw [Line.length, ← Nat.add_assoc] at hafter ⊢
  rw [lineBreak]
  split
  · rename_i hnil
    rw [List.isEmpty_iff.mp hnil]
    exact .nil
  · rename_i hfilled
    have hfilled : line.ending ≠ [] := by simpa using hfilled
    refine .token ⟨?_, ?_, le_add_right _ _, hend, ?_, ?_, ?_, ?_⟩ .nil
    · exact h.place_ending.symm
    · simp [spelled, covering, Position.advance, place]
    · have := length_pos_iff.mpr hfilled
      intros
      omega
    · rw [hslice]
      simp [Spells, spelled, covering]
    · exact fun hkind => absurd rfl hkind
    · exact fun _ =>
        ⟨by rw [hslice]; exact Ends.mem h.ends hfilled, h.between_ending hbetween, hafter⟩

/-! ## Documents -/

theorem row_marks (empty : kind = .dedent ∨ kind = .endOfInput) (opened : List Nat)
    (h : Row p cs tokens) : Row p cs (opened.map (fun _ => mark kind p) ++ tokens) := by
  induction opened with
  | nil => exact h
  | cons depth opened ih => exact .mark empty ih

/-- A line with its indentation: blocks open over the gaps in front, or close behind them. -/
theorem row_line (opened : List Nat) (p : Position) (content : List Char)
    (h : Row (p.advance (content.takeWhile isGap).length) (content.dropWhile isGap) tokens) :
    Row p content ((indentation opened (content.takeWhile (· == '\t')).length
      (content.takeWhile isGap) p).1 ++ tokens) := by
  unfold indentation
  split
  · rename_i hwidth
    have hlead : content.takeWhile isGap ≠ [] := by
      cases content with
      | nil => simp at hwidth
      | cons c rest =>
        intro hnil
        have hgap : isGap c = false := by simpa [takeWhile_cons] using hnil
        have htab : c ≠ '\t' := by
          rintro rfl
          cases hgap
        simp [htab] at hwidth
    have hindent : Row p (content.takeWhile isGap) [spelled .indent p (content.takeWhile isGap)] :=
      .spelled hlead rfl
    simpa using hindent.append h
  · exact row_gaps_then (row_marks (.inl rfl) _ h)

theorem isBlank_ending (h : Ends ending tail) : ∀ c ∈ ending, isBlank c = true := by
  cases h <;> simp <;> decide

/-- The lines of a document cover what is left of it. The run carries that the next line starts
where the text says, and between line breaks. -/
theorem covers_scanLines (lines : List Line) (opened : List Nat)
    (hlines : Source.lines (cs.drop i) = lines) (hi : i ≤ cs.length) (hbetween : Between cs i) :
    Covers cs i cs.length (scanLines opened (place cs i) lines) := by
  induction lines generalizing opened i with
  | nil =>
    have hend := drop_eq_nil_iff.mp (lines_eq_nil hlines)
    obtain rfl : i = cs.length := by omega
    have hmarks := row_marks (.inl rfl) opened
      (.mark (.inr rfl) (Row.nil (p := place cs cs.length)))
    exact hmarks.covers rfl (nil_append (cs.drop cs.length)).symm hi (by simp)
  | cons line more ih =>
    obtain ⟨tail, hopens, hmore⟩ := opens_of_lines hlines
    obtain ⟨hafter, hnext⟩ := hopens.after_eq hbetween
    have hj := add_le_of_drop hopens.text hi
    have hend := add_le_of_drop hopens.drop_ending hj
    rw [Nat.add_assoc] at hend
    have hrest (opened : List Nat) := ih opened (hopens.drop_after ▸ hmore) hend hnext
    rw [scanLines, hafter]
    dsimp only
    split
    · rename_i hempty
      have hgaps : Gaps line.content := by
        simpa [dropWhile_eq_nil_iff] using hempty
      have hcontent := (Row.gaps hgaps).covers rfl hopens.text hi hopens.inline
      have hending := Covers.blanks hopens.drop_ending (isBlank_ending hopens.ends)
      rw [Nat.add_assoc] at hending
      exact hcontent.append (hending.append (hrest opened))
    · refine Covers.append (Covers.append ?_ (covers_lineBreak hopens hbetween hi)) (hrest _)
      refine Row.covers ?_ rfl hopens.text hi hopens.inline
      exact row_line opened (place cs i) line.content (row_scanContent _ _ _)

theorem covers_ofSource (source : String) :
    Covers source.toList 0 source.toList.length (ofSource source) :=
  covers_scanLines _ [] (by rw [drop_zero]) (zero_le _) (between_zero _)

/-- The scanner loses nothing but blanks and reports true positions. -/
theorem ofSource_faithful (source : String) : Faithful source.toList (ofSource source) :=
  (covers_ofSource source).faithful

end GuidedTrack.Token
