import GuidedTrack.Layout.Code
import Mathlib.Data.List.DropRight

/-! # Spacing as moves

Each step of the code writer copies one lexeme and decides two things about the gaps around it: what
becomes of the gaps written before it, and what becomes of those that follow. `Moves` names both
decisions for every kind of lexeme, and `Spaced` is a whole run told as a sequence of moves, with
the output on its own instead of behind an accumulator. Idempotence, the frame of the output and the
agreement with the scanner are all inductions over `Spaced`.
-/

namespace GuidedTrack.Layout

open Text List Token

variable {after : After} {before : Before} {operators : Bool} {d c quote : Char}
  {cs lex tail g t b : List Char} {style : Style} {written as : List Char}

/-- What a lexeme does with the gaps written before it: it keeps them, drops the spaces at their
end, or puts one space in their place. -/
inductive Before where
  | keep | solidChain | space

/-- What a lexeme does with the gaps that follow it: it keeps them, drops them, puts one space in
their place, or does so only if no closing bracket comes next. -/
inductive After where
  | keep | drop | space | comma

def Before.apply : Before → List Char → List Char
  | keep, written => written
  | solidChain, written => written.dropWhile (· == ' ')
  | space, written =>
    let before := written.dropWhile isGap
    if before.isEmpty then [] else ' ' :: before

def After.skip : After → List Char → Nat
  | keep, _ => 0
  | _, rest => gapLength rest

def After.pending : After → List Char → List Char
  | keep, _ | drop, _ => []
  | space, rest => if gapLength rest < rest.length then [' '] else []
  | comma, rest =>
    if (rest.drop (gapLength rest)).head?.any (!closingBrackets.contains ·) then [' '] else []

/-- `Moves style operators b before c lex tail after`: behind the text `b`, in reverse, the lexeme
`c :: lex` in front of `tail` treats the gaps around it as `before` and `after` say. -/
inductive Moves (style : Style) (operators : Bool) (b : List Char) :
    Before → Char → List Char → List Char → After → Prop where
  | literal {c : Char} {lex tail : List Char} (quote : isQuote c = true)
      (length : literalLength c (lex ++ tail) = lex.length) :
      Moves style operators b .keep c lex tail .keep
  | comment {lex : List Char} (next : lex.head? = some '-') :
      Moves style operators b .keep '-' lex [] .keep
  | arrow {tail : List Char} (on : operators = true) (spaced : style.spaceAroundArrow = true) :
      Moves style operators b .space '-' ['>'] tail .space
  | tightArrow {tail : List Char} (on : operators = true)
      (tight : style.spaceAroundArrow = false) :
      Moves style operators b .keep '-' ['>'] tail .keep
  | comparison {c : Char} {tail : List Char}
      (on : operators = true ∧ style.spaceAroundOperators = true) (angle : c = '<' ∨ c = '>') :
      Moves style operators b .space c ['='] tail .space
  | sign {tail : List Char} (on : operators = true ∧ style.spaceAroundOperators = true)
      (position : isSignPosition b = true)
      (next : tail.head? ≠ some '-' ∧ tail.head? ≠ some '>') :
      Moves style operators b .keep '-' [] tail .keep
  | operator {c : Char} {tail : List Char}
      (on : operators = true ∧ style.spaceAroundOperators = true) (mem : c ∈ operatorChars)
      (minus : c = '-' →
        isSignPosition b = false ∧ tail.head? ≠ some '-' ∧ tail.head? ≠ some '>')
      (angle : c = '<' ∨ c = '>' → tail.head? ≠ some '=') :
      Moves style operators b .space c [] tail .space
  | comma {tail : List Char} (on : style.spaceAfterComma = true) :
      Moves style operators b .solidChain ',' [] tail .comma
  | opening {c : Char} {tail : List Char} (mem : c ∈ openingBrackets) :
      Moves style operators b .keep c [] tail .drop
  | closing {c : Char} {tail : List Char} (mem : c ∈ closingBrackets) :
      Moves style operators b .solidChain c [] tail .keep
  | plain {c : Char} {tail : List Char} (quote : isQuote c = false)
      (minus : c = '-' →
        tail.head? ≠ some '-' ∧ (operators = true → tail.head? ≠ some '>'))
      (symbol : operators = true ∧ style.spaceAroundOperators = true → c ∉ operatorChars)
      (comma : c = ',' → style.spaceAfterComma = false)
      (bracket : c ∉ openingBrackets ∧ c ∉ closingBrackets) :
      Moves style operators b .keep c [] tail .keep

theorem literalLength_le (quote : Char) (rest : List Char) :
    literalLength quote rest ≤ rest.length := by
  unfold literalLength
  cases h : rest.findIdx? (· == quote) with
  | none => simp
  | some i => exact (findIdx?_eq_some_iff_getElem.mp h).choose

theorem drop_length_takeWhile (p : Char → Bool) (cs : List Char) :
    cs.drop (cs.takeWhile p).length = cs.dropWhile p := by
  have h := takeWhile_append_dropWhile (p := p) (l := cs)
  calc
    cs.drop (cs.takeWhile p).length
        = (cs.takeWhile p ++ cs.dropWhile p).drop (cs.takeWhile p).length := by rw [h]
    _ = cs.dropWhile p := drop_left

theorem drop_gapLength (cs : List Char) : cs.drop (gapLength cs) = cs.dropWhile isGap :=
  drop_length_takeWhile isGap cs

theorem eq_cons_of_head? (h : cs.head? = some d) :
    ∃ tail, cs = d :: tail :=
  ⟨cs.tail, (cons_head?_tail h).symm⟩

theorem moves_exists (style : Style) (operators : Bool) (b : List Char) (c : Char)
    (rest : List Char) :
    ∃ before lex tail after, rest = lex ++ tail ∧
      Moves style operators b before c lex tail after := by
  -- the last four kinds do not depend on what follows
  have plainOrBracket (hquote : isQuote c = false)
      (hminus : c = '-' → rest.head? ≠ some '-' ∧ (operators = true → rest.head? ≠ some '>'))
      (hsymbol : operators = true ∧ style.spaceAroundOperators = true → c ∉ operatorChars) :
      ∃ before lex tail after, rest = lex ++ tail ∧
        Moves style operators b before c lex tail after := by
    by_cases hopen : c ∈ openingBrackets
    · exact ⟨.keep, [], rest, .drop, rfl, .opening hopen⟩
    by_cases hclose : c ∈ closingBrackets
    · exact ⟨.solidChain, [], rest, .keep, rfl, .closing hclose⟩
    by_cases hcomma : c = ',' ∧ style.spaceAfterComma = true
    · obtain ⟨rfl, hs⟩ := hcomma
      exact ⟨.solidChain, [], rest, .comma, rfl, .comma hs⟩
    · exact ⟨.keep, [], rest, .keep, rfl,
        .plain hquote hminus hsymbol (by grind) ⟨hopen, hclose⟩⟩
  by_cases hquote : isQuote c = true
  · refine ⟨.keep, rest.take (literalLength c rest), rest.drop (literalLength c rest), .keep,
      (take_append_drop _ _).symm, .literal hquote ?_⟩
    rw [take_append_drop, length_take, Nat.min_eq_left (literalLength_le c rest)]
  by_cases hcomment : c = '-' ∧ rest.head? = some '-'
  · obtain ⟨rfl, hnext⟩ := hcomment
    exact ⟨.keep, rest, [], .keep, by simp, .comment hnext⟩
  by_cases harrow : operators = true ∧ c = '-' ∧ rest.head? = some '>'
  · obtain ⟨hon, rfl, hnext⟩ := harrow
    obtain ⟨tail, rfl⟩ := eq_cons_of_head? hnext
    cases hs : style.spaceAroundArrow with
    | true => exact ⟨.space, ['>'], tail, .space, rfl, .arrow hon hs⟩
    | false => exact ⟨.keep, ['>'], tail, .keep, rfl, .tightArrow hon hs⟩
  by_cases hon : operators = true ∧ style.spaceAroundOperators = true
  · by_cases hpair : (c = '<' ∨ c = '>') ∧ rest.head? = some '='
    · obtain ⟨tail, rfl⟩ := eq_cons_of_head? hpair.2
      exact ⟨.space, ['='], tail, .space, rfl, .comparison hon hpair.1⟩
    by_cases hmem : c ∈ operatorChars
    · by_cases hsign : c = '-' ∧ isSignPosition b = true
      · obtain ⟨rfl, hposition⟩ := hsign
        exact ⟨.keep, [], rest, .keep, rfl, .sign hon hposition (by grind)⟩
      · refine ⟨.space, [], rest, .space, rfl, .operator hon hmem ?_ ?_⟩
        · intro hc
          refine ⟨?_, by grind, by grind⟩
          cases hp : isSignPosition b with
          | true => exact absurd ⟨hc, hp⟩ hsign
          | false => rfl
        · intro hc hnext
          exact hpair ⟨hc, hnext⟩
    exact plainOrBracket (by simpa using hquote) (by grind) fun _ => hmem
  exact plainOrBracket (by simpa using hquote) (by grind) fun h => absurd h hon

theorem codeStep_of_moves
    (h : Moves style operators (written.dropWhile isGap) before c lex tail after) :
    codeStep style operators written c (lex ++ tail) =
      (after.pending tail ++ (c :: lex).reverse ++ before.apply written,
        lex.length + after.skip tail) := by
  have hsign : isSignPosition (written.dropWhile isGap) = isSignPosition written := by
    simp only [isSignPosition, dropWhile_idempotent]
  cases h with
  | literal hquote hlength =>
    simp [codeStep, hquote, hlength, Before.apply, After.pending, After.skip]
  | comment hnext =>
    simp [codeStep, isQuote, hnext, Before.apply, After.pending, After.skip]
  | arrow hon hs =>
    simp [codeStep, spaced, isQuote, hon, hs, Before.apply, After.pending, After.skip,
      Nat.add_comm]
  | tightArrow hon hs =>
    simp [codeStep, isQuote, hon, hs, Before.apply, After.pending, After.skip]
  | comparison hon hangle =>
    rcases hangle with rfl | rfl <;>
      simp [codeStep, spaced, isQuote, hon, Before.apply, After.pending, After.skip,
        Nat.add_comm]
  | sign hon hposition hnext =>
    rw [hsign] at hposition
    simp [codeStep, isQuote, hon, hnext, hposition, operatorChars, Before.apply,
      After.pending, After.skip]
  | operator hon hmem hminus hangle =>
    rw [hsign] at hminus
    simp only [operatorChars, mem_cons, not_mem_nil, or_false] at hmem
    rcases hmem with rfl | rfl | rfl | rfl | rfl | rfl | rfl | rfl <;>
      simp_all [codeStep, spaced, isQuote, operatorChars, Before.apply, After.pending,
        After.skip]
  | comma hs =>
    cases hnext : (tail.drop (gapLength tail)).head?.any (!closingBrackets.contains ·) <;>
      simp only [codeStep, After.pending, After.skip, Before.apply, nil_append, hnext] <;>
      simp [isQuote, operatorChars, hs]
  | opening hmem =>
    simp only [openingBrackets, mem_cons, not_mem_nil, or_false] at hmem
    rcases hmem with rfl | rfl | rfl <;>
      simp [codeStep, isQuote, operatorChars, openingBrackets, Before.apply,
        After.pending, After.skip]
  | closing hmem =>
    simp only [closingBrackets, mem_cons, not_mem_nil, or_false] at hmem
    rcases hmem with rfl | rfl | rfl <;>
      simp [codeStep, isQuote, operatorChars, openingBrackets, closingBrackets,
        Before.apply, After.pending, After.skip]
  | plain hquote hminus hsymbol hcomma hbracket =>
    have hcomment : (c == '-' && tail.head? == some '-') = false := by grind
    have harrow : (operators && c == '-' && tail.head? == some '>') = false := by grind
    have hangle : (operators && style.spaceAroundOperators && (c == '<' || c == '>') &&
        tail.head? == some '=') = false := by
      have hless : '<' ∈ operatorChars := by decide
      have hgreater : '>' ∈ operatorChars := by decide
      grind
    have hop : (operators && style.spaceAroundOperators && operatorChars.contains c) = false := by
      grind
    have hcomma' : (c == ',' && style.spaceAfterComma) = false := by grind
    simp only [codeStep, nil_append, hquote, hcomment, harrow, hangle, hop, hcomma']
    simp [hbracket, Before.apply, After.pending, After.skip]

theorem writeCode_of_moves
    (h : Moves style operators (written.dropWhile isGap) before c lex tail after) :
    writeCode style operators written (c :: (lex ++ tail)) =
      writeCode style operators
        (after.pending tail ++ (c :: lex).reverse ++ before.apply written)
        (tail.drop (after.skip tail)) := by
  rw [writeCode, codeStep_of_moves h]
  simp only [← drop_drop, drop_left]

/-! ## Gaps -/

theorem isGap_iff : isGap c = true ↔ c = ' ' ∨ c = '\t' := by
  simp [isGap]

theorem moves_gap (style : Style) (operators : Bool) (b : List Char) (h : isGap c = true)
    (tail : List Char) : Moves style operators b .keep c [] tail .keep := by
  rcases isGap_iff.mp h with rfl | rfl <;>
    exact .plain (by decide) (by simp) (fun _ => by decide) (by simp) (by decide)

theorem writeCode_gaps (style : Style) (operators : Bool) (written : List Char)
    (h : Gaps g) (cs : List Char) :
    writeCode style operators written (g ++ cs) =
      writeCode style operators (g.reverse ++ written) cs := by
  induction g generalizing written with
  | nil => rfl
  | cons c g ih =>
    have hc : isGap c = true := h c mem_cons_self
    have hstep := writeCode_of_moves
      (moves_gap style operators (written.dropWhile isGap) hc (g ++ cs))
    simp only [After.pending, After.skip, Before.apply, drop_zero, nil_append] at hstep
    rw [cons_append, hstep]
    simpa using ih (c :: written) fun d hd => h d (mem_cons_of_mem c hd)

/-! ## Runs -/

/-- The gap that a lexeme leaves after it in front of a lexeme that starts with `c`; `g` is the gap
in the text. -/
def After.gap (after : After) (c : Char) (g : List Char) : List Char :=
  match after with
  | keep => g
  | drop => []
  | space => [' ']
  | comma => if closingBrackets.contains c then [] else [' ']

/-- The gap that stands before a lexeme when `g` would stand there by the lexeme before it. There is
none if it is the `first`. -/
def Before.gap (before : Before) (first : Bool) (g : List Char) : List Char :=
  match before with
  | keep => g
  | solidChain => g.rdropWhile (· == ' ')
  | space => if first then [] else [' ']

/-- `Spaced style operators after b cs t`: behind the text `b`, in reverse and without gaps at its
end, the code `cs` is written as `t`. The lexeme at the end of `b` treats the gaps after it as
`after` says. -/
inductive Spaced (style : Style) (operators : Bool) :
    After → List Char → List Char → List Char → Prop where
  | done {after : After} {b : List Char} : Spaced style operators after b [] []
  | lexeme {after after' : After} {before : Before} {b g h lex tail t : List Char} {c : Char}
      (gaps : Gaps g) (head : isGap c = false)
      (moves : Moves style operators b before c lex tail after')
      (gap : h = before.gap b.isEmpty (after.gap c g))
      (rest : Spaced style operators after' ((c :: lex).reverse ++ h.reverse ++ b) tail t) :
      Spaced style operators after b (g ++ c :: (lex ++ tail)) (h ++ c :: (lex ++ t))

def Trimmed (cs : List Char) : Prop :=
  ∀ c ∈ cs.getLast?, isGap c = false

theorem Trimmed.of_append (h : Trimmed (as ++ cs)) : Trimmed cs := by
  intro c hc
  apply h c
  rw [Option.mem_def] at hc ⊢
  simp [getLast?_append, hc]

theorem spaced_exists (style : Style) (operators : Bool) (after : After) (b cs : List Char)
    (h : Trimmed cs) : ∃ t, Spaced style operators after b cs t := by
  induction hn : cs.length using Nat.strong_induction_on generalizing after b cs with
  | _ n ih =>
    have hcs := takeWhile_append_dropWhile (p := isGap) (l := cs)
    cases hd : cs.dropWhile isGap with
    | nil =>
      -- only gaps are left, and the last character is none
      have hgaps : Gaps cs := by simpa using hd
      cases hl : cs.getLast? with
      | none =>
        rw [getLast?_eq_none_iff.mp hl]
        exact ⟨[], .done⟩
      | some c =>
        have hc := h c (by simp [hl])
        rw [hgaps c (mem_of_getLast? hl)] at hc
        cases hc
    | cons c rest =>
      obtain ⟨before, lex, tail, after', rfl, hmoves⟩ := moves_exists style operators b c rest
      rw [hd] at hcs
      have hhead : isGap c = false := by
        simpa [hd] using head?_dropWhile_not isGap cs
      have htail : Trimmed tail := by
        rw [← hcs, ← cons_append] at h
        exact h.of_append.of_append
      have hlt : tail.length < n := by
        have := congrArg List.length hcs
        simp only [length_append, length_cons] at this
        omega
      obtain ⟨t, ht⟩ := ih _ hlt after' ((c :: lex).reverse ++
        (before.gap b.isEmpty (after.gap c (cs.takeWhile isGap))).reverse ++ b) tail htail rfl
      have hrun := Spaced.lexeme (fun d hd => mem_takeWhile_imp hd) hhead hmoves rfl ht
      rw [hcs] at hrun
      exact ⟨_, hrun⟩

/-- Induction over the lexemes of a text, as the writer without operators cuts it. -/
theorem Trimmed.lexemes {motive : List Char → Prop} (nil : motive [])
    (lexeme : ∀ {b g lex tail : List Char} {c : Char} {before : Before} {after : After},
      Gaps g → isGap c = false →
      Moves {} false b before c lex tail after → motive tail → motive (g ++ c :: (lex ++ tail)))
    (h : Trimmed cs) : motive cs := by
  obtain ⟨t, ht⟩ := spaced_exists {} false .keep [] cs h
  generalize After.keep = after, ([] : List Char) = b at ht
  clear h
  induction ht with
  | done => exact nil
  | lexeme gaps head moves gap rest ih => exact lexeme gaps head moves ih

/-! ## Lexemes -/

theorem literal_closed (h : literalLength quote (lex ++ tail) = lex.length) (ht : tail ≠ []) :
    ∃ inner, lex = inner ++ [quote] ∧ quote ∉ inner := by
  unfold literalLength at h
  cases hf : (lex ++ tail).findIdx? (· == quote) with
  | none =>
    simp only [hf, length_append] at h
    exact absurd (eq_nil_of_length_eq_zero (by omega)) ht
  | some i =>
    simp only [hf] at h
    obtain ⟨hi, hq, hbefore⟩ := findIdx?_eq_some_iff_getElem.mp hf
    have hlex : lex ≠ [] := by
      rintro rfl
      simp at h
    refine ⟨lex.dropLast, ?_, ?_⟩
    · have hlast : lex.getLast hlex = quote := by
        have : (lex ++ tail)[i] = lex.getLast hlex := by
          rw [getElem_append_left (by omega), getLast_eq_getElem]
          simp [← h]
        rw [← this]
        simpa using hq
      rw [← hlast, dropLast_append_getLast hlex]
    · intro hm
      obtain ⟨j, hj, hjq⟩ := getElem_of_mem hm
      rw [length_dropLast] at hj
      have := hbefore j (by omega)
      rw [getElem_append_left (by omega)] at this
      rw [getElem_dropLast] at hjq
      simp [hjq] at this

theorem literalLength_closed {inner : List Char} (h : quote ∉ inner) (tail : List Char) :
    literalLength quote (inner ++ [quote] ++ tail) = inner.length + 1 := by
  have hf : (inner ++ [quote] ++ tail).findIdx? (· == quote) = some inner.length := by
    have hnone : inner.findIdx? (· == quote) = none :=
      findIdx?_eq_none_iff.mpr fun c hc => by simpa using ne_of_mem_of_not_mem hc h
    simp [findIdx?_append, hnone, findIdx?_cons]
  simp only [literalLength, hf]

theorem literalLength_congr (h : literalLength quote (lex ++ tail) = lex.length)
    (hnil : tail = [] → t = []) : literalLength quote (lex ++ t) = lex.length := by
  by_cases ht : tail = []
  · rw [hnil ht]
    simpa [ht] using h
  · obtain ⟨inner, rfl, hinner⟩ := literal_closed h ht
    rw [literalLength_closed hinner, length_append, length_singleton]

theorem Moves.last {style : Style} {operators : Bool} {b lex tail : List Char} {c : Char}
    {before : Before} {after : After} (h : Moves style operators b before c lex tail after)
    (hc : isGap c = false) (ht : tail ≠ []) :
    ∃ d front, c :: lex = front ++ [d] ∧ isGap d = false := by
  cases h with
  | literal hquote hlength =>
    obtain ⟨inner, rfl, -⟩ := literal_closed hlength ht
    exact ⟨c, c :: inner, rfl, hc⟩
  | comment => exact absurd rfl ht
  | arrow | tightArrow => exact ⟨'>', ['-'], rfl, by decide⟩
  | comparison => exact ⟨'=', [c], rfl, by decide⟩
  | sign => exact ⟨'-', [], rfl, by decide⟩
  | comma => exact ⟨',', [], rfl, by decide⟩
  | operator | opening | closing | plain => exact ⟨c, [], rfl, hc⟩

/-! ## Runs and the writer -/

theorem gap_of_mem_gap (h : Gaps g) : Gaps (after.gap c g) := by
  have hspace : isGap ' ' = true := by decide
  cases after with
  | keep => exact h
  | drop => simp [After.gap]
  | space => simp [After.gap, hspace]
  | comma =>
    simp only [After.gap]
    split <;> simp [hspace]

theorem writeCode_pending (style : Style) (operators : Bool) (after : After) (b : List Char)
    (hg : Gaps g) (hc : isGap c = false) (rest : List Char) :
    writeCode style operators (after.pending (g ++ c :: rest) ++ b)
        ((g ++ c :: rest).drop (after.skip (g ++ c :: rest))) =
      writeCode style operators ((after.gap c g).reverse ++ b) (c :: rest) := by
  have hlength : gapLength (g ++ c :: rest) = g.length := by
    simp [gapLength, takeWhile_append_of_pos hg, hc]
  cases after with
  | keep => exact writeCode_gaps style operators b hg (c :: rest)
  | drop | space => simp [After.pending, After.skip, After.gap, hlength]
  | comma =>
    simp only [After.pending, After.skip, After.gap, hlength, drop_left, head?_cons,
      Option.any_some]
    cases closingBrackets.contains c <;> simp

theorem Before.apply_gap (before : Before) (hb : b.dropWhile isGap = b)
    (hg : Gaps g) :
    before.apply (g.reverse ++ b) = (before.gap b.isEmpty g).reverse ++ b := by
  have hdrop : (g.reverse ++ b).dropWhile isGap = b := by
    rw [dropWhile_append_of_pos (by simpa using hg), hb]
  cases before with
  | keep => rfl
  | space =>
    simp only [apply, gap, hdrop]
    cases b <;> simp
  | solidChain =>
    simp only [apply, gap, List.rdropWhile, reverse_reverse, dropWhile_append]
    split
    · rename_i hnil
      rw [List.isEmpty_iff.mp hnil]
      cases b with
      | nil => rfl
      | cons d b =>
        have hd : isGap d = false := by
          by_contra hd
          simp only [Bool.not_eq_false] at hd
          have := congrArg List.length hb
          have hle := (dropWhile_sublist isGap (l := b)).length_le
          simp only [dropWhile_cons, hd, if_true, length_cons] at this
          omega
        have : (d == ' ') = false := by
          simp only [isGap, Bool.or_eq_false_iff] at hd
          exact hd.1
        simp [this]
    · rfl

theorem writeCode_of_spaced (h : Spaced style operators after b cs t)
    (hb : cs ≠ [] → b.dropWhile isGap = b) :
    writeCode style operators (after.pending cs ++ b) (cs.drop (after.skip cs)) =
      t.reverse ++ b := by
  induction h with
  | @done after b => cases after <;> simp [After.pending, After.skip, gapLength, writeCode]
  | @lexeme after after' before b g h lex tail t c gaps head moves gap rest ih =>
    have hb := hb (by simp)
    have hgap : Gaps (after.gap c g) := gap_of_mem_gap gaps
    have hdrop : ((after.gap c g).reverse ++ b).dropWhile isGap = b := by
      rw [dropWhile_append_of_pos (by simpa using hgap), hb]
    rw [writeCode_pending style operators after b gaps head,
      writeCode_of_moves (by rw [hdrop]; exact moves), Before.apply_gap before hb hgap, ← gap,
      append_assoc, ← append_assoc _ _ b, ih ?_]
    · simp
    · intro ht
      obtain ⟨d, front, hlex, hd⟩ := moves.last head ht
      simp [hlex, hd]

theorem code_of_spaced (h : Spaced style operators .keep [] cs t) :
    code style operators cs = t := by
  have hw := writeCode_of_spaced h fun _ => rfl
  simp only [After.pending, After.skip, drop_zero, append_nil] at hw
  rw [code, hw, reverse_reverse]

/-! ## Running again -/

theorem gap_of_mem_before {first : Bool} (h : Gaps g) :
    Gaps (before.gap first g) := by
  cases before with
  | keep => exact h
  | solidChain => exact fun d hd => h d (IsPrefix.subset ( rdropWhile_prefix _ _) hd)
  | space =>
    have hspace : isGap ' ' = true := by decide
    cases first <;> simp [Before.gap, hspace]

/-- A character that can stand right after a lexeme though another stood there in the text. -/
def breaks (c : Char) : Bool :=
  isGap c || c == ',' || closingBrackets.contains c

theorem Moves.breaks_of_solidChain (h : Moves style operators b .solidChain c lex tail after) :
    breaks c = true := by
  cases h with
  | comma => decide
  | closing hmem => simp [breaks, hmem]

/-- After a lexeme that keeps its gaps or makes them a space, the output goes on like the text
unless a gap, a comma or a closing bracket comes. -/
theorem Spaced.head? (h : Spaced style operators after b cs t) (hb : b ≠ [])
    (hafter : after = .keep ∨ after = .space) :
    t.head? = cs.head? ∨ ∀ d ∈ t.head?, breaks d = true := by
  cases h with
  | done => exact .inl rfl
  | @lexeme _ after' before _ g h lex tail t c gaps head moves gap rest =>
    cases h with
    | cons d h =>
      have hd : isGap d = true :=
        gap_of_mem_before (gap_of_mem_gap gaps) d (gap ▸ mem_cons_self)
      exact .inr (by simp [breaks, hd])
    | nil =>
      cases before with
      | solidChain => exact .inr (by simpa using moves.breaks_of_solidChain)
      | space => simp [Before.gap, hb] at gap
      | keep =>
        rcases hafter with rfl | rfl
        · simp only [Before.gap, After.gap] at gap
          subst gap
          exact .inl rfl
        · simp [Before.gap, After.gap] at gap

/-- A move depends on the text after its lexeme through the next character only, and through that
only as far as `breaks` tells. -/
theorem Moves.congr (h : Moves style operators b before c lex tail after)
    (hnil : tail = [] → t = []) (hhead : after = .keep ∨ after = .space →
      t.head? = tail.head? ∨ ∀ d ∈ t.head?, breaks d = true) :
    Moves style operators b before c lex t after := by
  have hne (hafter : after = .keep ∨ after = .space) {d : Char} (hd : breaks d = false)
      (ht : tail.head? ≠ some d) : t.head? ≠ some d := by
    intro hs
    rcases hhead hafter with heq | hall
    · exact ht (heq ▸ hs)
    · rw [hall d hs] at hd
      cases hd
  cases h with
  | literal hquote hlength =>
    exact .literal hquote (literalLength_congr hlength hnil)
  | comment hnext => exact hnil rfl ▸ .comment hnext
  | arrow hon hs => exact .arrow hon hs
  | tightArrow hon hs => exact .tightArrow hon hs
  | comparison hon hangle => exact .comparison hon hangle
  | sign hon hposition hnext =>
    exact .sign hon hposition
      ⟨hne (.inl rfl) (by decide) hnext.1, hne (.inl rfl) (by decide) hnext.2⟩
  | operator hon hmem hminus hangle =>
    refine .operator hon hmem ?_ fun hc => hne (.inr rfl) (by decide) (hangle hc)
    intro hc
    obtain ⟨hposition, hdash, harrow⟩ := hminus hc
    exact ⟨hposition, hne (.inr rfl) (by decide) hdash, hne (.inr rfl) (by decide) harrow⟩
  | comma hs => exact .comma hs
  | opening hmem => exact .opening hmem
  | closing hmem => exact .closing hmem
  | plain hquote hminus hsymbol hcomma hbracket =>
    refine .plain hquote ?_ hsymbol hcomma hbracket
    intro hc
    obtain ⟨hdash, harrow⟩ := hminus hc
    exact ⟨hne (.inl rfl) (by decide) hdash,
      fun hon => hne (.inl rfl) (by decide) (harrow hon)⟩

theorem gap_gap (before : Before) (after : After) (first : Bool) (c : Char) (g : List Char) :
    before.gap first (after.gap c (before.gap first (after.gap c g))) =
      before.gap first (after.gap c g) := by
  cases after with
  | keep =>
    cases before with
    | keep => rfl
    | solidChain => exact rdropWhile_idempotent _ _
    | space => rfl
  | drop | space | comma => rfl

theorem Spaced.nil {style : Style} {operators : Bool} {after : After} {b t : List Char}
    (h : Spaced style operators after b [] t) : t = [] := by
  generalize hcs : ([] : List Char) = cs at h
  cases h with
  | done => rfl
  | lexeme => simp at hcs

theorem Moves.output {b' : List Char} (h : Moves style operators b before c lex tail after)
    (rest : Spaced style operators after b' tail t) (hb : b' ≠ []) :
    Moves style operators b before c lex t after :=
  h.congr (by rintro rfl; exact rest.nil) fun hafter => rest.head? hb hafter

theorem Spaced.again (h : Spaced style operators after b cs t) :
    Spaced style operators after b t t := by
  induction h with
  | done => exact .done
  | @lexeme after after' before b g h lex tail t c gaps head moves gap rest ih =>
    have hgaps : Gaps h := gap ▸ gap_of_mem_before (gap_of_mem_gap gaps)
    exact .lexeme hgaps head (moves.output rest (by simp)) (by rw [gap, gap_gap]) ih

theorem code_code (style : Style) (operators : Bool) (h : Trimmed cs) :
    code style operators (code style operators cs) = code style operators cs := by
  obtain ⟨t, ht⟩ := spaced_exists style operators .keep [] cs h
  rw [code_of_spaced ht, code_of_spaced ht.again]

/-! ## The frame of the output -/

theorem Spaced.getLast? (h : Spaced style operators after b cs t) : t.getLast? = cs.getLast? := by
  induction h with
  | done => rfl
  | lexeme gaps head moves gap rest ih =>
    simp [getLast?_append, getLast?_cons, ih]

def solid (cs : List Char) : List Char :=
  cs.filter fun c => !isGap c

theorem solid_append (as cs : List Char) : solid (as ++ cs) = solid as ++ solid cs :=
  filter_append as cs

theorem solid_gaps (hg : Gaps g) : solid g = [] :=
  filter_eq_nil_iff.mpr fun d hd => by simp [hg d hd]

theorem mem_of_solid_eq (h : solid as = solid cs) (hd : d ∈ as) : isGap d = true ∨ d ∈ cs := by
  cases hgap : isGap d with
  | true => exact .inl rfl
  | false =>
    have hmem : d ∈ solid as := mem_filter.mpr ⟨hd, by simp [hgap]⟩
    rw [h] at hmem
    exact .inr (mem_of_mem_filter hmem)

theorem Spaced.solid_eq (h : Spaced style operators after b cs t) : solid t = solid cs := by
  induction h with
  | done => rfl
  | @lexeme after after' before b g h lex tail t c gaps head moves gap rest ih =>
    have hgaps : Gaps h := gap ▸ gap_of_mem_before (gap_of_mem_gap gaps)
    rw [← cons_append, ← cons_append]
    simp only [solid_append, solid_gaps hgaps, solid_gaps gaps, ih]

theorem solid_code (style : Style) (operators : Bool) (h : Trimmed cs) :
    solid (code style operators cs) = solid cs := by
  obtain ⟨t, ht⟩ := spaced_exists style operators .keep [] cs h
  rw [code_of_spaced ht, ht.solid_eq]

theorem code_trimmed (style : Style) (operators : Bool) (h : Trimmed cs) :
    Trimmed (code style operators cs) := by
  obtain ⟨t, ht⟩ := spaced_exists style operators .keep [] cs h
  rw [code_of_spaced ht]
  simpa only [Trimmed, ht.getLast?] using h

theorem mem_code (h : Trimmed cs) (hd : d ∈ code style operators cs) : isGap d = true ∨ d ∈ cs :=
  mem_of_solid_eq (solid_code style operators h) hd

theorem code_cons (style : Style) (operators : Bool) {rest : List Char} (hc : isGap c = false)
    (h : Trimmed (c :: rest)) : ∃ t, code style operators (c :: rest) = c :: t := by
  obtain ⟨t, ht⟩ := spaced_exists style operators .keep [] (c :: rest) h
  rw [code_of_spaced ht]
  generalize hcs : c :: rest = cs at ht
  cases ht with
  | done => cases hcs
  | @lexeme _ after' before _ g h lex tail t d gaps head moves gap rest =>
    cases g with
    | cons e g =>
      obtain ⟨rfl, -⟩ := List.cons.inj hcs
      rw [gaps c mem_cons_self] at hc
      cases hc
    | nil =>
      obtain ⟨rfl, -⟩ := List.cons.inj hcs
      have hh : h = [] := by
        rw [gap]
        cases before <;> rfl
      exact ⟨lex ++ t, by rw [hh, nil_append]⟩

end GuidedTrack.Layout
