import GuidedTrack.Proofs.Layout.GapCollapse
import GuidedTrack.Proofs.Token.ScannerRows
import GuidedTrack.Proofs.WordCharacters

/-! # Lexemes and the text after them

A lexeme ends where the text after it says so, and that takes one more character, or two after a
numeral. `Keeps` says that another text ends the same lexemes.
-/

namespace GuidedTrack.Layout

open Text Token List

variable {d c : Char} {kind : Kind} {tail lex t g : List Char}

/-! ## Texts that end the same lexemes -/

/-- Behind a lexeme, `t` may stand for `tail`: it goes on in the same way, or with a character that
no lexeme goes on with. A point goes on with a numeral only if a digit follows. -/
structure Keeps (tail t : List Char) : Prop where
  head : t.head? = tail.head? ∨ ∀ d ∈ t.head?, breaks d = true
  point : ∀ rest, t = '.' :: rest → rest.head?.any isDigit = true →
    ∃ more, tail = '.' :: more ∧ more.head?.any isDigit = true

theorem forall_breaks {p : Char → Prop} [DecidablePred p]
    (h : [' ', '\t', ',', ')', ']', '}'].all (fun d => p d) = true) (hd : breaks d = true) :
    p d := by
  refine all_iff_forall_prop.mp h d ?_
  simpa [breaks, isGap, closingBrackets, or_assoc] using hd

theorem isDigit_of_breaks : breaks d = true → isDigit d = false :=
  forall_breaks (p := fun d => isDigit d = false) (by decide)

theorem Keeps.meets (h : Keeps tail t) : Meets breaks tail t :=
  ⟨h.head, h.point⟩

theorem keeps_lexes (h : Lexes c lex tail kind) (hkind : kind ≠ .error) (hkeeps : Keeps tail t) :
    Lexes c lex t kind :=
  have hbreaks {d : Char} : breaks d = true → goesOn d = false :=
    forall_breaks (p := fun d => goesOn d = false) (by decide)
  h.meets (fun herror => hkind herror.2) hbreaks hkeeps.meets

/-! ## Texts with the same lexemes -/

/-- `Respaced operand cs t`: the code `t` has the lexemes of `cs`, with other gaps between them, up
to its comment or its first error. Where no operand is due, a minus may be set apart from the
numeral after it. -/
inductive Respaced : Bool → List Char → List Char → Prop where
  | nil {operand : Bool} : Respaced operand [] []
  | gap {operand : Bool} {c : Char} {cs t : List Char} (gap : isGap c = true)
      (rest : Respaced operand cs t) : Respaced operand (c :: cs) t
  | newGap {operand : Bool} {c : Char} {cs t : List Char} (gap : isGap c = true)
      (rest : Respaced operand cs t) : Respaced operand cs (c :: t)
  | comment {operand : Bool} {cs t : List Char} :
      Respaced operand ('-' :: '-' :: cs) ('-' :: '-' :: t)
  | error {operand : Bool} {c : Char} {lex tail t : List Char} (gap : isGap c = false)
      (lexes : Lexes c lex tail .error) : Respaced operand (c :: (lex ++ tail)) t
  | lexeme {operand : Bool} {c : Char} {lex tail t : List Char} {kind : Kind}
      (gap : isGap c = false) (lexes : Lexes c lex tail kind) (lexes' : Lexes c lex t kind)
      (dashes : c = '-' → (lex ++ tail).head? ≠ some '-')
      (dashes' : c = '-' → (lex ++ t).head? ≠ some '-')
      (rest : Respaced kind.opensOperand tail t) :
      Respaced operand (c :: (lex ++ tail)) (c :: (lex ++ t))
  | split {d : Char} {lex tail t : List Char} (digit : isDigit d = true)
      (lexes : Lexes '-' (d :: lex) tail .number) (lexes' : Lexes d lex t .number)
      (rest : Respaced false tail t) :
      Respaced false ('-' :: (d :: lex ++ tail)) ('-' :: ' ' :: d :: (lex ++ t))

theorem Respaced.gaps {operand : Bool} {h cs : List Char} (hg : Gaps g)
    (hh : Gaps h) (rest : Respaced operand cs t) :
    Respaced operand (g ++ cs) (h ++ t) := by
  have hright : Respaced operand cs (h ++ t) := by
    induction h with
    | nil => exact rest
    | cons d h ih =>
      exact .newGap (hh d mem_cons_self) (ih fun e he => hh e (mem_cons_of_mem d he))
  induction g with
  | nil => exact hright
  | cons d g ih =>
    exact .gap (hg d mem_cons_self) (ih fun e he => hg e (mem_cons_of_mem d he))

/-- A lexeme is kept in front of a text that ends it in the same way. -/
theorem Respaced.keep {operand : Bool} (hgap : isGap c = false) (hlexes : Lexes c lex tail kind)
    (hdashes : c = '-' → (lex ++ tail).head? ≠ some '-') (hkeeps : Keeps tail t)
    (rest : Respaced kind.opensOperand tail t) :
    Respaced operand (c :: (lex ++ tail)) (c :: (lex ++ t)) := by
  by_cases hkind : kind = .error
  · subst hkind
    exact .error hgap hlexes
  · refine .lexeme hgap hlexes (keeps_lexes hlexes hkind hkeeps) hdashes (fun hc => ?_) rest
    cases lex with
    | nil => exact hkeeps.meets.ne (by decide) (hdashes hc)
    | cons d lex => exact hdashes hc

theorem Respaced.mark {operand : Bool} {c : Char} {tail t : List Char} {kind : Kind}
    (hmark : punctuation? c = some kind) (hcolon : c ≠ ':')
    (rest : Respaced kind.opensOperand tail t) : Respaced operand (c :: tail) (c :: t) := by
  have hfacts := forall_marks (p := fun c => isGap c = false ∧ c ≠ '-') (by decide) hmark
  have hlexes (u : List Char) : Lexes c [] u kind :=
    .punctuation hmark fun hc => absurd hc hcolon
  exact .lexeme hfacts.1 (hlexes tail) (hlexes t) (fun hc => absurd hc hfacts.2)
    (fun hc => absurd hc hfacts.2) rest

/-! ## Trailing gaps -/

theorem keeps_trailing (tail : List Char) {h : List Char} (hh : Gaps h) :
    Keeps (tail ++ g) (tail ++ h) := by
  cases tail with
  | nil =>
    refine ⟨.inr fun d hd => ?_, fun rest hrest => ?_⟩
    · simp [breaks, hh d (mem_of_head? hd)]
    · have hpoint := hh '.' (by rw [nil_append] at hrest; simp [hrest])
      simp [isGap] at hpoint
  | cons c tail =>
    refine ⟨.inl rfl, fun rest hrest hdigit => ?_⟩
    simp only [cons_append, List.cons.injEq] at hrest ⊢
    obtain ⟨rfl, rfl⟩ := hrest
    refine ⟨tail ++ g, ⟨rfl, rfl⟩, ?_⟩
    cases tail with
    | cons d tail => exact hdigit
    | nil =>
      cases h with
      | nil => cases hdigit
      | cons d h =>
        have hgap : breaks d = true := by simp [breaks, hh d mem_cons_self]
        simp [isDigit_of_breaks hgap] at hdigit

theorem error_trailing (h : Lexes c lex tail .error) (hg : Gaps g) :
    ∃ lex' tail', lex ++ tail ++ g = lex' ++ tail' ∧ Lexes c lex' tail' .error := by
  rcases h.of_kind with ⟨quote, rfl, hnone⟩ | ⟨rfl, first, start⟩
  · refine ⟨lex ++ g, [], by simp, .quoted quote ?_⟩
    have hall : (lex ++ g).findIdx? (· == c) = none := by
      refine findIdx?_eq_none_iff.mpr (forall_mem_append.mpr ⟨fun d hd => ?_, fun d hd => ?_⟩)
      · exact beq_eq_false_iff_ne.mpr fun heq => hnone (heq ▸ hd)
      · simp only [isQuote, Bool.or_eq_true, beq_iff_eq] at quote
        rcases isGap_iff.mp (hg d hd) with rfl | rfl <;> rcases quote with rfl | rfl <;> decide
    simp only [quotedLexeme, append_nil, hall]
  · exact ⟨[], tail ++ g, rfl, .error first start⟩

theorem respaced_trailing {g h : List Char} (hg : Gaps g)
    (hh : Gaps h) (operand : Bool) (cs : List Char) :
    Respaced operand (cs ++ g) (cs ++ h) := by
  induction cs using lexemes_induction generalizing operand with
  | nil =>
    have hnil : Respaced operand [] [] := .nil
    simpa using hnil.gaps hg hh
  | gap c cs hgap ih => exact .gap hgap (.newGap hgap (ih operand))
  | comment cs => exact .comment
  | lexeme c lex tail kind hgap hdashes hlexes ih =>
    rw [cons_append, cons_append]
    by_cases hkind : kind = .error
    · subst hkind
      obtain ⟨lex', tail', heq, hlexes'⟩ := error_trailing hlexes hg
      rw [heq]
      exact .error hgap hlexes'
    · have hkeeps : Keeps tail (tail ++ g) := by
        simpa using keeps_trailing tail (g := []) hg
      have hlexes' := keeps_lexes hlexes hkind hkeeps
      rw [append_assoc, append_assoc]
      refine .keep hgap hlexes' (fun hc => ?_) (keeps_trailing tail hh) (ih _)
      cases lex with
      | nil => exact hkeeps.meets.ne (by decide) (hdashes hc)
      | cons d lex => exact hdashes hc

/-! ## Inside lexemes -/

def specials : List Char :=
  [' ', '\t'] ++ ['"', '\''] ++ [','] ++ openingBrackets ++ closingBrackets ++ operatorChars

structure Ordinary (d : Char) : Prop where
  gap : isGap d = false
  quote : isQuote d = false
  comma : d ≠ ','
  opening : d ∉ openingBrackets
  closing : d ∉ closingBrackets
  symbol : d ∉ operatorChars

theorem ordinary_of_not_mem (h : d ∉ specials) : Ordinary d := by
  simp only [specials, mem_append, not_or] at h
  obtain ⟨⟨⟨⟨⟨hgap, hquote⟩, hcomma⟩, hopening⟩, hclosing⟩, hsymbol⟩ := h
  exact ⟨by simpa [isGap] using hgap, by simpa [isQuote] using hquote, by simpa using hcomma,
    hopening, hclosing, hsymbol⟩

theorem Ordinary.ne_minus (h : Ordinary d) : d ≠ '-' := by
  rintro rfl
  exact h.symbol (by decide)

theorem ordinary_of_isIdentifierChar (h : isIdentifierChar d = true) : Ordinary d := by
  refine ordinary_of_not_mem fun hmem => ?_
  have hall : ∀ d ∈ specials, isIdentifierChar d = false :=
    all_iff_forall_prop.mp (by decide)
  rw [hall d hmem] at h
  cases h

theorem isIdentifierChar_of_isDigit (h : isDigit d = true) : isIdentifierChar d = true := by
  simp [isIdentifierChar, isAlphanumeric_of_isDigit h]

theorem ordinary_numeral (h : NumeralCut lex tail) : ∀ d ∈ lex, Ordinary d := by
  intro d hd
  rcases mem_numeral h hd with hdigit | rfl
  · exact ordinary_of_isIdentifierChar (isIdentifierChar_of_isDigit hdigit)
  · exact ordinary_of_not_mem (by decide)

/-- Behind its first character a lexeme has no special one, but for literals and for the second half
of an arrow or of a comparison. -/
theorem lexes_inner (h : Lexes c lex tail kind) (hquote : isQuote c = false) :
    (∀ d ∈ lex, Ordinary d) ∨ (c = '-' ∧ lex = ['>']) ∨ ((c = '<' ∨ c = '>') ∧ lex = ['=']) := by
  cases h with
  | number digit length =>
    have hcut : NumeralCut (c :: lex) tail := numeralCut_of_length length
    exact .inl fun d hd => ordinary_numeral hcut d (mem_cons_of_mem c hd)
  | negative digit length => exact .inl (ordinary_numeral (numeralCut_of_length length))
  | quoted quote lexeme =>
    rw [quote] at hquote
    cases hquote
  | arrow => exact .inr (.inl ⟨rfl, rfl⟩)
  | comparison angle => exact .inr (.inr ⟨angle, rfl⟩)
  | doubleColon =>
    refine .inl fun d hd => ?_
    rw [mem_singleton.mp hd]
    exact ordinary_of_not_mem (by decide)
  | word first start more stop =>
    exact .inl fun d hd => ordinary_of_isIdentifierChar (more d hd)
  | symbol | punctuation | error => exact .inl (by simp)

/-! ## Literals -/

theorem literalLength_eq (quote : Char) (rest : List Char) :
    literalLength quote rest = (quotedLexeme quote rest).2 := by
  unfold literalLength quotedLexeme
  cases rest.findIdx? (· == quote) <;> rfl

theorem literalLength_of_lexes (h : Lexes c lex tail kind) (hquote : isQuote c = true) :
    literalLength c (lex ++ tail) = lex.length := by
  have hlexeme := h.lexeme_eq
  simp only [lexeme, isDigit_of_isQuote hquote, ne_minus_of_isQuote hquote, hquote, Bool.false_and,
    Bool.false_eq_true, if_false, if_true] at hlexeme
  rw [literalLength_eq, hlexeme]

/-! ## Collapsed gaps -/

theorem collapseRuns_copy (h : ∀ d ∈ lex, isGap d = false ∧ isQuote d = false ∧ d ≠ '-')
    (tail : List Char) : collapseRuns (lex ++ tail) = lex ++ collapseRuns tail := by
  induction lex with
  | nil => rfl
  | cons d lex ih =>
    obtain ⟨hgap, hquote, hminus⟩ := h d mem_cons_self
    rw [cons_append, collapseRuns_cons hgap hquote fun hd => absurd hd hminus,
      ih fun e he => h e (mem_cons_of_mem d he)]
    rfl

theorem collapseRuns_lexeme (h : Lexes c lex tail kind) (hgap : isGap c = false)
    (hdashes : c = '-' → (lex ++ tail).head? ≠ some '-') :
    collapseRuns (c :: (lex ++ tail)) = c :: (lex ++ collapseRuns tail) := by
  cases hquote : isQuote c with
  | true =>
    have hmoves : Moves {} false [] .keep c lex tail .keep :=
      .literal hquote (literalLength_of_lexes h hquote)
    exact hmoves.collapse_lexeme hgap
  | false =>
    have hcopied : ∀ d ∈ lex, isGap d = false ∧ isQuote d = false ∧ d ≠ '-' := by
      rcases lexes_inner h hquote with hinner | ⟨-, rfl⟩ | ⟨-, rfl⟩
      · intro d hd
        have hordinary := hinner d hd
        exact ⟨hordinary.gap, hordinary.quote, hordinary.ne_minus⟩
      · exact all_iff_forall_prop.mp (by decide)
      · exact all_iff_forall_prop.mp (by decide)
    rw [collapseRuns_cons hgap hquote hdashes, collapseRuns_copy hcopied]

theorem keeps_collapseRuns (tail : List Char) : Keeps tail (collapseRuns tail) := by
  refine ⟨head?_collapseRuns tail, fun rest hrest hdigit => ?_⟩
  have hpoint : tail.head? = some '.' := by
    rcases head?_collapseRuns tail with hsame | hbreaks
    · rw [← hsame, hrest, head?_cons]
    · rw [hrest] at hbreaks
      exact absurd (hbreaks '.' rfl) (by decide)
  obtain ⟨more, rfl⟩ := eq_cons_of_head? hpoint
  rw [collapseRuns_cons (by decide) (by decide) (by simp)] at hrest
  obtain rfl := (List.cons.inj hrest).2
  refine ⟨more, rfl, ?_⟩
  cases hmore : more.head?.any isDigit with
  | true => rfl
  | false =>
    rw [head?_any (head?_collapseRuns more) isDigit_of_breaks hmore] at hdigit
    cases hdigit

theorem respaced_collapseRuns (operand : Bool) (cs : List Char) :
    Respaced operand cs (collapseRuns cs) := by
  induction cs using lexemes_induction generalizing operand with
  | nil =>
    rw [collapseRuns_nil]
    exact .nil
  | gap c cs hgap ih =>
    have hspace : isGap ' ' = true := by decide
    rw [collapseRuns_cons_gap hgap]
    -- the run may go on, and then its one space is there already
    cases cs with
    | nil => exact .gap hgap (.newGap hspace (ih operand))
    | cons d cs =>
      cases hd : isGap d with
      | true =>
        have hrest := ih operand
        rw [collapseRuns_cons_gap hd] at hrest
        rw [dropWhile_cons_of_pos hd]
        exact .gap hgap hrest
      | false =>
        rw [dropWhile_cons_of_neg (by simp [hd])]
        exact .gap hgap (.newGap hspace (ih operand))
  | comment cs =>
    have hcopy : collapseRuns ('-' :: '-' :: cs) = '-' :: '-' :: cs := by
      rw [collapseRuns]
      rfl
    rw [hcopy]
    exact .comment
  | lexeme c lex tail kind hgap hdashes hlexes ih =>
    rw [collapseRuns_lexeme hlexes hgap hdashes]
    exact .keep hgap hlexes hdashes (keeps_collapseRuns tail) (ih _)

end GuidedTrack.Layout
