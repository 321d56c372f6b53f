import GuidedTrack.Proofs.Layout.LexemeBoundaries

/-! # Spacing keeps lexemes

The writer goes through code character by character and the scanner lexeme by lexeme. Both see the
same lexemes before and after: the writer takes out a gap only beside a mark, and it tells a sign
from a subtraction by the text that it has written, which names the lexeme before.
-/

namespace GuidedTrack.Layout

open Text Token List

variable {after : After} {operators : Bool} {d c : Char} {kind : Kind} {b lex tail cs : List Char}
  {style : Style}

/-! ## The end of the text written so far -/

def Numbered (b : List Char) : Prop :=
  ∀ d ∈ b.takeWhile isWordChar, d.isDigit = true

theorem numbered_cons (h : isWordChar d = false) (b : List Char) : Numbered (d :: b) := by
  simp [Numbered, h]

theorem numbered_append {w : List Char} (hw : ∀ d ∈ w, isWordChar d = true → d.isDigit = true)
    (hb : Numbered b) : Numbered (w ++ b) := by
  induction w with
  | nil => exact hb
  | cons d w ih =>
    cases hd : isWordChar d with
    | false => exact numbered_cons hd (w ++ b)
    | true =>
      have hrest := ih fun e he => hw e (mem_cons_of_mem d he)
      simp only [Numbered, cons_append, takeWhile_cons_of_pos hd] at hrest ⊢
      exact forall_mem_cons.mpr ⟨hw d mem_cons_self hd, hrest⟩

theorem numbered_numeral (h : NumeralCut lex tail) (hb : Numbered b) :
    Numbered (lex.reverse ++ b) := by
  refine numbered_append (fun d hd hword => ?_) hb
  rcases mem_numeral h (mem_reverse.mp hd) with hdigit | rfl
  · exact isDigit_of_isWordChar hword hdigit
  · exact absurd hword (by decide)

/-- After a lexeme that is not a word, no word stands at the end of the text. -/
theorem numbered_of_lexes (h : Lexes c lex tail kind)
    (hb : isIdentifierChar c = true → Numbered b) :
    tail.head?.any isIdentifierChar = false ∨ Numbered ((c :: lex).reverse ++ b) := by
  cases h with
  | number digit length =>
    have hcut : NumeralCut (c :: lex) tail := numeralCut_of_length length
    exact .inr (numbered_numeral hcut (hb (isIdentifierChar_of_isDigit digit)))
  | negative digit length =>
    have hminus : Numbered ('-' :: b) := numbered_cons (by decide) b
    refine .inr ?_
    simpa using numbered_numeral (numeralCut_of_length length) hminus
  | quoted quote lexeme =>
    by_cases htail : tail = []
    · exact .inl (by simp [htail])
    · have hlength : literalLength c (lex ++ tail) = lex.length := by
        rw [literalLength_eq, lexeme]
      obtain ⟨inner, rfl, -⟩ := literal_closed hlength htail
      have hword : isWordChar c = false := by
        simp only [isQuote, Bool.or_eq_true, beq_iff_eq] at quote
        rcases quote with rfl | rfl <;> decide
      exact .inr (by simpa using numbered_cons hword _)
  | arrow | comparison angle | doubleColon => exact .inr (numbered_cons (by decide) _)
  | symbol mem minus angle =>
    have hall : ∀ d ∈ symbolOperators, isWordChar d = false :=
      all_iff_forall_prop.mp (by decide)
    exact .inr (numbered_cons (hall c mem) b)
  | punctuation mark colon =>
    have hword := forall_marks (p := fun c => isWordChar c = false) (by decide) mark
    exact .inr (numbered_cons hword b)
  | word first start more stop =>
    refine .inl ?_
    cases htail : tail.head? with
    | none => rfl
    | some d => exact stop d htail
  | error first start =>
    have hword : isWordChar c = false := by
      by_contra hword
      rcases isDigit_or_isIdentifierStart (by simpa using hword) with hdigit | hstart
      · rw [first.digit] at hdigit
        cases hdigit
      · rw [start] at hstart
        cases hstart
    exact .inr (numbered_cons hword b)

theorem isSignPosition_cons (h : d ∈ signPreceders) (b : List Char) :
    isSignPosition (d :: b) = true := by
  have hall : ∀ d ∈ signPreceders, isGap d = false :=
    all_iff_forall_prop.mp (by decide)
  simp [isSignPosition, hall d h, h]

theorem isBlank_of_isAlpha (h : c.isAlpha = true) : isBlank c = false := by
  rw [isAlpha_iff_toNat] at h
  cases hblank : isBlank c with
  | false => rfl
  | true =>
    simp only [isBlank, Bool.or_eq_true, Bool.and_eq_true, decide_eq_true_eq, beq_iff_eq] at hblank
    omega

theorem isSignPosition_word (hword : isWordOperator (c :: lex) = true) (hdigit : isDigit c = false)
    (hb : Numbered b) : isSignPosition ((c :: lex).reverse ++ b) = true := by
  have halpha := isAlpha_of_isWordOperator hword
  have hchars : ∀ d ∈ (c :: lex).reverse, isWordChar d = true :=
    fun d hd => isWordChar_of_isAlpha (halpha d (mem_reverse.mp hd))
  obtain ⟨d, w, hw⟩ := exists_cons_of_ne_nil (l := (c :: lex).reverse) (by simp)
  have hd : isBlank d = false :=
    isBlank_of_isAlpha (halpha d (mem_reverse.mp (hw ▸ mem_cons_self)))
  have hgap : isGap d = false := by
    cases hgap : isGap d with
    | false => rfl
    | true =>
      rcases isGap_iff.mp hgap with rfl | rfl <;> exact absurd hd (by decide)
  have hascii : c.isDigit = false := by
    cases hascii : c.isDigit with
    | false => rfl
    | true =>
      rw [isDigit_of_ascii hascii] at hdigit
      cases hdigit
  have hlast : lastWord ((c :: lex).reverse ++ b) = String.ofList (c :: lex) := by
    have hblanks : ((c :: lex).reverse ++ b).dropWhile isBlank = (c :: lex).reverse ++ b := by
      rw [hw, cons_append, dropWhile_cons_of_neg (by simp [hd])]
    rw [lastWord, hblanks, takeWhile_append_of_pos hchars, reverse_append,
      reverse_reverse, dropWhile_append_of_pos (by simpa [Numbered] using hb),
      dropWhile_cons_of_neg (by simp [hascii])]
  have hgaps : ((c :: lex).reverse ++ b).dropWhile isGap = d :: (w ++ b) := by
    rw [hw, cons_append, dropWhile_cons_of_neg (by simp [hgap])]
  rw [hw, cons_append] at hlast
  simp only [isSignPosition, hgaps, hlast, Bool.or_eq_true]
  exact .inr hword

theorem isSignPosition_of_lexes (h : Lexes c lex tail kind)
    (hb : isIdentifierChar c = true → Numbered b) (hopens : kind.opensOperand = true) :
    isSignPosition ((c :: lex).reverse ++ b) = true := by
  cases h with
  | arrow | comparison angle => exact isSignPosition_cons (by decide) _
  | symbol mem minus angle =>
    have hall : ∀ d ∈ symbolOperators, d ∈ signPreceders :=
      all_iff_forall_prop.mp (by decide)
    exact isSignPosition_cons (hall c mem) b
  | punctuation mark colon =>
    have hopening := forall_marks (p := fun c => (punctuation? c).all
      (fun kind => !kind.opensOperand || signPreceders.contains c) = true) (by decide) mark
    rw [mark] at hopening
    simp only [Option.all_some, hopens, Bool.not_true, Bool.false_or] at hopening
    exact isSignPosition_cons (contains_iff_mem.mp hopening) b
  | word first start more stop =>
    split at hopens
    · rename_i hword
      have hc : isIdentifierChar c = true := by
        simp only [isIdentifierStart, isIdentifierChar, isAlphanumeric, Bool.or_eq_true] at start ⊢
        exact start.imp .inl id
      exact isSignPosition_word hword first.digit (hb hc)
    · cases hopens
  | quoted quote lexeme =>
    have hkind := quotedLexeme_kind c (lex ++ tail)
    rw [lexeme] at hkind
    rcases hkind with rfl | rfl <;> cases hopens
  | number | negative | doubleColon | error => cases hopens

/-! ## Characters that are copied -/

def Inert (style : Style) (operators : Bool) (d : Char) : Prop :=
  ∀ {b lex tail : List Char} {before : Before} {after : After},
    Moves style operators b before d lex tail after → before = .keep ∧ lex = [] ∧ after = .keep

theorem Ordinary.inert (h : Ordinary d) (style : Style) (operators : Bool) :
    Inert style operators d := by
  intro b lex tail before after hmoves
  cases hmoves with
  | literal quote length =>
    rw [h.quote] at quote
    cases quote
  | comment | arrow | tightArrow | sign => exact absurd rfl h.ne_minus
  | comparison on angle => rcases angle with rfl | rfl <;> exact absurd (by decide) h.symbol
  | operator on mem => exact absurd mem h.symbol
  | comma => exact absurd rfl h.comma
  | opening mem => exact absurd mem h.opening
  | closing mem => exact absurd mem h.closing
  | plain => exact ⟨rfl, rfl, rfl⟩

theorem inert_symbol (hd : d = '>' ∨ d = '=')
    (hoff : ¬ (operators = true ∧ style.spaceAroundOperators = true)) :
    Inert style operators d := by
  intro b lex tail before after hmoves
  cases hmoves with
  | comparison on | operator on => exact absurd on hoff
  | literal quote => rcases hd with rfl | rfl <;> cases quote
  | opening mem | closing mem => rcases hd with rfl | rfl <;> exact absurd mem (by decide)
  | plain => exact ⟨rfl, rfl, rfl⟩
  | _ => simp at hd

theorem Spaced.cons {style : Style} {operators : Bool} {after : After} {b rest s : List Char}
    {d : Char} (h : Spaced style operators after b (d :: rest) s) (hd : isGap d = false) :
    ∃ before lex tail after' t, rest = lex ++ tail ∧
      Moves style operators b before d lex tail after' ∧
      s = before.gap b.isEmpty (after.gap d []) ++ d :: (lex ++ t) ∧
      Spaced style operators after'
        ((d :: lex).reverse ++ (before.gap b.isEmpty (after.gap d [])).reverse ++ b) tail t := by
  generalize hcs : d :: rest = cs at h
  cases h with
  | done => cases hcs
  | @lexeme _ after' before _ g h lex tail t c gaps head moves gap rest' =>
    cases g with
    | nil =>
      obtain ⟨rfl, rfl⟩ := List.cons.inj hcs
      subst gap
      exact ⟨before, lex, tail, after', t, rfl, moves, rfl, rest'⟩
    | cons e g =>
      obtain ⟨rfl, -⟩ := List.cons.inj hcs
      rw [gaps d mem_cons_self] at hd
      cases hd

theorem Spaced.inert {s : List Char} (h : Spaced style operators .keep b (lex ++ tail) s)
    (hlex : ∀ d ∈ lex, isGap d = false ∧ Inert style operators d) :
    ∃ t, s = lex ++ t ∧ Spaced style operators .keep (lex.reverse ++ b) tail t := by
  induction lex generalizing b s with
  | nil => exact ⟨s, rfl, h⟩
  | cons d lex ih =>
    obtain ⟨hgap, hinert⟩ := hlex d mem_cons_self
    obtain ⟨before, lex', tail', after', t, hrest, hmoves, rfl, ht⟩ := h.cons hgap
    obtain ⟨rfl, rfl, rfl⟩ := hinert hmoves
    subst hrest
    obtain ⟨u, rfl, hu⟩ := ih ht fun e he => hlex e (mem_cons_of_mem d he)
    exact ⟨u, rfl, by simpa [Before.gap, After.gap] using hu⟩

theorem Spaced.keeps {t : List Char} (h : Spaced style operators after b tail t) (hb : b ≠ [])
    (hafter : after = .keep ∨ after = .space) : Keeps tail t := by
  refine ⟨h.head? hb hafter, fun rest hrest hdigit => ?_⟩
  have hpoint : tail.head? = some '.' := by
    rcases h.head? hb hafter with hsame | hbreaks
    · rw [← hsame, hrest, head?_cons]
    · rw [hrest] at hbreaks
      exact absurd (hbreaks '.' rfl) (by decide)
  obtain ⟨more, rfl⟩ := eq_cons_of_head? hpoint
  obtain ⟨before, lex, tail', after', u, rfl, hmoves, rfl, hu⟩ := h.cons (by decide)
  have hordinary : Ordinary '.' := ordinary_of_not_mem (by decide)
  obtain ⟨rfl, rfl, rfl⟩ := hordinary.inert style operators hmoves
  refine ⟨_, rfl, ?_⟩
  rcases hafter with rfl | rfl
  · obtain rfl : u = rest := (List.cons.inj hrest).2
    cases hmore : tail'.head?.any isDigit with
    | true => simpa using hmore
    | false =>
      rw [head?_any (hu.head? (by simp) (.inl rfl)) isDigit_of_breaks hmore] at hdigit
      cases hdigit
  · simp [Before.gap, After.gap] at hrest

/-! ## Lexemes along a run -/

theorem numeralCut_exists (h : cs.head?.any isDigit = true) :
    ∃ d lex tail, cs = d :: (lex ++ tail) ∧ isDigit d = true ∧ NumeralCut (d :: lex) tail := by
  have hcut := take_append_drop (numeralLength cs) cs
  have hlength : numeralLength (cs.take (numeralLength cs) ++ cs.drop (numeralLength cs)) =
      (cs.take (numeralLength cs)).length := by
    rw [hcut, length_take, Nat.min_eq_left (numeralLength_le cs)]
  obtain ⟨d, lex, hlex, hd, -⟩ := numeral_of_negative (hcut.symm ▸ h) hlength
  rw [hlex] at hcut hlength
  exact ⟨d, lex, _, hcut.symm, hd, numeralCut_of_length hlength⟩

/-- Where the writer and the scanner stand together, behind the text `b` and in front of `cs`: an
operand is due only where a minus is a sign, and a word that is still to come is not joined to one
that is written. -/
structure Ready (operand : Bool) (after : After) (b cs : List Char) : Prop where
  sign : operand = true → isSignPosition b = true
  word : (after ≠ .drop ∧ cs.head?.any isIdentifierChar = false) ∨ Numbered b

theorem Ready.numbered {operand : Bool} {after' : After} {before : Before} {g : List Char}
    (h : Ready operand after b (g ++ c :: (lex ++ tail))) (hg : Gaps g)
    (hmoves : Moves style operators b before c lex tail after') (hc : isIdentifierChar c = true) :
    Numbered ((before.gap b.isEmpty (after.gap c g)).reverse ++ b) := by
  have hordinary := ordinary_of_isIdentifierChar hc
  obtain ⟨rfl, -, -⟩ := hordinary.inert style operators hmoves
  have hgaps : Gaps ((after.gap c g).reverse) :=
    fun d hd => gap_of_mem_gap hg d (mem_reverse.mp hd)
  simp only [Before.gap]
  cases hgap : (after.gap c g).reverse with
  | cons d h =>
    rw [hgap] at hgaps
    refine numbered_cons ?_ _
    rcases isGap_iff.mp (hgaps d mem_cons_self) with rfl | rfl <;> decide
  | nil =>
    rw [reverse_eq_nil_iff] at hgap
    refine h.word.resolve_left ?_
    rintro ⟨hafter, hhead⟩
    cases after with
    | keep =>
      rw [show g = [] from hgap] at hhead
      simp [hc] at hhead
    | drop => exact absurd rfl hafter
    | space => cases hgap
    | comma => simp [After.gap, hordinary.closing] at hgap

theorem ready_of_lexes (h : Lexes c lex tail kind) (hb : isIdentifierChar c = true → Numbered b)
    (hafter : after ≠ .drop) : Ready kind.opensOperand after ((c :: lex).reverse ++ b) tail :=
  ⟨isSignPosition_of_lexes h hb, (numbered_of_lexes h hb).imp_left fun hhead => ⟨hafter, hhead⟩⟩

def KeepsBelow (style : Style) (operators : Bool) (n : Nat) : Prop :=
  ∀ {operand : Bool} {after : After} {b cs t : List Char}, cs.length < n →
    Spaced style operators after b cs t → Ready operand after b cs → Respaced operand cs t

section

variable {style : Style} {operators operand : Bool} {n : Nat} {b lex tail t : List Char} {c : Char}
  (ih : KeepsBelow style operators n)

include ih

theorem KeepsBelow.lexeme {after : After} {kind : Kind} (hgap : isGap c = false)
    (hlexes : Lexes c lex tail kind) (hdashes : c = '-' → (lex ++ tail).head? ≠ some '-')
    (hb : isIdentifierChar c = true → Numbered b)
    (hrest : Spaced style operators after ((c :: lex).reverse ++ b) tail t)
    (hafter : after = .keep ∨ after = .space) (hlt : tail.length < n) :
    Respaced operand (c :: (lex ++ tail)) (c :: (lex ++ t)) := by
  have hdrop : after ≠ .drop := by rcases hafter with rfl | rfl <;> simp
  exact .keep hgap hlexes hdashes (hrest.keeps (by simp) hafter)
    (ih hlt hrest (ready_of_lexes hlexes hb hdrop))

theorem KeepsBelow.copy (hgap : isGap c = false) (hquote : isQuote c = false)
    (hdashes : c = '-' → tail.head? ≠ some '-')
    (hoff : (c = '-' ∧ tail.head? = some '>') ∨ c = '<' ∨ c = '>' →
      ¬ (operators = true ∧ style.spaceAroundOperators = true))
    (hb : isIdentifierChar c = true → Numbered b)
    (hrest : Spaced style operators .keep (c :: b) tail t) (hlt : tail.length < n) :
    Respaced operand (c :: tail) (c :: t) := by
  obtain ⟨lex, tail, kind, rfl, hlexes⟩ := lexes_exists c tail
  have hinert : ∀ d ∈ lex, isGap d = false ∧ Inert style operators d := by
    rcases lexes_inner hlexes hquote with hinner | ⟨rfl, rfl⟩ | ⟨hangle, rfl⟩
    · exact fun d hd => ⟨(hinner d hd).gap, (hinner d hd).inert style operators⟩
    · intro d hd
      rw [mem_singleton.mp hd]
      exact ⟨by decide, inert_symbol (.inl rfl) (hoff (.inl ⟨rfl, rfl⟩))⟩
    · intro d hd
      rw [mem_singleton.mp hd]
      exact ⟨by decide, inert_symbol (.inr rfl) (hoff (.inr hangle))⟩
  obtain ⟨t, rfl, ht⟩ := hrest.inert hinert
  refine ih.lexeme hgap hlexes hdashes hb (by simpa using ht) (.inl rfl) ?_
  rw [length_append] at hlt
  omega

/-- A mark is a lexeme whatever becomes of the gaps around it. -/
theorem KeepsBelow.mark {after : After} (hmark : (punctuation? c).isSome = true) (hcolon : c ≠ ':')
    (hrest : Spaced style operators after (c :: b) tail t) (hlt : tail.length < n) :
    Respaced operand (c :: tail) (c :: t) := by
  obtain ⟨kind, hkind⟩ := Option.isSome_iff_exists.mp hmark
  have hchars := forall_marks (p := fun c => isWordChar c = false ∧ isIdentifierChar c = false)
    (by decide) hkind
  have hlexes : Lexes c [] tail kind := .punctuation hkind fun hc => absurd hc hcolon
  refine .mark hkind hcolon (ih hlt hrest ⟨isSignPosition_of_lexes hlexes ?_, .inr ?_⟩)
  · exact fun hc => absurd hc (by simp [hchars.2])
  · exact numbered_cons hchars.1 b

theorem KeepsBelow.split (hdigit : tail.head?.any isDigit = true)
    (hrest : Spaced style operators .space ('-' :: b) tail t) (hlt : tail.length < n) :
    Respaced false ('-' :: tail) ('-' :: t) := by
  obtain ⟨d, lex, tail, rfl, hd, hcut⟩ := numeralCut_exists hdigit
  have hordinary := ordinary_numeral hcut
  have hinert : ∀ e ∈ lex, isGap e = false ∧ Inert style operators e := fun e he =>
    have hhere := hordinary e (mem_cons_of_mem d he)
    ⟨hhere.gap, hhere.inert style operators⟩
  -- the first digit takes the space that the minus left, the others follow it
  have hfirst := hordinary d mem_cons_self
  obtain ⟨before, lex', tail', after, t, hrest', hmoves, rfl, ht⟩ := hrest.cons hfirst.gap
  obtain ⟨rfl, rfl, rfl⟩ := hfirst.inert style operators hmoves
  subst hrest'
  obtain ⟨t, rfl, hmore⟩ := ht.inert hinert
  have hnumber : Lexes d lex tail .number := .number hd hcut.length_eq
  have hready : Ready false .keep ((d :: lex).reverse ++ (' ' :: '-' :: b)) tail :=
    ready_of_lexes hnumber (fun _ => numbered_cons (by decide) _) (by simp)
  have hspaced : Spaced style operators .keep ((d :: lex).reverse ++ (' ' :: '-' :: b)) tail t := by
    simpa [Before.gap, After.gap] using hmore
  have hcut' := hcut.meets isDigit_of_breaks (hspaced.keeps (by simp) (.inl rfl)).meets
  refine .split hd (.negative (by simpa using hd) hcut.length_eq) (.number hd hcut'.length_eq)
    (ih ?_ hspaced hready)
  simp only [length_cons, length_append] at hlt
  omega

end

theorem Spaced.respaced {operand : Bool} {t : List Char} (h : Spaced style operators after b cs t)
    (hready : Ready operand after b cs) : Respaced operand cs t := by
  have hall (n : Nat) : KeepsBelow style operators n := by
    induction n with
    | zero => exact fun hlt => absurd hlt (Nat.not_lt_zero _)
    | succ n ih =>
      intro operand after b cs t hlt h hready
      cases h with
      | done => exact .nil
      | @lexeme _ after' before _ g h lex tail t c gaps head moves gap rest =>
        refine .gaps gaps (gap ▸ gap_of_mem_before (gap_of_mem_gap gaps)) ?_
        have hb : isIdentifierChar c = true → Numbered (h.reverse ++ b) :=
          gap ▸ hready.numbered gaps moves
        have hshort : tail.length < n := by
          simp only [length_append, length_cons] at hlt
          omega
        rw [append_assoc] at rest
        cases moves with
        | literal quote length =>
          have hlexes : Lexes c lex tail (quotedLexeme c (lex ++ tail)).1 :=
            .quoted quote (Prod.ext rfl (literalLength_eq c (lex ++ tail) ▸ length))
          refine ih.lexeme head hlexes ?_ hb rest (.inl rfl) hshort
          rintro rfl
          cases quote
        | comment next =>
          obtain ⟨lex, rfl⟩ := eq_cons_of_head? next
          exact .comment
        | arrow on spaced => exact ih.lexeme head .arrow (by simp) hb rest (.inr rfl) hshort
        | tightArrow on tight =>
          exact ih.lexeme head .arrow (by simp) hb rest (.inl rfl) hshort
        | comparison on angle =>
          refine ih.lexeme head (.comparison angle) ?_ hb rest (.inr rfl) hshort
          rintro rfl
          simp at angle
        | sign on position next =>
          refine ih.copy head (by decide) (fun _ => next.1) ?_ hb rest hshort
          rintro (⟨-, harrow⟩ | habsurd)
          · exact absurd harrow next.2
          · simp at habsurd
        | operator on mem minus angle =>
          by_cases hsplit : c = '-' ∧ tail.head?.any isDigit = true
          · obtain ⟨rfl, hdigit⟩ := hsplit
            obtain rfl : operand = false := by
              cases operand with
              | false => rfl
              | true => exact absurd (hready.sign rfl) (by simp [(minus rfl).1])
            exact ih.split hdigit rest hshort
          · refine ih.lexeme head (.symbol mem (fun hc => ?_) angle) (fun hc => (minus hc).2.1)
              hb rest (.inr rfl) hshort
            exact ⟨by simpa [hc] using hsplit, (minus hc).2.2⟩
        | comma on => exact ih.mark (by decide) (by decide) rest hshort
        | opening mem =>
          have hall : ∀ d ∈ openingBrackets, (punctuation? d).isSome = true ∧ d ≠ ':' :=
            all_iff_forall_prop.mp (by decide)
          exact ih.mark (hall c mem).1 (hall c mem).2 rest hshort
        | closing mem =>
          have hall : ∀ d ∈ closingBrackets, (punctuation? d).isSome = true ∧ d ≠ ':' :=
            all_iff_forall_prop.mp (by decide)
          exact ih.mark (hall c mem).1 (hall c mem).2 rest hshort
        | plain quote minus symbol comma bracket =>
          refine ih.copy head quote (fun hc => (minus hc).1) ?_ hb rest hshort
          rintro (⟨rfl, harrow⟩ | hangle) hon
          · exact (minus rfl).2 hon.1 harrow
          · refine symbol hon ?_
            rcases hangle with rfl | rfl <;> decide
  exact hall (cs.length + 1) (Nat.lt_succ_self _) h hready

theorem respaced_code (style : Style) (operators : Bool) (h : Trimmed cs) :
    Respaced true cs (code style operators cs) := by
  obtain ⟨t, ht⟩ := spaced_exists style operators .keep [] cs h
  rw [code_of_spaced ht]
  exact ht.respaced ⟨fun _ => rfl, .inr (by simp [Numbered])⟩

end GuidedTrack.Layout
