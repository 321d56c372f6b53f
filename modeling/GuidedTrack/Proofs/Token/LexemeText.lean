import GuidedTrack.Token.Expression
import Mathlib.Data.Bool.AllAny
import Mathlib.Data.List.DropRight

/-! # Lexemes

The lexemes of expressions by their kinds, each with what its first characters and the text after it
must be like. `Lexes` is the scanner's longest-match rule as a relation; the position proofs read it
from left to right, the layout proofs ask when text may be put after a lexeme.
-/

namespace GuidedTrack.Token

open Text List

variable {c : Char} {kind : Kind} {lex tail t : List Char} {d : Char} {p stop : Char → Bool}
  {tail old : List Char}

def Kind.opensOperand : Kind → Bool
  | operator | arrow | comma | leftParen | leftBracket | leftBrace => true
  | _ => false

def Kind.isLexeme : Kind → Bool
  | string | number | operator | arrow | leftParen | rightParen | leftBracket | rightBracket
  | leftBrace | rightBrace | comma | dot | colon | doubleColon | identifier | error => true
  | _ => false

/-- `c` starts none of the lexemes that are tried before words. -/
structure WordLike (c : Char) : Prop where
  digit : isDigit c = false
  quote : isQuote c = false
  symbol : c ∉ symbolOperators
  mark : punctuation? c = none

/-- `Lexes c lex tail kind`: in front of `tail`, the lexeme that starts with `c` is `c :: lex`, of
the given kind. -/
inductive Lexes : Char → List Char → List Char → Kind → Prop where
  | number {c : Char} {lex tail : List Char} (digit : isDigit c = true)
      (length : numeralLength (c :: (lex ++ tail)) = lex.length + 1) : Lexes c lex tail .number
  | negative {lex tail : List Char} (digit : (lex ++ tail).head?.any isDigit = true)
      (length : numeralLength (lex ++ tail) = lex.length) : Lexes '-' lex tail .number
  | quoted {c : Char} {lex tail : List Char} {kind : Kind} (quote : isQuote c = true)
      (lexeme : quotedLexeme c (lex ++ tail) = (kind, lex.length)) : Lexes c lex tail kind
  | arrow {tail : List Char} : Lexes '-' ['>'] tail .arrow
  | comparison {c : Char} {tail : List Char} (angle : c = '<' ∨ c = '>') :
      Lexes c ['='] tail .operator
  | doubleColon {tail : List Char} : Lexes ':' [':'] tail .doubleColon
  | symbol {c : Char} {tail : List Char} (mem : c ∈ symbolOperators)
      (minus : c = '-' → tail.head?.any isDigit = false ∧ tail.head? ≠ some '>')
      (angle : c = '<' ∨ c = '>' → tail.head? ≠ some '=') : Lexes c [] tail .operator
  | punctuation {c : Char} {tail : List Char} {kind : Kind} (mark : punctuation? c = some kind)
      (colon : c = ':' → tail.head? ≠ some ':') : Lexes c [] tail kind
  | word {c : Char} {lex tail : List Char} (first : WordLike c)
      (start : isIdentifierStart c = true) (more : ∀ d ∈ lex, isIdentifierChar d = true)
      (stop : ∀ d ∈ tail.head?, isIdentifierChar d = false) :
      Lexes c lex tail (if isWordOperator (c :: lex) then .operator else .identifier)
  | error {c : Char} {tail : List Char} (first : WordLike c)
      (start : isIdentifierStart c = false) : Lexes c [] tail .error

theorem quotedLexeme_kind (quote : Char) (rest : List Char) :
    (quotedLexeme quote rest).1 = .string ∨ (quotedLexeme quote rest).1 = .error := by
  unfold quotedLexeme
  split
  · exact .inl rfl
  · exact .inr rfl

def Kind.Tells (c : Char) (lex tail : List Char) : Kind → Prop
  | number => isDigit c = true ∧ numeralLength (c :: (lex ++ tail)) = lex.length + 1 ∨
      c = '-' ∧ (lex ++ tail).head?.any isDigit = true ∧ numeralLength (lex ++ tail) = lex.length
  | identifier => isIdentifierStart c = true ∧ WordLike c ∧
      (∀ d ∈ lex, isIdentifierChar d = true) ∧ isWordOperator (c :: lex) = false
  | operator => isWordOperator (c :: lex) = true ∨ lex = ['='] ∧ (c = '<' ∨ c = '>') ∨
      lex = [] ∧ c ∈ symbolOperators
  | string => isQuote c = true
  | error => isQuote c = true ∧ tail = [] ∧ c ∉ lex ∨
      lex = [] ∧ WordLike c ∧ isIdentifierStart c = false
  | rightBrace => c = '}'
  | _ => True

theorem Lexes.of_kind (h : Lexes c lex tail kind) : kind.Tells c lex tail := by
  cases h with
  | number digit length => exact .inl ⟨digit, length⟩
  | negative digit length => exact .inr ⟨rfl, digit, length⟩
  | quoted quote lexeme =>
    unfold quotedLexeme at lexeme
    split at lexeme
    · obtain ⟨rfl, -⟩ := Prod.mk.inj lexeme
      exact quote
    · rename_i hnone
      obtain ⟨rfl, hlength⟩ := Prod.mk.inj lexeme
      rw [length_append] at hlength
      refine .inl ⟨quote, length_eq_zero_iff.mp (by omega), fun hmem => ?_⟩
      simpa using findIdx?_eq_none_iff.mp hnone c (mem_append_left tail hmem)
  | comparison angle => exact .inr (.inl ⟨rfl, angle⟩)
  | symbol mem => exact .inr (.inr ⟨rfl, mem⟩)
  | punctuation mark =>
    unfold punctuation? at mark
    split at mark <;> cases mark <;> trivial
  | word first start more =>
    split
    · rename_i hword
      exact .inl hword
    · rename_i hword
      exact ⟨start, first, more, Bool.not_eq_true _ ▸ hword⟩
  | error first start => exact .inr ⟨rfl, first, start⟩
  | arrow | doubleColon => trivial

theorem Lexes.isLexeme (h : Lexes c lex tail kind) : kind.isLexeme = true := by
  cases h with
  | quoted quote lexeme =>
    have hkind := quotedLexeme_kind c (lex ++ tail)
    rw [lexeme] at hkind
    rcases hkind with rfl | rfl <;> rfl
  | punctuation mark colon =>
    unfold punctuation? at mark
    split at mark <;> cases mark <;> rfl
  | word first start more stop => split <;> rfl
  | _ => rfl

theorem numeralLength_le (cs : List Char) : numeralLength cs ≤ cs.length := by
  have hcs := congrArg List.length (takeWhile_append_dropWhile (p := isDigit) (l := cs))
  rw [length_append] at hcs
  simp only [numeralLength]
  split
  · rename_i rest hrest
    have hfraction := (takeWhile_sublist isDigit (l := rest)).length_le
    rw [hrest, length_cons] at hcs
    split <;> omega
  · omega

theorem quotedLexeme_le (quote : Char) (rest : List Char) :
    (quotedLexeme quote rest).2 ≤ rest.length := by
  unfold quotedLexeme
  cases h : rest.findIdx? (· == quote) with
  | none => simp
  | some i => exact (findIdx?_eq_some_iff_getElem.mp h).choose

theorem findIdx?_exchange {text : List Char} {i : Nat} (h : (text ++ old).findIdx? p = some i)
    (hi : i < text.length) (new : List Char) : (text ++ new).findIdx? p = some i := by
  rw [findIdx?_append] at h ⊢
  cases htext : text.findIdx? p with
  | some j => simpa [htext] using h
  | none =>
    rw [htext, Option.none_or] at h
    obtain ⟨j, -, rfl⟩ := Option.map_eq_some_iff.mp h
    omega

/-- A literal that is closed does not depend on what follows. -/
theorem quotedLexeme_string {quote : Char}
    (h : quotedLexeme quote (lex ++ old) = (.string, lex.length)) (new : List Char) :
    quotedLexeme quote (lex ++ new) = (.string, lex.length) := by
  unfold quotedLexeme at h ⊢
  split at h
  · rename_i i hfound
    have hlength : i + 1 = lex.length := congrArg Prod.snd h
    rw [findIdx?_exchange hfound (by omega) new]
    exact h
  · cases h

theorem numeralLength_pos (h : isDigit c = true) (rest : List Char) :
    1 ≤ numeralLength (c :: rest) := by
  simp only [numeralLength, takeWhile_cons, dropWhile_cons, h, if_true, length_cons]
  split
  · split <;> omega
  · omega

theorem lexes_exists (c : Char) (rest : List Char) :
    ∃ lex tail kind, rest = lex ++ tail ∧ Lexes c lex tail kind := by
  have cut (n : Nat) (hn : n ≤ rest.length) :
      ∃ lex tail, rest = lex ++ tail ∧ lex.length = n :=
    ⟨rest.take n, rest.drop n, (take_append_drop n rest).symm,
      by rw [length_take, Nat.min_eq_left hn]⟩
  have next {d : Char} (h : rest.head? = some d) : ∃ tail, rest = d :: tail :=
    ⟨rest.tail, (cons_head?_tail h).symm⟩
  by_cases hdigit : isDigit c = true
  · have hle := numeralLength_le (c :: rest)
    have hpos := numeralLength_pos hdigit rest
    obtain ⟨lex, tail, rfl, hlex⟩ := cut (numeralLength (c :: rest) - 1)
      (by rw [length_cons] at hle; omega)
    exact ⟨lex, tail, .number, rfl, .number hdigit (by omega)⟩
  by_cases hnegative : c = '-' ∧ rest.head?.any isDigit = true
  · obtain ⟨rfl, hnext⟩ := hnegative
    obtain ⟨lex, tail, rfl, hlex⟩ := cut (numeralLength rest) (numeralLength_le rest)
    exact ⟨lex, tail, .number, rfl, .negative hnext hlex.symm⟩
  by_cases hquote : isQuote c = true
  · obtain ⟨lex, tail, rfl, hlex⟩ := cut (quotedLexeme c rest).2 (quotedLexeme_le c rest)
    exact ⟨lex, tail, _, rfl, .quoted hquote (Prod.ext rfl hlex.symm)⟩
  by_cases harrow : c = '-' ∧ rest.head? = some '>'
  · obtain ⟨rfl, hnext⟩ := harrow
    obtain ⟨tail, rfl⟩ := next hnext
    exact ⟨['>'], tail, .arrow, rfl, .arrow⟩
  by_cases hangle : (c = '<' ∨ c = '>') ∧ rest.head? = some '='
  · obtain ⟨tail, rfl⟩ := next hangle.2
    exact ⟨['='], tail, .operator, rfl, .comparison hangle.1⟩
  by_cases hcolon : c = ':' ∧ rest.head? = some ':'
  · obtain ⟨rfl, hnext⟩ := hcolon
    obtain ⟨tail, rfl⟩ := next hnext
    exact ⟨[':'], tail, .doubleColon, rfl, .doubleColon⟩
  by_cases hsymbol : c ∈ symbolOperators
  · refine ⟨[], rest, .operator, rfl, .symbol hsymbol ?_ fun hc hnext => hangle ⟨hc, hnext⟩⟩
    intro hc
    exact ⟨by simpa [hc] using hnegative, fun hnext => harrow ⟨hc, hnext⟩⟩
  cases hmark : punctuation? c with
  | some kind =>
    exact ⟨[], rest, kind, rfl, .punctuation hmark fun hc hnext => hcolon ⟨hc, hnext⟩⟩
  | none =>
    have hfirst : WordLike c := ⟨by simpa using hdigit, by simpa using hquote, hsymbol, hmark⟩
    cases hstart : isIdentifierStart c with
    | false => exact ⟨[], rest, .error, rfl, .error hfirst hstart⟩
    | true =>
      refine ⟨rest.takeWhile isIdentifierChar, rest.dropWhile isIdentifierChar, _,
        takeWhile_append_dropWhile.symm,
        .word hfirst hstart (fun d hd => mem_takeWhile_imp hd) ?_⟩
      intro d hd
      have hnot := head?_dropWhile_not isIdentifierChar rest
      rw [Option.mem_def] at hd
      simpa [hd] using hnot

theorem isDigit_of_isQuote (h : isQuote c = true) : isDigit c = false := by
  simp only [isQuote, Bool.or_eq_true, beq_iff_eq] at h
  rcases h with rfl | rfl <;> decide

theorem ne_minus_of_isQuote (h : isQuote c = true) : (c == '-') = false := by
  simp only [isQuote, Bool.or_eq_true, beq_iff_eq] at h
  rcases h with rfl | rfl <;> decide

theorem forall_marks {p : Char → Prop} [DecidablePred p]
    (hall : ['(', ')', '[', ']', '{', '}', ',', '.', ':'].all (fun c => p c) = true)
    (h : punctuation? c = some kind) : p c := by
  refine all_iff_forall_prop.mp hall c ?_
  unfold punctuation? at h
  split at h <;> simp_all

theorem lexeme_later {rest : List Char} (hdigit : isDigit c = false) (hquote : isQuote c = false)
    (hminus : c = '-' → rest.head?.any isDigit = false ∧ rest.head? ≠ some '>')
    (hangle : c = '<' ∨ c = '>' → rest.head? ≠ some '=')
    (hcolon : c = ':' → rest.head? ≠ some ':') :
    lexeme c rest =
      if symbolOperators.contains c then (.operator, 0)
      else match punctuation? c with
        | some kind => (kind, 0)
        | none =>
          if isIdentifierStart c then
            let more := rest.takeWhile isIdentifierChar
            (if isWordOperator (c :: more) then .operator else .identifier, more.length)
          else (.error, 0) := by
  have hnumber : (c == '-' && rest.head?.any isDigit) = false := by grind
  have harrow : (c == '-' && rest.head? == some '>') = false := by grind
  have hpair : ((c == '<' || c == '>') && rest.head? == some '=') = false := by grind
  have hdouble : (c == ':' && rest.head? == some ':') = false := by grind
  rw [lexeme, hdigit, hquote, hnumber, harrow, hpair, hdouble]
  rfl

theorem WordLike.lexeme_eq (h : WordLike c) (rest : List Char) :
    lexeme c rest =
      if isIdentifierStart c then
        let more := rest.takeWhile isIdentifierChar
        (if isWordOperator (c :: more) then .operator else .identifier, more.length)
      else (.error, 0) := by
  have hne {d : Char} (hd : d ∈ symbolOperators) : c ≠ d := fun hc => h.symbol (hc ▸ hd)
  have hcolon : c ≠ ':' := by
    rintro rfl
    exact absurd h.mark (by decide)
  rw [lexeme_later h.digit h.quote (fun hc => absurd hc (hne (by decide)))
    (fun hc => hc.elim (fun hc => absurd hc (hne (by decide)))
      fun hc => absurd hc (hne (by decide))) fun hc => absurd hc hcolon]
  simp [h.symbol, h.mark]

theorem Lexes.lexeme_eq (h : Lexes c lex tail kind) :
    lexeme c (lex ++ tail) = (kind, lex.length) := by
  cases h with
  | number hdigit hlength => simp [lexeme, hdigit, hlength]
  | negative hnext hlength =>
    have hdigit : isDigit '-' = false := by decide
    simp only [lexeme, hdigit, hnext, hlength, Bool.false_eq_true, if_false, Bool.and_true,
      beq_self_eq_true, if_true]
  | quoted hquote hlexeme =>
    simp only [lexeme, isDigit_of_isQuote hquote, ne_minus_of_isQuote hquote, hquote,
      Bool.false_and, Bool.false_eq_true, if_false, if_true, hlexeme]
  | arrow => rfl
  | comparison hangle => rcases hangle with rfl | rfl <;> rfl
  | doubleColon => rfl
  | symbol hmem hminus hangle =>
    have hfacts : isDigit c = false ∧ isQuote c = false ∧ c ≠ ':' := by
      simp only [symbolOperators, mem_cons, not_mem_nil, or_false] at hmem
      rcases hmem with rfl | rfl | rfl | rfl | rfl | rfl | rfl | rfl <;> decide
    rw [nil_append, lexeme_later hfacts.1 hfacts.2.1 hminus hangle
      fun hc => absurd hc hfacts.2.2]
    simp [hmem]
  | punctuation hmark hcolon =>
    have hfacts := forall_marks
      (p := fun c => isDigit c = false ∧ isQuote c = false ∧ c ∉ symbolOperators)
      (by decide) hmark
    have hne {d : Char} (hd : d ∈ symbolOperators) : c ≠ d := fun hc => hfacts.2.2 (hc ▸ hd)
    rw [nil_append, lexeme_later hfacts.1 hfacts.2.1 (fun hc => absurd hc (hne (by decide)))
      (fun hc => hc.elim (fun hc => absurd hc (hne (by decide)))
        fun hc => absurd hc (hne (by decide))) hcolon]
    simp [hfacts.2.2, hmark]
  | word hfirst hstart hmore hstop =>
    have htake : (lex ++ tail).takeWhile isIdentifierChar = lex := by
      rw [takeWhile_append_of_pos hmore]
      cases tail with
      | nil => simp
      | cons d tail => simp [hstop d rfl]
    simp [hfirst.lexeme_eq, hstart, htake]
  | error hfirst hstart =>
    simp [hfirst.lexeme_eq, hstart]

/-! ## Scans -/

/-- `Scans depth p cs tokens n`: the scan of an expression at `p`, told by what stands in front. It
reads `n` characters of `cs`; `depth` is as for the scanner. -/
inductive Scans : Option Nat → Position → List Char → List Token → Nat → Prop where
  | nil {depth : Option Nat} {p : Position} : Scans depth p [] [] 0
  | gap {depth : Option Nat} {p : Position} {c : Char} {cs : List Char} {tokens : List Token}
      {n : Nat} (gap : isGap c = true) (rest : Scans depth (p.advance 1) cs tokens n) :
      Scans depth p (c :: cs) tokens (n + 1)
  | close {p : Position} {cs : List Char} : Scans (some 0) p ('}' :: cs) [] 0
  | comment {p : Position} {cs : List Char} :
      Scans none p ('-' :: '-' :: cs) [comment p ('-' :: '-' :: cs)] (cs.length + 2)
  | lexeme {depth : Option Nat} {p : Position} {c : Char} {lex tail : List Char} {kind : Kind}
      {tokens : List Token} {n : Nat} (gap : isGap c = false) (lexes : Lexes c lex tail kind)
      (close : ¬ (c = '}' ∧ depth = some 0))
      (dashes : ¬ (c = '-' ∧ (lex ++ tail).head? = some '-' ∧ depth = none))
      (rest : Scans (depth.map (braceDepth kind)) (p.advance (lex.length + 1)) tail tokens n) :
      Scans depth p (c :: (lex ++ tail))
        (covering kind (lexemeText kind (c :: lex)) p (lex.length + 1) :: tokens)
        (n + lex.length + 1)

theorem scans_scanExpression (depth : Option Nat) (p : Position) (cs : List Char) :
    Scans depth p cs (scanExpression depth p cs).1 (scanExpression depth p cs).2 := by
  induction hn : cs.length using Nat.strong_induction_on generalizing depth p cs with
  | _ n ih =>
    cases cs with
    | nil =>
      rw [scanExpression]
      exact .nil
    | cons c rest =>
      rw [length_cons] at hn
      rw [scanExpression]
      split
      · rename_i hgap
        exact .gap hgap (ih rest.length (by omega) depth (p.advance 1) rest rfl)
      split
      · rename_i hclose
        simp only [Bool.and_eq_true, beq_iff_eq] at hclose
        obtain ⟨rfl, rfl⟩ := hclose
        exact .close
      split
      · rename_i hdashes
        simp only [Bool.and_eq_true, beq_iff_eq, Option.isNone_iff_eq_none] at hdashes
        obtain ⟨⟨rfl, hnext⟩, rfl⟩ := hdashes
        cases rest with
        | nil => cases hnext
        | cons d rest =>
          obtain rfl := Option.some.inj hnext
          exact .comment
      · rename_i hgap hclose hdashes
        obtain ⟨lex, tail, kind, rfl, hlexes⟩ := lexes_exists c rest
        have hrest := ih tail.length (by rw [length_append] at hn; omega)
          (depth.map (braceDepth kind)) (p.advance (lex.length + 1)) tail rfl
        simp only [hlexes.lexeme_eq, take_left, drop_left]
        refine .lexeme (by simpa using hgap) hlexes (by simpa using hclose) ?_ hrest
        simpa [and_assoc] using hdashes

theorem lexemes_induction {motive : List Char → Prop} (nil : motive [])
    (gap : ∀ c cs, isGap c = true → motive cs → motive (c :: cs))
    (comment : ∀ cs, motive ('-' :: '-' :: cs))
    (lexeme : ∀ c lex tail kind, isGap c = false → (c = '-' → (lex ++ tail).head? ≠ some '-') →
      Lexes c lex tail kind → motive tail → motive (c :: (lex ++ tail))) (cs : List Char) :
    motive cs := by
  have hscan := scans_scanExpression none .origin cs
  generalize hdepth : (none : Option Nat) = depth, Position.origin = p at hscan
  generalize (scanExpression depth p cs).1 = tokens, (scanExpression depth p cs).2 = n at hscan
  induction hscan with
  | nil => exact nil
  | gap hgap rest ih => exact gap _ _ hgap (ih hdepth)
  | close => cases hdepth
  | comment => exact comment _
  | lexeme hgap hlexes hclose hdashes rest ih =>
    subst hdepth
    exact lexeme _ _ _ _ hgap (fun hc hhead => hdashes ⟨hc, hhead, rfl⟩) hlexes (ih rfl)

/-! ## Numerals -/

inductive NumeralCut : List Char → List Char → Prop where
  | whole {digits tail : List Char} (all : ∀ d ∈ digits, isDigit d = true)
      (stop : tail.head?.any isDigit = false)
      (point : ∀ rest, tail = '.' :: rest → rest.head?.any isDigit = false) :
      NumeralCut digits tail
  | fraction {digits places tail : List Char} (all : ∀ d ∈ digits, isDigit d = true)
      (some : places ≠ []) (allPlaces : ∀ d ∈ places, isDigit d = true)
      (stop : tail.head?.any isDigit = false) : NumeralCut (digits ++ '.' :: places) tail

theorem mem_numeral (h : NumeralCut lex tail) (hd : d ∈ lex) : isDigit d = true ∨ d = '.' := by
  cases h with
  | whole all stop point => exact .inl (all d hd)
  | fraction all some allPlaces stop =>
    rw [mem_append, mem_cons] at hd
    rcases hd with hd | rfl | hd
    · exact .inl (all d hd)
    · exact .inr rfl
    · exact .inl (allPlaces d hd)

theorem head?_dropWhile_isDigit (cs : List Char) :
    (cs.dropWhile isDigit).head?.any isDigit = false := by
  have h := head?_dropWhile_not isDigit cs
  cases hd : (cs.dropWhile isDigit).head? with
  | none => rfl
  | some d => simpa [hd] using h

theorem takeWhile_digits {digits : List Char} (h : ∀ d ∈ digits, isDigit d = true)
    (hstop : tail.head?.any isDigit = false) :
    (digits ++ tail).takeWhile isDigit = digits ∧ (digits ++ tail).dropWhile isDigit = tail := by
  rw [takeWhile_append_of_pos h, dropWhile_append_of_pos h]
  cases tail with
  | nil => simp
  | cons d tail =>
    have hd : isDigit d = false := by simpa using hstop
    simp [hd]

theorem NumeralCut.length_eq (h : NumeralCut lex tail) :
    numeralLength (lex ++ tail) = lex.length := by
  cases h with
  | whole all stop point =>
    obtain ⟨htake, hdrop⟩ := takeWhile_digits all stop
    simp only [numeralLength, htake, hdrop]
    split
    · rename_i rest
      have hrest : rest.takeWhile isDigit = [] := by
        have hhead := point rest rfl
        cases rest with
        | nil => rfl
        | cons d rest => simpa using hhead
      simp [hrest]
    · rfl
  | @fraction digits places _ all some allPlaces stop =>
    have hpoint : ('.' :: (places ++ tail)).head?.any isDigit = false := by
      simp [show isDigit '.' = false by decide]
    obtain ⟨htake, hdrop⟩ := takeWhile_digits all hpoint
    rw [append_assoc, cons_append]
    simp only [numeralLength, htake, hdrop, (takeWhile_digits allPlaces stop).1]
    rw [if_neg (by simpa using some)]
    simp only [length_append, length_cons]
    omega

theorem numeralCut_of_length (h : numeralLength (lex ++ tail) = lex.length) :
    NumeralCut lex tail := by
  have hcut := takeWhile_append_dropWhile (p := isDigit) (l := lex ++ tail)
  have hall : ∀ d ∈ (lex ++ tail).takeWhile isDigit, isDigit d = true :=
    fun d hd => mem_takeWhile_imp hd
  have hstop := head?_dropWhile_isDigit (lex ++ tail)
  generalize hdigits : (lex ++ tail).takeWhile isDigit = digits at hcut hall
  generalize hrest : (lex ++ tail).dropWhile isDigit = rest at hcut hstop
  simp only [numeralLength, hdigits, hrest] at h
  split at h
  · rename_i more
    have hmore := takeWhile_append_dropWhile (p := isDigit) (l := more)
    split at h
    · rename_i hnone
      obtain ⟨rfl, rfl⟩ := append_inj hcut h
      refine .whole hall hstop fun rest heq => ?_
      obtain rfl := (List.cons.inj heq).2
      rw [length_eq_zero_iff] at hnone
      rw [hnone, nil_append] at hmore
      rw [← hmore]
      exact head?_dropWhile_isDigit more
    · rename_i hsome
      rw [← hmore, ← cons_append, ← append_assoc] at hcut
      obtain ⟨rfl, rfl⟩ := append_inj hcut (by
        simp only [length_append, length_cons]
        omega)
      exact .fraction hall (by simpa using hsome) (fun d hd => mem_takeWhile_imp hd)
        (head?_dropWhile_isDigit more)
  · rename_i hpoint
    obtain ⟨rfl, rfl⟩ := append_inj hcut h
    exact .whole hall hstop fun rest heq => absurd heq (hpoint rest)

theorem numeral_of_negative (hdigit : (lex ++ tail).head?.any isDigit = true)
    (hlength : numeralLength (lex ++ tail) = lex.length) :
    ∃ d more, lex = d :: more ∧ isDigit d = true ∧ Lexes d more tail .number := by
  cases lex with
  | nil =>
    cases tail with
    | nil => cases hdigit
    | cons d tail =>
      have hpos := numeralLength_pos (by simpa using hdigit) tail
      simp only [nil_append, length_nil] at hlength
      omega
  | cons d more =>
    have hd : isDigit d = true := by simpa using hdigit
    exact ⟨d, more, rfl, hd, .number hd hlength⟩

/-! ## Texts that end the same lexemes -/

def goesOn (c : Char) : Bool :=
  isIdentifierChar c || isDigit c || c == '>' || c == '=' || c == ':'

/-- Behind a lexeme, `t` may stand for `tail`: it goes on in the same way, or with a character that
`stop` picks out. A point goes on with a numeral only if a digit follows. -/
structure Meets (stop : Char → Bool) (tail t : List Char) : Prop where
  head : t.head? = tail.head? ∨ ∀ d ∈ t.head?, stop d = true
  point : ∀ rest, t = '.' :: rest → rest.head?.any isDigit = true →
    ∃ more, tail = '.' :: more ∧ more.head?.any isDigit = true

theorem head?_any (h : t.head? = tail.head? ∨ ∀ d ∈ t.head?, stop d = true)
    (hp : ∀ {d : Char}, stop d = true → p d = false) (hany : tail.head?.any p = false) :
    t.head?.any p = false := by
  rcases h with hsame | hstop
  · rw [hsame, hany]
  · cases hhead : t.head? with
    | none => rfl
    | some d => exact hp (hstop d hhead)

theorem Meets.ne (h : Meets stop tail t) (hd : stop d = false) (hne : tail.head? ≠ some d) :
    t.head? ≠ some d := by
  intro heq
  rcases h.head with hsame | hstop
  · exact hne (hsame ▸ heq)
  · rw [hstop d heq] at hd
    cases hd

theorem NumeralCut.meets (h : NumeralCut lex tail)
    (hstop : ∀ {d : Char}, stop d = true → isDigit d = false) (hmeets : Meets stop tail t) :
    NumeralCut lex t := by
  cases h with
  | whole all stop point =>
    refine .whole all (head?_any hmeets.head hstop stop) fun rest hrest => ?_
    cases hdigits : rest.head?.any isDigit with
    | false => rfl
    | true =>
      obtain ⟨more, htail, hmore⟩ := hmeets.point rest hrest hdigits
      rw [point more htail] at hmore
      cases hmore
  | fraction all some allPlaces stop =>
    exact .fraction all some allPlaces (head?_any hmeets.head hstop stop)

theorem Lexes.meets (h : Lexes c lex tail kind) (hclosed : ¬(isQuote c = true ∧ kind = .error))
    (hstop : ∀ {d : Char}, stop d = true → goesOn d = false) (hmeets : Meets stop tail t) :
    Lexes c lex t kind := by
  have hgoes {d : Char} (hd : goesOn d = true) : stop d = false := by
    rw [Bool.eq_false_iff]
    intro h
    rw [hstop h] at hd
    cases hd
  have hnumeral {d : Char} (hd : stop d = true) : isDigit d = false := by
    have hd := hstop hd
    simp only [goesOn, Bool.or_eq_false_iff] at hd
    exact hd.1.1.1.2
  have hword (h : tail.head?.any isIdentifierChar = false) :
      t.head?.any isIdentifierChar = false := by
    refine head?_any hmeets.head (fun hd => ?_) h
    have hd := hstop hd
    simp only [goesOn, Bool.or_eq_false_iff] at hd
    exact hd.1.1.1.1
  cases h with
  | number digit length =>
    have hcut : NumeralCut (c :: lex) tail := numeralCut_of_length length
    exact .number digit (hcut.meets hnumeral hmeets).length_eq
  | negative digit length =>
    obtain ⟨d, more, rfl, hd, -⟩ := numeral_of_negative digit length
    have hcut := (numeralCut_of_length length).meets hnumeral hmeets
    exact .negative (by simpa using hd) hcut.length_eq
  | quoted quote lexeme =>
    have hstring := quotedLexeme_kind c (lex ++ tail)
    rw [lexeme] at hstring
    obtain rfl : kind = .string := hstring.resolve_right fun herror => hclosed ⟨quote, herror⟩
    exact .quoted quote (quotedLexeme_string lexeme t)
  | arrow => exact .arrow
  | comparison angle => exact .comparison angle
  | doubleColon => exact .doubleColon
  | symbol mem minus angle =>
    refine .symbol mem (fun hc => ?_) fun hc => hmeets.ne (hgoes (by decide)) (angle hc)
    exact ⟨head?_any hmeets.head hnumeral (minus hc).1, hmeets.ne (hgoes (by decide)) (minus hc).2⟩
  | punctuation mark colon =>
    exact .punctuation mark fun hc => hmeets.ne (hgoes (by decide)) (colon hc)
  | word first start more stop =>
    have hstops := hword ((Option.any_eq_false _ _).mpr stop)
    exact .word first start more ((Option.any_eq_false _ _).mp hstops)
  | error first start => exact .error first start

end GuidedTrack.Token
