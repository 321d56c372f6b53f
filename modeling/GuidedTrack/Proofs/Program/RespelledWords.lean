import GuidedTrack.Proofs.Program.SpelledArguments

/-! # Words spelled anew

A word runs from the first character in a row of identifier characters that can start an identifier
to the end of that row. A text that is spelled anew has the same words, but for operators that are
put in lower case, and the same other characters, but for blanks. No lexeme ends inside a word, so
the two texts fall apart at the same places when they are scanned.
-/

namespace GuidedTrack.Token

open Text Source List

variable {c : Char} {kind : Kind} {cs ds a b piece lex tail word : List Char}

/-! ## Words -/

def isWordStart (c : Char) : Bool :=
  isIdentifierStart c && !isDigit c

theorem isIdentifierChar_of_isWordStart (h : isWordStart c = true) : isIdentifierChar c = true := by
  simp only [isWordStart, isIdentifierStart, Bool.and_eq_true, Bool.or_eq_true] at h
  simp only [isIdentifierChar, isAlphanumeric, Bool.or_eq_true]
  tauto

theorem isWordStart_of_isDigit (h : isDigit c = true) : isWordStart c = false := by
  simp [isWordStart, h]

def IsWord (word : List Char) : Prop :=
  ∃ c lex, word = c :: lex ∧ isWordStart c = true ∧ ∀ d ∈ lex, isIdentifierChar d = true

theorem IsWord.isIdentifierChar (h : IsWord word) : ∀ c ∈ word, isIdentifierChar c = true := by
  obtain ⟨c, lex, rfl, hstart, hmore⟩ := h
  exact forall_mem_cons.mpr ⟨isIdentifierChar_of_isWordStart hstart, hmore⟩

theorem isWord_of_isAlpha (hfilled : word ≠ []) (h : ∀ c ∈ word, c.isAlpha = true) :
    IsWord word := by
  obtain ⟨c, lex, rfl⟩ := exists_cons_of_ne_nil hfilled
  obtain ⟨hc, hlex⟩ := forall_mem_cons.mp h
  have hdigit : isDigit c = false := by
    rw [← Bool.not_eq_true]
    intro hdigit
    have hascii := isDigit_iff_toNat.mp
      (Layout.isDigit_of_isWordChar (Layout.isWordChar_of_isAlpha hc) hdigit)
    have halpha := isAlpha_iff_toNat.mp hc
    omega
  refine ⟨c, lex, rfl, by simp [isWordStart, isIdentifierStart, isLetter_of_ascii hc, hdigit], ?_⟩
  intro d hd
  simp [isIdentifierChar, isAlphanumeric, isLetter_of_ascii (hlex d hd)]

/-- Between `a` and `b` no word goes on: `b` starts with something else, or `a` ends with it or has
no word at all. -/
def Parts (a b : List Char) : Prop :=
  (∀ c ∈ b.head?, isIdentifierChar c = false) ∨ (∀ c ∈ a.getLast?, isIdentifierChar c = false) ∨
    ∀ c ∈ a, isWordStart c = false

theorem Parts.of_append (h : Parts (a ++ cs) b) : Parts cs b := by
  rcases h with hhead | hlast | hnone
  · exact .inl hhead
  · cases cs with
    | nil => exact .inr (.inl (by simp))
    | cons c cs =>
      rw [getLast?_append_of_ne_nil _ (cons_ne_nil c cs)] at hlast
      exact .inr (.inl hlast)
  · exact .inr (.inr fun c hc => hnone c (mem_append_right a hc))

theorem IsWord.stop (h : IsWord word) (hparts : Parts word b) :
    ∀ c ∈ b.head?, Token.isIdentifierChar c = false := by
  have hchars := h.isIdentifierChar
  obtain ⟨c, lex, rfl, hstart, -⟩ := h
  rcases hparts with hhead | hlast | hnone
  · exact hhead
  · have hnot := hlast _ (getLast?_eq_getLast_of_ne_nil (cons_ne_nil c lex))
    rw [hchars _ (getLast_mem _)] at hnot
    cases hnot
  · rw [hnone c mem_cons_self] at hstart
    cases hstart

theorem Lexes.wordless (h : Lexes c lex tail .number) :
    ∀ d ∈ c :: lex, isWordStart d = false ∧ d ≠ ' ' := by
  have hchars {cs : List Char} (h : numeralLength (cs ++ tail) = cs.length) :
      ∀ d ∈ cs, isWordStart d = false ∧ d ≠ ' ' := by
    intro d hd
    rcases mem_numeral (numeralCut_of_length h) hd with hdigit | rfl
    · exact ⟨isWordStart_of_isDigit hdigit, by rintro rfl; cases hdigit⟩
    · decide
  rcases h.of_kind with ⟨-, length⟩ | ⟨rfl, -, length⟩
  · exact hchars length
  · exact forall_mem_cons.mpr ⟨by decide, hchars length⟩

/-- What goes up to the next `c` ends with it, and so not inside a word. -/
theorem parts_of_findIdx? {i : Nat} (h : (lex ++ tail).findIdx? (· == c) = some i)
    (hlength : i + 1 = lex.length) (hc : isIdentifierChar c = false) (a : List Char) :
    Parts (a ++ lex) tail := by
  obtain ⟨hi, hat, -⟩ := findIdx?_eq_some_iff_getElem.mp h
  have hlast : lex.getLast? = some c := by
    rw [getElem_append_left (by omega), beq_iff_eq] at hat
    rw [getLast?_eq_getElem?, List.getElem?_eq_some_iff, ← hat]
    exact ⟨by omega, by simp only [← hlength, Nat.add_sub_cancel]⟩
  refine .inr (.inl fun e he => ?_)
  rw [getLast?_append, hlast, Option.some_or, Option.mem_some] at he
  rwa [← he]

theorem Lexes.parts (h : Lexes c lex tail kind) : Parts (c :: lex) tail := by
  have hchars (h : (c :: lex).all (fun c => !isWordStart c) = true) : Parts (c :: lex) tail :=
    .inr (.inr fun d hd => by simpa using all_eq_true.mp h d hd)
  cases h with
  | number digit length =>
    exact .inr (.inr fun d hd => ((Lexes.number digit length).wordless d hd).1)
  | negative digit length =>
    exact .inr (.inr fun d hd => ((Lexes.negative digit length).wordless d hd).1)
  | quoted quote lexeme =>
    have hquote : isIdentifierChar c = false := by
      simp only [isQuote, Bool.or_eq_true, beq_iff_eq] at quote
      rcases quote with rfl | rfl <;> decide
    unfold quotedLexeme at lexeme
    split at lexeme
    · rename_i i hfound
      exact parts_of_findIdx? hfound (congrArg Prod.snd lexeme) hquote [c]
    · have hlength : (lex ++ tail).length = lex.length := congrArg Prod.snd lexeme
      obtain rfl : tail = [] := by
        rw [length_append] at hlength
        exact length_eq_zero_iff.mp (by omega)
      exact .inl (by simp)
  | comparison angle => rcases angle with rfl | rfl <;> exact hchars (by decide)
  | symbol mem minus angle =>
    have hall : symbolOperators.all (fun c => !isWordStart c) = true := by decide
    exact hchars (by simpa using all_eq_true.mp hall c mem)
  | punctuation mark colon =>
    refine hchars ?_
    have hnot := forall_marks (p := fun c => isWordStart c = false) (by decide) mark
    simpa using hnot
  | word first start more stop => exact .inl stop
  | error first start => exact hchars (by simp [isWordStart, start])
  | _ => exact hchars (by decide)

/-! ## Respelling -/

/-- `Respells cs ds`: the text `cs` may be spelled as `ds` when its tokens are spelled anew. -/
inductive Respells : List Char → List Char → Prop where
  | nil : Respells [] []
  | blank {c : Char} {cs ds : List Char} (blank : isBlank c = true) (rest : Respells cs ds) :
      Respells (c :: cs) (' ' :: ds)
  | other {c : Char} {cs ds : List Char} (start : isWordStart c = false) (rest : Respells cs ds) :
      Respells (c :: cs) (c :: ds)
  | word {word other cs ds : List Char} (isWord : IsWord word)
      (stop : ∀ c ∈ cs.head?, isIdentifierChar c = false)
      (same : other = word ∨
        isWordOperator word = true ∧ other = (lower (String.ofList word)).toList)
      (rest : Respells cs ds) : Respells (word ++ cs) (other ++ ds)

theorem isWord_of_isWordOperator (h : isWordOperator word = true) : IsWord word := by
  refine isWord_of_isAlpha ?_ (isAlpha_of_isWordOperator h)
  rintro rfl
  exact absurd h (by decide)

theorem isWordOperator_lower (h : isWordOperator word = true) :
    isWordOperator (lower (String.ofList word)).toList = true := by
  have hall : ∀ word ∈ Vocabulary.wordOperators, isWordOperator word.toList = true := by decide
  exact hall _ (contains_iff_mem.mp h)

namespace Respells

theorem isWord_other {other : List Char} (hword : IsWord word) (same : other = word ∨
    isWordOperator word = true ∧ other = (lower (String.ofList word)).toList) : IsWord other := by
  rcases same with rfl | ⟨hoperator, rfl⟩
  · exact hword
  · exact isWord_of_isWordOperator (isWordOperator_lower hoperator)

theorem refl (cs : List Char) : Respells cs cs := by
  induction hn : cs.length using Nat.strong_induction_on generalizing cs with
  | _ n ih =>
    cases cs with
    | nil => exact .nil
    | cons c rest =>
      rw [length_cons] at hn
      by_cases hstart : isWordStart c = true
      · have hlead := takeWhile_append_dropWhile (p := isIdentifierChar) (l := rest)
        have hlength := congrArg List.length hlead
        rw [length_append] at hlength
        have hword : IsWord (c :: rest.takeWhile isIdentifierChar) :=
          ⟨c, _, rfl, hstart, fun d hd => mem_takeWhile_imp hd⟩
        have hstop : ∀ d ∈ (rest.dropWhile isIdentifierChar).head?,
            isIdentifierChar d = false := by
          intro d hd
          have := head?_dropWhile_not isIdentifierChar rest
          rw [Option.mem_def.mp hd] at this
          simpa using this
        have hrest := ih _ (by omega) (rest.dropWhile isIdentifierChar) rfl
        simpa using Respells.word hword hstop (.inl rfl) hrest
      · exact .other (by simpa using hstart) (ih rest.length (by omega) rest rfl)

theorem length_eq (h : Respells cs ds) : ds.length = cs.length := by
  induction h with
  | nil => rfl
  | blank _ _ ih | other _ _ ih => simp [ih]
  | word isWord stop same rest ih =>
    rcases same with rfl | ⟨hoperator, rfl⟩
    · simp [ih]
    · rw [length_append, length_append, ih, lower, String.toList_ofList,
        String.toList_ofList, length_lowerAux (isAlpha_of_isWordOperator hoperator)]

theorem inline (h : Respells cs ds) (hcs : Inline cs) :
    Inline ds := by
  induction h with
  | nil => exact hcs
  | blank _ _ ih => exact forall_mem_cons.mpr ⟨rfl, ih (forall_mem_cons.mp hcs).2⟩
  | other _ _ ih =>
    obtain ⟨hc, hcs⟩ := forall_mem_cons.mp hcs
    exact forall_mem_cons.mpr ⟨hc, ih hcs⟩
  | word isWord stop same rest ih =>
    obtain ⟨hword, hcs⟩ := forall_mem_append.mp hcs
    refine forall_mem_append.mpr ⟨?_, ih hcs⟩
    rcases same with rfl | ⟨hoperator, rfl⟩
    · exact hword
    · have hall : ∀ word ∈ Vocabulary.wordOperators, word.toList.all isInline = true := by decide
      exact all_eq_true.mp (hall _ (contains_iff_mem.mp hoperator))

/-- Two texts are spelled anew one behind the other, if no word goes over from one to the other. -/
theorem append (h : Respells cs ds) {as bs : List Char} (hmore : Respells as bs)
    (hparts : Parts cs as) : Respells (cs ++ as) (ds ++ bs) := by
  induction h with
  | nil => exact hmore
  | @blank c cs ds hblank rest ih => exact .blank hblank (ih (Parts.of_append (a := [c]) hparts))
  | @other c cs ds start rest ih => exact .other start (ih (Parts.of_append (a := [c]) hparts))
  | @word word other cs ds isWord stop same rest ih =>
    rw [append_assoc, append_assoc]
    refine .word isWord ?_ same (ih hparts.of_append)
    cases cs with
    | nil => exact isWord.stop (by simpa using hparts)
    | cons c cs => exact stop

/-- A text that is spelled anew falls apart where no word goes on. -/
theorem split (h : Respells cs ds) (hds : ds = a ++ b) (hparts : Parts a b) :
    ∃ x y, cs = x ++ y ∧ Respells x a ∧ Respells y b := by
  -- In every case an empty first part is split off in front.
  have hfront {cs ds : List Char} (h : Respells cs ds) (hds : ds = [] ++ b) :
      ∃ x y, cs = x ++ y ∧ Respells x [] ∧ Respells y b :=
    ⟨[], cs, rfl, .nil, nil_append b ▸ hds ▸ h⟩
  induction h generalizing a with
  | nil =>
    obtain ⟨rfl, rfl⟩ := nil_eq_append_iff.mp hds
    exact hfront .nil rfl
  | @blank c cs ds hblank rest ih =>
    cases a with
    | nil => exact hfront (.blank hblank rest) hds
    | cons d a =>
      obtain ⟨rfl, rfl⟩ := List.cons.inj hds
      obtain ⟨x, y, rfl, hx, hy⟩ := ih rfl (Parts.of_append (a := [' ']) hparts)
      exact ⟨c :: x, y, rfl, .blank hblank hx, hy⟩
  | @other c cs ds start rest ih =>
    cases a with
    | nil => exact hfront (.other start rest) hds
    | cons d a =>
      obtain ⟨rfl, rfl⟩ := List.cons.inj hds
      obtain ⟨x, y, rfl, hx, hy⟩ := ih rfl (Parts.of_append (a := [c]) hparts)
      exact ⟨c :: x, y, rfl, .other start hx, hy⟩
  | @word word other cs ds isWord stop same rest ih =>
    rcases append_eq_append_iff.mp hds with ⟨more, rfl, rfl⟩ | ⟨more, rfl, rfl⟩
    · obtain ⟨x, y, rfl, hx, hy⟩ := ih rfl hparts.of_append
      refine ⟨word ++ x, y, (append_assoc ..).symm, .word isWord ?_ same hx, hy⟩
      cases x with
      | nil => simp
      | cons c x => exact stop
    · cases a with
      | nil => exact hfront (.word isWord stop same rest) rfl
      | cons c a =>
        obtain rfl : more = [] := by
          obtain ⟨d, lex, heq, hstart, hmore⟩ := isWord_other isWord same
          obtain ⟨rfl, rfl⟩ := List.cons.inj heq
          obtain ⟨ha, hmore⟩ := forall_mem_append.mp hmore
          cases more with
          | nil => rfl
          | cons d more =>
            have hstop := IsWord.stop ⟨_, _, rfl, hstart, ha⟩ hparts d rfl
            rw [hmore d mem_cons_self] at hstop
            cases hstop
        refine ⟨word, cs, rfl, ?_, rest⟩
        simpa using Respells.word isWord (by simp) same .nil

theorem eq_of_plain (h : Respells cs ds) (hplain : ∀ d ∈ ds, isWordStart d = false ∧ d ≠ ' ') :
    cs = ds := by
  induction h with
  | nil => rfl
  | blank _ _ _ => exact absurd rfl (hplain ' ' mem_cons_self).2
  | other _ _ ih => rw [ih (forall_mem_cons.mp hplain).2]
  | word isWord _ same _ _ =>
    obtain ⟨c, lex, rfl, hstart, -⟩ := isWord_other isWord same
    rw [(hplain c mem_cons_self).1] at hstart
    cases hstart

theorem head? (h : Respells cs ds) (hcs : ∀ c ∈ cs.head?, isIdentifierChar c = false) :
    ∀ d ∈ ds.head?, isIdentifierChar d = false := by
  cases h with
  | nil => exact hcs
  | blank _ _ => exact fun d hd => Option.mem_some.mp hd ▸ by decide
  | other _ _ => exact hcs
  | word isWord _ _ _ =>
    obtain ⟨c, lex, rfl, hstart, -⟩ := isWord
    have hnot := hcs c rfl
    rw [isIdentifierChar_of_isWordStart hstart] at hnot
    cases hnot

theorem eq_of_isWord (h : Respells cs ds) (hword : IsWord ds) (hname : isWordOperator ds = false) :
    cs = ds := by
  have hchars := hword.isIdentifierChar
  obtain ⟨d, lex, hds, hstart, -⟩ := hword
  cases h with
  | nil => rfl
  | blank _ _ =>
    obtain ⟨rfl, -⟩ := List.cons.inj hds
    exact absurd hstart (by decide)
  | other start _ =>
    obtain ⟨rfl, -⟩ := List.cons.inj hds
    rw [start] at hstart
    cases hstart
  | @word word other cs ds isWord stop same rest =>
    obtain rfl : ds = [] := by
      cases ds with
      | nil => rfl
      | cons c ds =>
        have hnot := rest.head? stop c rfl
        rw [hchars c (by simp)] at hnot
        cases hnot
    obtain rfl : cs = [] := length_eq_zero_iff.mp rest.length_eq.symm
    rw [append_nil] at hname ⊢
    rcases same with rfl | ⟨hoperator, rfl⟩
    · simp
    · rw [isWordOperator_lower hoperator] at hname
      cases hname

end Respells

/-! ## Tokens spelled anew -/

/-- Tokens over a stretch of a line none of which ends inside a word. -/
inductive Retold : Position → List Char → List Token → Prop where
  | nil {p : Position} : Retold p [] []
  | blank {p : Position} {c : Char} {cs : List Char} {tokens : List Token}
      (blank : isBlank c = true) (rest : Retold (p.advance 1) cs tokens) : Retold p (c :: cs) tokens
  | token {p : Position} {token : Token} {piece cs : List Char} {tokens : List Token}
      (span : token.span = ⟨p, p.advance piece.length⟩) (same : Respells piece token.respelled)
      (parts : Parts piece cs) (rest : Retold (p.advance piece.length) cs tokens) :
      Retold p (piece ++ cs) (token :: tokens)

variable {p : Position} {token : Token} {tokens more : List Token} {n : Nat} {depth : Option Nat}

namespace Retold

theorem blanks (h : ∀ c ∈ cs, isBlank c = true) (hmore : Retold (p.advance cs.length) ds more) :
    Retold p (cs ++ ds) more := by
  induction cs generalizing p with
  | nil => simpa using hmore
  | cons c cs ih =>
    obtain ⟨hc, hcs⟩ := forall_mem_cons.mp h
    refine .blank hc (ih hcs ?_)
    rwa [Position.advance_advance, Nat.add_comm]

theorem behind (h : Retold p cs (token :: tokens)) :
    ∃ front back, cs = front ++ back ∧ Retold (p.advance front.length) back tokens := by
  generalize hall : token :: tokens = all at h
  induction h with
  | nil => cases hall
  | @blank p c cs all hblank rest ih =>
    obtain ⟨front, back, rfl, hback⟩ := ih hall
    rw [Position.advance_advance, Nat.add_comm] at hback
    exact ⟨c :: front, back, rfl, hback⟩
  | @token p token piece cs tokens span same parts rest ih =>
    obtain ⟨rfl, rfl⟩ := List.cons.inj hall
    exact ⟨piece, cs, rfl, rest⟩

theorem uncons (h : Retold p cs (token :: tokens)) : ∃ front rest, cs = front ++ rest ∧
    token.span.start = p.advance front.length ∧ Retold token.span.start rest (token :: tokens) := by
  generalize hall : token :: tokens = all at h
  induction h with
  | nil => cases hall
  | @blank p c cs all hblank rest ih =>
    obtain ⟨front, back, rfl, hstart, hback⟩ := ih hall
    refine ⟨c :: front, back, rfl, ?_, hback⟩
    rw [hstart, Position.advance_advance, length_cons, Nat.add_comm]
  | @token p token piece cs tokens span same parts rest ih =>
    obtain ⟨rfl, rfl⟩ := List.cons.inj hall
    refine ⟨[], piece ++ cs, rfl, by rw [span]; simp, ?_⟩
    have hstart : token.span.start = p := by rw [span]
    rw [hstart]
    exact .token span same parts rest

/-- The text that the tokens are spelled with is the stretch they stand on, spelled anew, up to the
blanks at its end. -/
theorem spelling (h : Retold p cs tokens) :
    ∃ n, Respells cs ((Program.spelling p.offset tokens).toList ++ replicate n ' ') := by
  induction h with
  | nil => exact ⟨0, .nil⟩
  | @blank p c cs tokens hblank rest ih =>
    obtain ⟨n, hn⟩ := ih
    cases tokens with
    | nil => exact ⟨n + 1, .blank hblank hn⟩
    | cons token tokens =>
      obtain ⟨front, -, -, hstart, -⟩ := rest.uncons
      have hgap : (token.span.start.offset - p.offset).toNat =
          (token.span.start.offset - (p.advance 1).offset).toNat + 1 := by
        simp only [hstart, Position.advance]
        omega
      refine ⟨n, ?_⟩
      rw [spelling_cons, hgap, replicate_succ]
      rw [spelling_cons] at hn
      exact .blank hblank hn
  | @token p token piece cs tokens span same parts rest ih =>
    obtain ⟨n, hn⟩ := ih
    refine ⟨n, ?_⟩
    rw [spelling_cons, span, Int.sub_self, append_assoc]
    simpa using same.append hn parts

theorem verbatim {kind : Kind} (hkind : kind ≠ .comment) (hparts : Parts cs ds)
    (hmore : Retold (p.advance cs.length) ds more) :
    Retold p (cs ++ ds) (spelled kind p cs :: more) := by
  refine .token rfl ?_ hparts hmore
  rw [Token.respelled, if_neg (show (spelled kind p cs).kind ≠ .comment from hkind)]
  exact String.toList_ofList ▸ Respells.refl cs

theorem mark {kind : Kind} (hkind : kind ≠ .comment) (hc : isWordStart c = false)
    (hmore : Retold (p.advance 1) ds more) : Retold p (c :: ds) (spelled kind p [c] :: more) :=
  .verbatim hkind (.inr (.inr (forall_mem_singleton.mpr hc))) hmore

end Retold

theorem Lexes.respells (h : Lexes c lex tail kind) (p : Position) (n : Nat) : Respells (c :: lex)
    (covering kind (lexemeText kind (c :: lex)) p n).respelled := by
  have hlexeme := h.isLexeme
  have hcomment : kind ≠ .comment := by
    rintro rfl
    cases hlexeme
  rw [Token.respelled, if_neg (show (covering kind _ p n).kind ≠ .comment from hcomment)]
  change Respells (c :: lex) (lexemeText kind (c :: lex)).toList
  unfold lexemeText
  dsimp only
  split
  · rename_i hoperator
    rcases h.operator_text (beq_iff_eq.mp hoperator) with hword | hsame
    · have hword : isWordOperator (c :: lex) = true := contains_iff_mem.mpr hword
      simpa using Respells.word (isWord_of_isWordOperator hword) (by simp) (.inr ⟨hword, rfl⟩) .nil
    · rw [hsame, String.toList_ofList]
      exact .refl _
  · rw [String.toList_ofList]
    exact .refl _

theorem Scans.retold (h : Scans depth p cs tokens n)
    (hmore : Retold (p.advance n) (cs.drop n) more) : Retold p cs (tokens ++ more) := by
  induction h with
  | nil | close => simpa using hmore
  | @gap depth p c cs tokens n gap rest ih =>
    refine .blank (isBlank_of_isGap gap) (ih ?_)
    simpa [Nat.add_comm] using hmore
  | @comment p cs =>
    rw [show ('-' :: '-' :: cs).drop (cs.length + 2) = [] by simp] at hmore
    have hsame : ('-' :: '-' :: cs) = (Token.comment p ('-' :: '-' :: cs)).respelled := by
      simp [Token.respelled, Token.comment, covering]
    have hone : Retold p (('-' :: '-' :: cs) ++ []) (Token.comment p ('-' :: '-' :: cs) :: more) :=
      .token rfl (hsame ▸ Respells.refl ('-' :: '-' :: cs)) (.inl (by simp)) hmore
    rwa [append_nil] at hone
  | @lexeme depth p c lex tail kind tokens n gap lexes close dashes rest ih =>
    refine .token rfl (lexes.respells p _) lexes.parts (ih ?_)
    have hdrop : (c :: (lex ++ tail)).drop (n + lex.length + 1) = tail.drop n := by
      rw [drop_succ_cons, Nat.add_comm, ← drop_drop, drop_left]
    rw [hdrop] at hmore
    simpa [Nat.add_comm, Nat.add_assoc, Nat.add_left_comm] using hmore

theorem Scans.retold_whole (h : Scans depth p cs tokens n) (hdrop : cs.drop n = []) :
    Retold p cs tokens := by
  rw [← append_nil tokens]
  exact h.retold (hdrop ▸ .nil)

theorem retold_prose (hparts : Parts cs ds) (hmore : Retold (p.advance cs.length) ds more) :
    Retold p (cs ++ ds) (prose p cs ++ more) := by
  unfold prose
  split
  · rename_i hblank
    exact .blanks (all_eq_true.mp hblank) hmore
  · exact .verbatim (by decide) hparts hmore

theorem parts_emphasis (hmarker : c = '*' ∨ c = '/')
    (h : emphasisLength? c (piece ++ cs) = some piece.length) : Parts (c :: piece) cs := by
  cases piece with
  | nil => cases emphasisLength?_pos h
  | cons d piece =>
    rw [cons_append, emphasisLength?] at h
    split at h
    · cases h
    obtain ⟨i, hfound, hlength⟩ := Option.map_eq_some_iff.mp h
    refine parts_of_findIdx? hfound (Nat.succ.inj hlength) ?_ [c, d]
    rcases hmarker with rfl | rfl <;> decide

theorem retold_scanText (emphasis : Bool) (p : Position) (cs : List Char) :
    Retold p cs (scanText emphasis p cs) := by
  induction cs using @prose_induction emphasis generalizing p with
  | plain cs hplain =>
    rw [scanText_plain hplain]
    have hall : Retold p (cs ++ []) (prose p cs ++ []) := retold_prose (.inl (by simp)) .nil
    rwa [append_nil, append_nil] at hall
  | hole chunk cs hplain ih =>
    rw [scanText_hole hplain]
    refine retold_prose (.inl (by simp; decide)) (.mark (by decide) (by decide) ?_)
    rw [Position.advance_advance]
    obtain ⟨tokens, n, hscan, ⟨hdrop, heq⟩ | ⟨more, hdrop, heq⟩⟩ :=
      scanHole_cases 0 (p.advance (chunk.length + 1)) cs
    · rw [heq]
      exact hscan.retold_whole hdrop
    · rw [heq]
      refine hscan.retold ?_
      rw [hdrop]
      refine .mark (by decide) (by decide) ?_
      rw [Position.advance_advance]
      exact ih more (by have := congrArg List.length hdrop; simp at this; omega) _
  | span chunk c piece cs hplain hmarker hpiece ih =>
    rw [scanText_emphasis hplain (by rcases hmarker with rfl | rfl <;> decide) hpiece,
      append_assoc]
    refine retold_prose (.inl ?_) (retold_prose (parts_emphasis hmarker hpiece) ?_)
    · rcases hmarker with rfl | rfl <;> simp <;> decide
    · simpa [Nat.add_assoc] using ih _

end GuidedTrack.Token
