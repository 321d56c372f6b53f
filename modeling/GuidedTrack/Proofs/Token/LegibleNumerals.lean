import GuidedTrack.Proofs.Expr.LiteralContents
import GuidedTrack.Proofs.Layout.LexemeBoundaries
import GuidedTrack.Proofs.LegibleTexts
import GuidedTrack.Proofs.Program.SpelledArguments

/-! # Tokens of safe texts

The numerals and literals that are scanned out of a text stand in it as they are. So where all
numerals of a text can be read, those of its tokens can be, and so can those that are scanned out of
its literals and out of arguments spelled anew.
-/

namespace GuidedTrack

open List

variable {cs : List Char} {i : Nat} {token : Token} {tokens : List Token} {k : Nat}

namespace Token

open Source Text
open Numeral (Safe Shaped Masks)

/-- A token whose text, as far as it is scanned anew or read as a number, can be read. -/
structure Legible (token : Token) : Prop where
  number : token.kind = .number → Shaped token.text.toList
  safe : token.kind = .number ∨ token.kind = .string → Safe token.text.toList

theorem Legible.other (hnumber : token.kind ≠ .number) (hstring : token.kind ≠ .string) :
    token.Legible :=
  ⟨fun hkind => absurd hkind hnumber, fun hkind => absurd hkind (not_or.mpr ⟨hnumber, hstring⟩)⟩

/-! ## Numerals -/

theorem Lexes.numeral {c : Char} {lex tail : List Char} (h : Lexes c lex tail .number) :
    Shaped (c :: lex) := by
  have hunsigned {sign cs tail : List Char} (hsign : sign = [] ∨ sign = ['-'])
      (hfirst : cs.head?.any isDigit = true) (hcut : NumeralCut cs tail) :
      Shaped (sign ++ cs) := by
    cases hcut with
    | whole all stop point =>
      refine .integer hsign ?_ all
      rintro rfl
      cases hfirst
    | @fraction digits places _ all some allPlaces stop =>
      rw [← append_assoc]
      refine .decimal hsign ?_ all some allPlaces
      rintro rfl
      have hpoint : ('.' :: places).head?.any isDigit = false := by
        simp [show isDigit '.' = false by decide]
      rw [nil_append, hpoint] at hfirst
      cases hfirst
  rcases h.of_kind with ⟨digit, length⟩ | ⟨rfl, digit, length⟩
  · exact hunsigned (.inl rfl) (by simpa using digit) (numeralCut_of_length length)
  · obtain ⟨d, more, rfl, hd, -⟩ := numeral_of_negative digit length
    exact hunsigned (.inr rfl) (by simpa using hd) (numeralCut_of_length length)

def Numerals (tokens : List Token) : Prop :=
  ∀ token ∈ tokens, token.kind = .number → Shaped token.text.toList

theorem Numerals.append {tokens others : List Token} (h : Numerals tokens)
    (hmore : Numerals others) :
    Numerals (tokens ++ others) :=
  forall_mem_append.mpr ⟨h, hmore⟩

theorem Numerals.cons {token : Token} {tokens : List Token} (hkind : token.kind ≠ .number)
    (h : Numerals tokens) : Numerals (token :: tokens) :=
  forall_mem_cons.mpr ⟨fun heq => absurd heq hkind, h⟩

theorem numerals_nil : Numerals [] := by
  simp [Numerals]

theorem Scans.numerals {depth : Option Nat} {p : Position} {cs : List Char} {n : Nat}
    (h : Scans depth p cs tokens n) : Numerals tokens := by
  induction h with
  | nil => exact numerals_nil
  | gap hgap rest ih => exact ih
  | close => exact numerals_nil
  | comment => exact .cons (by simp [Token.comment, covering]) numerals_nil
  | @lexeme depth p c lex tail kind tokens n hgap hlexes hclose hdashes rest ih =>
    refine forall_mem_cons.mpr ⟨fun hkind => ?_, ih⟩
    obtain rfl : kind = .number := hkind
    simpa [covering, lexemeText] using hlexes.numeral

theorem numerals_scanExpression (depth : Option Nat) (p : Position) (cs : List Char) :
    Numerals (scanExpression depth p cs).1 :=
  (scans_scanExpression depth p cs).numerals

theorem legible_ofExpression {text : String} (h : Safe text.toList) (origin : Position) :
    ∀ token ∈ ofExpression text origin, token.Legible := by
  intro token htoken
  by_cases hkind : token.kind = .number ∨ token.kind = .string
  · obtain ⟨p, content, hcontent, hmem⟩ := exists_line_of_mem_ofExpression htoken hkind
    have hwithin := (row_scanExpression p content).text_within hmem hkind
    exact ⟨numerals_scanExpression _ _ _ token hmem, fun _ => h.part (hwithin.trans hcontent)⟩
  · exact .other (mt .inl hkind) (mt .inr hkind)

/-- What is scanned out of a literal that can be read can be read. -/
theorem Legible.embedded (h : token.Legible) (hkind : token.kind = .string) {place : Nat}
    {content : List Char}
    (hpiece : Expr.Piece.braced place content ∈ Expr.pieces 0 (Expr.unquoted token.text)) :
    ∀ inner ∈ Expr.embedded token place content, inner.Legible := by
  have hunquoted : Expr.unquoted token.text <:+: token.text.toList :=
    ( dropLast_prefix _).isInfix.trans (tail_suffix _).isInfix
  obtain ⟨before, after, hcut, -⟩ := (Expr.outermost_pieces _ _).split hpiece
  have hcontent : content <:+: Expr.unquoted token.text :=
    ⟨before ++ ['{'], '}' :: after, by simp [hcut]⟩
  have hsafe := (h.safe (.inr hkind)).part (hcontent.trans hunquoted)
  intro inner hinner
  refine legible_ofExpression ?_ _ inner (dropLast_subset _ hinner)
  rwa [String.toList_ofList]

/-! ## Texts spelled anew -/

theorem Covers.split {cs : List Char} {i k : Nat} {tokens more : List Token}
    (h : Covers cs i k (tokens ++ more)) : ∃ j, Covers cs i j tokens ∧ Covers cs j k more := by
  generalize hall : tokens ++ more = all at h
  induction h generalizing tokens with
  | nil =>
    obtain ⟨rfl, rfl⟩ := append_eq_nil_iff.mp hall
    exact ⟨_, .nil, .nil⟩
  | blank get hblank rest ih =>
    obtain ⟨j, hfront, hback⟩ := ih hall
    exact ⟨j, .blank get hblank hfront, hback⟩
  | @token i j k token others laid rest ih =>
    cases tokens with
    | nil =>
      rw [nil_append] at hall
      exact ⟨i, .nil, hall ▸ .token laid rest⟩
    | cons first tokens =>
      obtain ⟨rfl, hrest⟩ := List.cons.inj hall
      obtain ⟨m, hfront, hback⟩ := ih hrest
      exact ⟨m, .token laid hfront, hback⟩

theorem Covers.start (h : Covers cs i k (token :: tokens)) :
    ∃ m : Nat, token.span.start.offset = m ∧ Covers cs m k (token :: tokens) := by
  generalize hall : token :: tokens = all at h
  induction h with
  | nil => cases hall
  | blank get hblank rest ih => exact ih hall
  | @token i j k first others laid rest ih =>
    obtain ⟨rfl, rfl⟩ := List.cons.inj hall
    exact ⟨i, laid.offset, .token laid rest⟩

end Token
end GuidedTrack
