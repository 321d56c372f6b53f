import GuidedTrack.Proofs.Layout.ContentLayout
import GuidedTrack.Proofs.Layout.LexemeSpacing
import GuidedTrack.Proofs.Token.InkRanks

/-! # Respaced code is read alike

The tokens of respaced code stand for those of the code, so every reading without faults carries
over. Layout respaces code in a few steps, and `TokensAlike` chains them.
-/

namespace GuidedTrack

open List

variable {c : Char} {ρ : Int → Int → Prop} {lex tail cs t : List Char} {p q : Position}

namespace Layout

open Text Token

def codeTokens (p : Position) (cs : List Char) : List Token :=
  (scanExpression none p cs).1.filter (·.kind ≠ .comment)

theorem codeTokens_lexeme {kind : Kind} (hgap : isGap c = false)
    (hdashes : c = '-' → (lex ++ tail).head? ≠ some '-') (hlexes : Lexes c lex tail kind)
    (p : Position) :
    codeTokens p (c :: (lex ++ tail)) =
      covering kind (lexemeText kind (c :: lex)) p (lex.length + 1) ::
        codeTokens (p.advance (lex.length + 1)) tail := by
  have hkind : kind ≠ .comment := by
    rintro rfl
    rcases hlexes.operator_or_verbatim with h | h <;> cases h
  rw [codeTokens, scanExpression_lexeme hgap hdashes hlexes, filter_cons_of_pos]
  · rfl
  · exact decide_eq_true hkind

theorem codeTokens_nil (p : Position) : codeTokens p [] = [] := by
  rw [codeTokens, scanExpression]
  rfl

theorem codeTokens_gap (h : isGap c = true) (p : Position) (cs : List Char) :
    codeTokens p (c :: cs) = codeTokens (p.advance 1) cs := by
  rw [codeTokens, scanExpression_gap h]
  rfl

theorem codeTokens_comment (p : Position) (cs : List Char) :
    codeTokens p ('-' :: '-' :: cs) = [] := by
  rw [codeTokens, scanExpression_comment]
  rfl

theorem ne_minus_of_error (h : Lexes c lex tail .error) : c ≠ '-' := by
  rintro rfl
  rcases h.of_kind with ⟨quote, -⟩ | ⟨-, first, -⟩
  · cases quote
  · exact absurd (by decide) first.symbol

/-- The tokens of respaced code stand for those of the code. -/
theorem Respaced.unfolds {operand : Bool} (h : Respaced operand cs t)
    (hranked : Ranked ρ p.offset cs q.offset t)
    (herror : ∀ token ∈ codeTokens p cs, token.kind ≠ .error) :
    Expr.Unfolds (Twin ρ) operand (codeTokens p cs) (codeTokens q t) := by
  induction h generalizing p q with
  | nil =>
    rw [codeTokens_nil, codeTokens_nil]
    exact .nil
  | @gap _ c cs t gap rest ih =>
    rw [codeTokens_gap gap] at herror ⊢
    refine ih ?_ herror
    have hbehind := hranked.drop_front [c] []
      (by simpa using isInk_of_isGap gap) (by simp)
    simpa [Position.advance] using hbehind
  | @newGap _ c cs t gap rest ih =>
    rw [codeTokens_gap gap]
    refine ih ?_ herror
    have hbehind := hranked.drop_front [] [c] (by simp)
      (by simpa using isInk_of_isGap gap)
    simpa [Position.advance] using hbehind
  | comment =>
    rw [codeTokens_comment, codeTokens_comment]
    exact .nil
  | error gap lexes =>
    rw [codeTokens_lexeme gap (fun hc => absurd hc (ne_minus_of_error lexes)) lexes] at herror
    exact absurd rfl (herror _ mem_cons_self)
  | @lexeme _ c lex tail t kind gap lexes lexes' dashes dashes' rest ih =>
    rw [codeTokens_lexeme gap dashes lexes] at herror ⊢
    rw [codeTokens_lexeme gap dashes' lexes']
    obtain ⟨hfront, hbehind⟩ := hranked.cut (c :: lex) (c :: lex) rfl
    exact .same (lexes.twin hfront.fits)
      (ih hbehind fun token htoken => herror token (mem_cons_of_mem _ htoken))
  | @split d lex tail t digit lexes lexes' rest ih =>
    have hordinary := ordinary_of_isIdentifierChar (isIdentifierChar_of_isDigit digit)
    have hminus : codeTokens q ('-' :: ([] ++ ' ' :: d :: (lex ++ t))) =
        covering .operator (lexemeText .operator ['-']) q 1 ::
          codeTokens (q.advance 1) (' ' :: d :: (lex ++ t)) :=
      codeTokens_lexeme (by decide) (by simp)
        (.symbol (by decide) (fun _ => by simp [show isDigit ' ' = false by decide]) (by simp)) q
    have hdigit : '-' = '-' → (d :: lex ++ tail).head? ≠ some '-' :=
      fun _ => by simpa using hordinary.ne_minus
    obtain ⟨-, hbehind⟩ := hranked.cut ('-' :: d :: lex) ('-' :: ' ' :: d :: lex) (by
      simp [countP_cons, show isInk ' ' = false by decide])
    rw [codeTokens_lexeme (by decide) hdigit lexes] at herror ⊢
    rw [nil_append] at hminus
    rw [hminus, codeTokens_gap (by decide), codeTokens_lexeme hordinary.gap
      (fun hc => absurd hc hordinary.ne_minus) lexes']
    refine .split ⟨rfl, ?_⟩ ⟨rfl, ?_⟩ rfl rfl
      (ih ?_ fun token htoken => herror token (mem_cons_of_mem _ htoken))
    · simp [covering, lexemeText]
    · exact (by decide : lexemeText .operator ['-'] = BinaryOp.subtract.symbol)
    · simpa [Position.advance, Int.add_assoc, Int.add_comm, Int.add_left_comm] using hbehind

/-! ## What is read from code -/

/-- Where `cs` is code without errors, the tokens of `t` stand for its tokens, and names of the same
rank for each other. -/
def TokensAlike (cs t : List Char) : Prop :=
  ∀ (ρ : Int → Int → Prop) (p q : Position), Ranked ρ p.offset cs q.offset t →
    (∀ token ∈ codeTokens p cs, token.kind ≠ .error) →
      Expr.Unfolds (Twin ρ) true (codeTokens p cs) (codeTokens q t)

theorem Respaced.tokensAlike (h : Respaced true cs t) : TokensAlike cs t :=
  fun _ _ _ => h.unfolds

theorem TokensAlike.trans {u : List Char} (h : TokensAlike cs t) (h' : TokensAlike t u) :
    TokensAlike cs u := by
  intro ρ p q hranked herror
  have hfirst := h _ p .origin ranked_sameRank herror
  have hsecond := h' _ .origin q ranked_sameRank (hfirst.ne_error (fun htwin => htwin.kind) herror)
  refine hfirst.trans hsecond (fun htwin => htwin.shape) (fun htwin => htwin.shape) ?_
  intro a b c hab hbc
  refine ⟨hbc.shape.trans hab.shape, fun hkind => ?_, fun hkind k d hd hink => ?_⟩
  · exact hranked.through (hab.name hkind) (hbc.name (hab.kind.trans hkind))
  · exact hranked.through (hab.literal hkind k d hd hink)
      (hbc.literal (hab.kind.trans hkind) k d (hab.text ▸ hd) hink)

/-- Whatever is read from `cs` without faults is read from `t` too, with names of the same rank. -/
theorem TokensAlike.reads (h : TokensAlike cs t) {assignment : Bool} {anchor : Position}
    {value? : Option Expr}
    (hvalue : Expr.ofTokens assignment anchor (scanExpression none p cs).1 = .ok (value?, []))
    (hranked : Ranked ρ p.offset cs q.offset t) (anchor' : Position) :
    ∃ value other, value? = some value ∧
      Expr.ofTokens assignment anchor' (scanExpression none q t).1 = .ok (some other, []) ∧
      value.Like (Offsets ρ) other := by
  refine Expr.ofTokens_carried hvalue (fun herror => ?_) anchor'
  exact h ρ p q hranked fun token htoken => herror token (mem_of_mem_filter htoken)

theorem tokensAlike_code (style : Style) (operators : Bool) (h : Trimmed cs) :
    TokensAlike cs (code style operators cs) :=
  (respaced_code style operators h).tokensAlike

theorem tokensAlike_code_collapse (style : Style) (h : Trimmed cs) :
    TokensAlike cs (code style false (collapse cs)) := by
  have hcollapse : TokensAlike cs (collapse cs) := by
    rw [collapse_eq_collapseRuns h]
    exact (respaced_collapseRuns true cs).tokensAlike
  exact hcollapse.trans (tokensAlike_code style false (collapse_trimmed h))

/-- Code behind its head, with the gaps that may stay at the end of the line. -/
theorem tokensAlike_afterSpace {f : List Char → List Char}
    (hf : ∀ {cs : List Char}, Trimmed cs → TokensAlike cs (f cs)) {rest trailing kept : List Char}
    (h : Trimmed rest) (htrailing : Gaps trailing)
    (hkept : Gaps kept) :
    TokensAlike (rest ++ trailing) (afterSpace f rest ++ kept) := by
  have hnone : Gaps ([] : List Char) := by simp
  have hlead : Gaps (rest.takeWhile isGap) := fun d hd => mem_takeWhile_imp hd
  -- the gaps around the code go first, and those that are wanted are put back at the end
  have hbare : Respaced true (rest ++ trailing) (rest.dropWhile isGap) := by
    have hend := respaced_trailing htrailing hnone true (rest.dropWhile isGap)
    have hfront := hend.gaps hlead hnone
    rwa [← append_assoc, takeWhile_append_dropWhile, append_nil] at hfront
  have hback (cs : List Char) : Respaced true cs (cs ++ kept) := by
    have hend := respaced_trailing hnone hkept true cs
    rwa [append_nil] at hend
  simp only [afterSpace]
  split
  · rename_i hempty
    rw [List.isEmpty_iff.mp hempty] at hbare
    exact hbare.tokensAlike.trans (hback []).tokensAlike
  · have hspaced : Respaced true (f (rest.dropWhile isGap))
        (' ' :: (f (rest.dropWhile isGap) ++ kept)) :=
      .newGap (by decide) (hback _)
    exact (hbare.tokensAlike.trans (hf h.dropWhile)).trans hspaced.tokensAlike

end Layout
end GuidedTrack
