import GuidedTrack.Proofs.Expr.LiteralContents
import GuidedTrack.Proofs.Expr.UnfoldedSubtraction

/-! # Readings at other places

Tokens of the same kinds and texts are read alike wherever they stand. Literals need an argument:
what they embed is scanned at a place of its own, and read with a bound on nesting that depends on
the tokens around it.
-/

namespace GuidedTrack

open List

variable {operand assignment : Bool} {c : Char} {cs : List Char} {ts us : List Token}
  {anchor : Position} {token token' : Token} {R : Token → Token → Prop} {value : Expr}
  {lex : List Char} {tokens : List Token} {value? : Option Expr} {Q : Token → Token → Prop}

namespace Token

def isInk (c : Char) : Bool :=
  Source.isInline c && !Text.isGap c

theorem isInk_of_pos {p : Char → Bool} (hbreak : p '\n' = false ∧ p '\r' = false)
    (hgap : p ' ' = false ∧ p '\t' = false) (h : p c = true) : isInk c = true := by
  have hblank : Text.isGap c = false := by
    cases hc : Text.isGap c with
    | false => rfl
    | true =>
      simp only [Text.isGap, Bool.or_eq_true, beq_iff_eq] at hc
      rcases hc with rfl | rfl
      · exact absurd h (by simp [hgap.1])
      · exact absurd h (by simp [hgap.2])
  rw [isInk, Source.isInline_of_pos hbreak.1 hbreak.2 h, hblank]
  rfl

/-- Wherever ink stands in a text, the offsets correspond when the text stands at `p` and at `q`. -/
def Fits (ρ : Int → Int → Prop) (p q : Int) (cs : List Char) : Prop :=
  ∀ (k : Nat) (c : Char), cs[k]? = some c → isInk c = true → ρ (p + k) (q + k)

/-- A token and the same token elsewhere, the names in it at corresponding offsets. -/
structure Twin (ρ : Int → Int → Prop) (t u : Token) : Prop where
  shape : u.shape = t.shape
  name : t.kind = .identifier → ρ t.span.start.offset u.span.start.offset
  literal : t.kind = .string → Fits ρ t.span.start.offset u.span.start.offset t.text.toList

section

variable {ρ : Int → Int → Prop} {p q : Int} {t u : Token}

theorem Twin.kind (h : Twin ρ t u) : u.kind = t.kind :=
  congrArg Prod.fst h.shape

theorem Twin.text (h : Twin ρ t u) : u.text = t.text :=
  congrArg Prod.snd h.shape

theorem Twin.other (h : u.shape = t.shape) (hname : t.kind ≠ .identifier)
    (hstring : t.kind ≠ .string) : Twin ρ t u :=
  ⟨h, fun hkind => absurd hkind hname, fun hkind => absurd hkind hstring⟩

theorem Fits.drop (h : Fits ρ p q cs) (n : Nat) : Fits ρ (p + n) (q + n) (cs.drop n) := by
  intro k c hc hink
  rw [getElem?_drop] at hc
  have hplace := h (n + k) c hc hink
  rwa [Int.natCast_add, ← Int.add_assoc, ← Int.add_assoc] at hplace

theorem Fits.front (front tail : List Char) (h : Fits ρ p q (front ++ tail)) : Fits ρ p q front :=
  fun k c hc => h k c (getElem?_append_left (List.getElem?_eq_some_iff.mp hc).1 ▸ hc)

theorem Fits.tail (front tail : List Char) (h : Fits ρ p q (front ++ tail)) :
    Fits ρ (p + front.length) (q + front.length) tail := by
  have hdrop := h.drop front.length
  rwa [drop_left] at hdrop

end

section

variable {ρ : Int → Int → Prop}

theorem Lexes.twin {tail : List Char} {kind : Kind} (hlexes : Lexes c lex tail kind)
    {p q : Position} (h : Fits ρ p.offset q.offset (c :: lex)) :
    Twin ρ (covering kind (lexemeText kind (c :: lex)) p (lex.length + 1))
      (covering kind (lexemeText kind (c :: lex)) q (lex.length + 1)) := by
  refine ⟨rfl, fun hkind => ?_, fun hkind => ?_⟩
  · obtain rfl : kind = .identifier := hkind
    have hink := isInk_of_pos (by decide) (by decide) hlexes.of_kind.1
    have hplace := h 0 c rfl hink
    rwa [Int.natCast_zero, Int.add_zero, Int.add_zero] at hplace
  · obtain rfl : kind = .string := hkind
    simpa [covering, lexemeText] using h

theorem twins_scanExpression (depth : Option Nat) (p q : Position)
    (h : Fits ρ p.offset q.offset cs) :
    Forall₂ (Twin ρ) (scanExpression depth p cs).1 (scanExpression depth q cs).1 := by
  induction hn : cs.length using Nat.strong_induction_on generalizing depth p q cs with
  | _ n ih =>
    cases cs with
    | nil =>
      rw [scanExpression, scanExpression]
      exact .nil
    | cons c rest =>
      rw [length_cons] at hn
      rw [scanExpression, scanExpression]
      split
      · exact ih rest.length (by omega) depth _ _ (h.tail [c] rest) rfl
      split
      · exact .nil
      split
      · exact .cons (.other rfl (by rintro ⟨⟩) (by rintro ⟨⟩)) .nil
      · obtain ⟨lex, tail, kind, rfl, hlexes⟩ := lexes_exists c rest
        simp only [hlexes.lexeme_eq, take_left, drop_left]
        have hfront : Fits ρ p.offset q.offset (c :: lex) := h.front (c :: lex) tail
        refine .cons (hlexes.twin hfront) ?_
        refine ih tail.length (by rw [length_append] at hn; omega) _ _ _ ?_ rfl
        exact h.tail (c :: lex) tail

theorem twins_ofExpression (text : String) (p q : Position)
    (h : Fits ρ p.offset q.offset text.toList) :
    Forall₂ (Twin ρ) (ofExpression text p) (ofExpression text q) := by
  unfold ofExpression
  generalize hlines : Source.lines text.toList = lines
  generalize text.toList = cs at h hlines
  induction lines generalizing p q cs with
  | nil => exact .cons (.other rfl (by rintro ⟨⟩) (by rintro ⟨⟩)) .nil
  | cons line rest ih =>
    obtain ⟨tail, hopens, hrest⟩ := Source.opens_of_lines hlines
    have hbreak : Forall₂ (Twin ρ) (lineBreak line p) (lineBreak line q) := by
      unfold lineBreak
      split
      · exact .nil
      · exact .cons (.other rfl (by rintro ⟨⟩) (by rintro ⟨⟩)) .nil
    have hafter (p : Position) :
        (line.after p).offset = p.offset + line.content.length + line.ending.length := by
      unfold Source.Line.after
      split
      · rename_i hempty
        simp [Position.advance, List.isEmpty_iff.mp hempty]
      · simp [Source.Line.length, Int.add_assoc]
    rw [hopens.text] at h
    rw [scanExpressionLines, scanExpressionLines]
    refine rel_append (rel_append (twins_scanExpression none p q (h.front _ _)) hbreak) ?_
    refine ih (line.after p) (line.after q) tail ?_ hrest
    rw [hafter, hafter]
    exact (h.tail _ _).tail _ _

end

end Token

namespace Expr

section

variable {ρ : Int → Int → Prop}

theorem twins_embedded (h : token.Twin ρ token') (hkind : token.kind = .string) {place : Nat}
    {content : List Char} (hpiece : Piece.braced place content ∈ pieces 0 (unquoted token.text)) :
    Forall₂ (Token.Twin ρ) (embedded token place content)
      (embedded token' place content) := by
  obtain ⟨before, after, hcut, hplace⟩ := (outermost_pieces _ _).split hpiece
  have hinside : ∃ more, token.text.toList.drop (place + 1) = content ++ more := by
    obtain ⟨last, hlast⟩ := dropLast_prefix token.text.toList.tail
    change unquoted token.text ++ last = _ at hlast
    refine ⟨'}' :: after ++ last, ?_⟩
    rw [hplace, Nat.zero_add, ← drop_tail, ← hlast, hcut, append_assoc, ← drop_drop,
      drop_left]
    simp
  obtain ⟨more, hmore⟩ := hinside
  unfold embedded
  have htwins : Forall₂ (Token.Twin ρ)
      (Token.ofExpression (String.ofList content) (token.span.start.advance (place + 1)))
      (Token.ofExpression (String.ofList content) (token'.span.start.advance (place + 1))) := by
    refine Token.twins_ofExpression _ _ _ ?_
    have hfits := (h.literal hkind).drop (place + 1)
    rw [hmore] at hfits
    rw [String.toList_ofList]
    exact hfits.front _ _
  rw [dropLast_eq_take, dropLast_eq_take, htwins.length_eq]
  exact forall₂_take _ htwins

theorem twins_code (h : Forall₂ (Token.Twin ρ) ts us) :
    Forall₂ (Token.Twin ρ) (ts.filter (·.kind ≠ .comment))
      (us.filter (·.kind ≠ .comment)) := by
  induction h with
  | nil => exact .nil
  | cons twin rest ih =>
    rw [filter_cons, filter_cons, twin.kind]
    split
    · exact .cons twin ih
    · exact ih

theorem unfolds_of_forall₂ (h : Forall₂ R ts us) : Unfolds R operand ts us := by
  induction h generalizing operand with
  | nil => exact .nil
  | cons alike rest ih => exact .same alike ih

theorem Unfolds.imp (h : Unfolds R operand ts us) (himp : ∀ t ∈ ts, ∀ u ∈ us, R t u → Q t u) :
    Unfolds Q operand ts us := by
  induction h with
  | nil => exact .nil
  | same alike rest ih =>
    exact .same (himp _ mem_cons_self _ mem_cons_self alike) (ih fun t ht u hu =>
      himp t (mem_cons_of_mem _ ht) u (mem_cons_of_mem _ hu))
  | split negates spells kind text rest ih =>
    exact .split negates spells kind text (ih fun t ht u hu => himp t (mem_cons_of_mem _ ht) u
      (mem_cons_of_mem _ (mem_cons_of_mem _ hu)))

theorem Unfolds.ne_error (h : Unfolds R operand ts us) (hR : ∀ {t u}, R t u → u.kind = t.kind)
    (hts : ∀ t ∈ ts, t.kind ≠ .error) : ∀ u ∈ us, u.kind ≠ .error := by
  induction h with
  | nil => exact hts
  | same alike rest ih =>
    obtain ⟨ht, hts⟩ := forall_mem_cons.mp hts
    exact forall_mem_cons.mpr ⟨hR alike ▸ ht, ih hts⟩
  | split negates spells kind text rest ih =>
    refine forall_mem_cons.mpr ⟨?_, forall_mem_cons.mpr ⟨?_, ih fun t ht =>
      hts t (mem_cons_of_mem _ ht)⟩⟩
    · rw [spells.1]
      decide
    · rw [kind]
      decide

/-- A numeral that was unfolded once is not unfolded again: an operand is due behind its minus. -/
theorem Unfolds.trans {T : Token → Token → Prop} {vs : List Token} (h : Unfolds R operand ts us)
    (h' : Unfolds Q operand us vs) (hR : ∀ {t u}, R t u → u.shape = t.shape)
    (hQ : ∀ {t u}, Q t u → u.shape = t.shape) (hT : ∀ {t u v}, R t u → Q u v → T t v) :
    Unfolds T operand ts vs := by
  induction h generalizing vs with
  | nil =>
    cases h'
    exact .nil
  | same alike rest ih =>
    obtain ⟨hkind, htext⟩ := Prod.mk.inj (hR alike)
    cases h' with
    | same alike' rest' =>
      rw [hkind] at rest'
      exact .same (hT alike alike') (ih rest')
    | split negates spells kind text rest' =>
      have hnegates := negates
      rw [Negates, hkind, htext] at hnegates
      rw [hnegates.1] at rest ih
      exact .split hnegates spells kind text (ih rest')
  | split negates spells kind text rest ih =>
    cases h' with
    | split negates' => exact absurd (spells.1.symm.trans negates'.1) (by decide)
    | same alike rest' =>
      obtain ⟨hminus, hsign⟩ := Prod.mk.inj (hQ alike)
      rw [spells.1] at rest'
      cases rest' with
      | same alike' rest' =>
        obtain ⟨hnumber, hdigits⟩ := Prod.mk.inj (hQ alike')
        rw [kind] at rest'
        exact .split negates ⟨hminus.trans spells.1, hsign.trans spells.2⟩
          (hnumber.trans kind) (hdigits.trans text) (ih rest')

section

variable {strings strings' : StringReader} {assignment : Bool} {anchor : Position}
  {tokens others : List Token}

theorem ofTokensWith_carried (h : ofTokensWith strings assignment anchor tokens = .ok (value?, []))
    (hothers : Unfolds (Alike ρ (Clean strings) (Clean strings')) true
      (tokens.filter (·.kind ≠ .comment)) (others.filter (·.kind ≠ .comment)))
    (anchor' : Position) :
    ∃ value other, value? = some value ∧
      ofTokensWith strings' assignment anchor' others = .ok (some other, []) ∧
      value.Like (Offsets ρ) other := by
  obtain ⟨value, rfl, hwhole⟩ := whole_of_clean h
  obtain ⟨other, hother, hlike⟩ := hwhole.carried hothers
  refine ⟨value, other, rfl, ofTokensWith_of_takes ?_ hother, hlike⟩
  intro hnil
  rw [hnil] at hothers
  have hne := hwhole.ne_nil
  generalize tokens.filter (·.kind ≠ .comment) = ts at hothers hne
  cases hothers
  exact hne rfl

end

theorem exists_of_bind_eq_ok {ε α β : Type} {x : Except ε α} {f : α → Except ε β} {b : β}
    (h : (x >>= f) = .ok b) : ∃ a, x = .ok a ∧ f a = .ok b := by
  cases x with
  | error e => cases h
  | ok a => exact ⟨a, rfl, h⟩

def KeepsInner (ρ : Int → Int → Prop) (strings strings' : StringReader) (token token' : Token)
    (pieces : List Piece) : Prop :=
  ∀ place content, Piece.braced place content ∈ pieces →
    Unfolds (Alike ρ (Clean strings) (Clean strings')) true
      ((embedded token place content).filter (·.kind ≠ .comment))
      ((embedded token' place content).filter (·.kind ≠ .comment))

theorem readPieces_moved {strings strings' : StringReader} {pieces : List Piece} {parts : List Part}
    (hpieces : KeepsInner ρ strings strings' token token' pieces)
    (h : readPieces strings token pieces = .ok (parts, [])) :
    ∃ others, readPieces strings' token' pieces = .ok (others, []) ∧
      Part.LikeList (Offsets ρ) parts others := by
  induction pieces generalizing parts with
  | nil =>
    cases h
    exact ⟨[], rfl, .nil⟩
  | cons piece pieces ih =>
    have hmore : KeepsInner ρ strings strings' token token' pieces :=
      fun place content hmem => hpieces place content (mem_cons_of_mem piece hmem)
    cases piece with
    | text content =>
      rw [readPieces] at h
      obtain ⟨⟨rest, faults⟩, hrest, hresult⟩ := exists_of_bind_eq_ok h
      cases hresult
      obtain ⟨others, hothers, hlike⟩ := ih hmore hrest
      refine ⟨.text (String.ofList content) :: others, ?_, .text hlike⟩
      rw [readPieces, hothers]
      rfl
    | braced place content =>
      rw [readPieces] at h
      obtain ⟨⟨value?, faults⟩, hread, h⟩ := exists_of_bind_eq_ok h
      obtain ⟨⟨rest, more⟩, hrest, hresult⟩ := exists_of_bind_eq_ok h
      obtain ⟨hparts, hfaults⟩ := Prod.mk.inj (Except.ok.inj hresult)
      obtain ⟨rfl, rfl⟩ := append_eq_nil_iff.mp hfaults
      subst hparts
      obtain ⟨others, hothers, hlike⟩ := ih hmore hrest
      obtain ⟨value, other, rfl, hother, hsame⟩ := ofTokensWith_carried hread
        (hpieces place content mem_cons_self) token'.span.start
      refine ⟨.expr other :: others, ?_, .expr hsame hlike⟩
      rw [readPieces, hothers]
      change (ofTokensWith strings' false token'.span.start (embedded token' place content) >>=
        _) = _
      rw [hother]
      rfl

theorem readString_plain {token : Token} (h : '{' ∉ unquoted token.text) (depth : Nat) :
    readString depth token =
      .ok (.literal token.span (.text (String.ofList (unquoted token.text))) token.text, []) := by
  cases depth with
  | zero => rfl
  | succ depth =>
    rw [readString, if_neg fun hcontains => h (contains_iff_mem.mp hcontains)]

theorem length_pos_of_brace {text : String} (h : '{' ∈ unquoted text) : 0 < text.length := by
  have hpos := length_pos_of_mem h
  simp only [unquoted, length_dropLast, length_tail, String.length_toList] at hpos
  omega

/-- A literal is read alike at any place, and with any depth that allows for its length. -/
theorem readString_moved {depth depth' : Nat} (htwin : token.Twin ρ token')
    (hkind : token.kind = .string) (hdepth : token.text.length ≤ depth)
    (hdepth' : token.text.length ≤ depth') (h : readString depth token = .ok (value, [])) :
    ∃ other, readString depth' token' = .ok (other, []) ∧ value.Like (Offsets ρ) other := by
  induction depth generalizing depth' token token' value with
  | zero =>
    have hplain : '{' ∉ unquoted token.text := fun hbrace => by
      have := length_pos_of_brace hbrace
      omega
    cases h
    refine ⟨_, readString_plain (htwin.text ▸ hplain) depth', ?_⟩
    rw [htwin.text]
    exact .literal
  | succ depth ih =>
    by_cases hbrace : '{' ∈ unquoted token.text
    · have hpos := length_pos_of_brace hbrace
      obtain ⟨depth', rfl⟩ : ∃ less, depth' = less + 1 := ⟨depth' - 1, by omega⟩
      rw [readString, if_pos (contains_iff_mem.mpr hbrace)] at h
      obtain ⟨⟨parts, faults⟩, hparts, hresult⟩ := exists_of_bind_eq_ok h
      cases hresult
      have hinner : KeepsInner ρ (readString depth) (readString depth') token token'
          (pieces 0 (unquoted token.text)) := by
        intro place content hpiece
        refine (unfolds_of_forall₂ (twins_code (twins_embedded htwin hkind hpiece))).imp ?_
        intro inner hmem inner' _ hinner
        refine ⟨hinner.kind, hinner.text, hinner.name, fun hstring value hvalue => ?_⟩
        have hlt := text_lt_of_mem_embedded hpiece (mem_filter.mp hmem).1 hstring
        simp only [clean_iff] at hvalue ⊢
        exact ih hinner hstring (by omega) (by omega) hvalue
      obtain ⟨others, hothers, hlike⟩ := readPieces_moved hinner hparts
      refine ⟨.interpolated token'.span others, ?_, .interpolated hlike⟩
      rw [readString, htwin.text, if_pos (contains_iff_mem.mpr hbrace), hothers]
      rfl
    · rw [readString_plain hbrace] at h
      cases h
      refine ⟨_, readString_plain (htwin.text ▸ hbrace) depth', ?_⟩
      rw [htwin.text]
      exact .literal

theorem ofTokens_nil_ne : ofTokens assignment anchor [] ≠ .ok (some value, []) := by
  simp [ofTokens, ofTokensWith]

theorem ne_error_of_clean (h : ofTokens assignment anchor tokens = .ok (value?, [])) :
    ∀ t ∈ tokens, t.kind ≠ .error := by
  obtain ⟨value, -, hwhole⟩ := whole_of_clean h
  intro t ht hkind
  exact hwhole.ne_error t (mem_filter.mpr ⟨ht, by simp [hkind]⟩) hkind

/-- What is read without faults from some tokens is read without faults from tokens that stand for
them, and is alike. -/
theorem ofTokens_carried {others : List Token}
    (h : ofTokens assignment anchor tokens = .ok (value?, []))
    (hothers : (∀ t ∈ tokens, t.kind ≠ .error) → Unfolds (Token.Twin ρ) true
      (tokens.filter (·.kind ≠ .comment)) (others.filter (·.kind ≠ .comment)))
    (anchor' : Position) :
    ∃ value other, value? = some value ∧
      ofTokens assignment anchor' others = .ok (some other, []) ∧ value.Like (Offsets ρ) other := by
  refine ofTokensWith_carried h ((hothers (ne_error_of_clean h)).imp
    fun t ht u hu htwin => ?_) anchor'
  refine ⟨htwin.kind, htwin.text, htwin.name, fun hstring value hvalue => ?_⟩
  simp only [clean_iff] at hvalue ⊢
  exact readString_moved htwin hstring (text_le_depth (mem_filter.mp ht).1)
    (htwin.text ▸ text_le_depth (mem_filter.mp hu).1) hvalue

end

end Expr
end GuidedTrack
