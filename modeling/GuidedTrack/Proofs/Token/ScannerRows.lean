import GuidedTrack.Proofs.Token.LexemeText
import GuidedTrack.Proofs.Token.TokenRows

/-! # What the scanners read

Every scanner lays a row of tokens over what it reads: first one lexeme, then an expression, prose,
a directive with its argument, and last the whole content of a line.
-/

namespace GuidedTrack.Token

open Text List Position Nat Vocabulary

variable {c : Char} {kind : Kind} {lex tail cs : List Char} {tokens : List Token} {n : Nat}
  {depth : Option Nat} {p : Position} {token : Token}

/-! ## Expressions -/

theorem Lexes.operator_or_verbatim (h : Lexes c lex tail kind) :
    kind = .operator ∨ kind.isVerbatim = true := by
  have hkind := h.isLexeme
  cases kind <;> simp_all [Kind.isLexeme, Kind.isVerbatim]

/-- An operator's text is a word of the vocabulary, or what stands in the source. -/
theorem Lexes.operator_text (h : Lexes c lex tail kind) (hkind : kind = .operator) :
    lower (String.ofList (c :: lex)) ∈ wordOperators ∨
      lower (String.ofList (c :: lex)) = String.ofList (c :: lex) := by
  subst hkind
  rcases h.of_kind with hword | ⟨rfl, hangle⟩ | ⟨rfl, hmem⟩
  · exact .inl (by simpa [isWordOperator] using hword)
  · rcases hangle with rfl | rfl <;> exact .inr (by decide)
  · simp only [symbolOperators, mem_cons, not_mem_nil, or_false] at hmem
    rcases hmem with rfl | rfl | rfl | rfl | rfl | rfl | rfl | rfl <;> exact .inr (by decide)

theorem Lexes.row (h : Lexes c lex tail kind) (p : Position) :
    Row p (c :: lex) [covering kind (lexemeText kind (c :: lex)) p (lex.length + 1)] := by
  rcases h.operator_or_verbatim with rfl | hverbatim
  · refine .single rfl ?_ (cons_ne_nil c lex) (by simp [covering])
    simp only [Spells, covering, lexemeText, beq_self_eq_true, if_true]
    split
    · trivial
    · rename_i hword
      rw [(h.operator_text rfl).resolve_left hword, String.toList_ofList]
  · have hrow : Row p (c :: lex) [spelled kind p (c :: lex)] :=
      .spelled (cons_ne_nil c lex) hverbatim
    have hkind : kind ≠ .operator := by
      rintro rfl
      cases hverbatim
    simpa [spelled, lexemeText, hkind] using hrow

theorem row_comment (p : Position) (cs : List Char) :
    Row p ('-' :: '-' :: cs) [comment p ('-' :: '-' :: cs)] := by
  refine .single rfl ?_ (cons_ne_nil _ _) (by simp [comment, covering])
  simp [Spells, comment, covering]

theorem Scans.row (h : Scans depth p cs tokens n) : Row p (cs.take n) tokens := by
  induction h with
  | nil => exact .nil
  | @gap depth p c cs tokens n hgap rest ih =>
    have hblank : Row p [c] [] := Row.gaps (by simpa using hgap)
    exact hblank.append ih
  | close => exact .nil
  | @comment p cs => simpa using row_comment p cs
  | @lexeme depth p c lex tail kind tokens n hgap hlexes hclose hdashes rest ih =>
    have hrow := (hlexes.row p).append ih
    rwa [singleton_append, ← take_length_add_append, length_cons,
      cons_append, Nat.add_comm, ← Nat.add_assoc] at hrow

theorem Scans.le (h : Scans depth p cs tokens n) : n ≤ cs.length := by
  induction h with
  | nil => exact le_refl 0
  | gap hgap rest ih => exact succ_le_succ ih
  | close => exact zero_le _
  | comment => exact le_refl _
  | lexeme hgap hlexes hclose hdashes rest ih =>
    simp only [length_cons, length_append]
    omega

/-- Without a depth, a scan reads all there is; with one, it stops at a brace or at the end. -/
theorem Scans.stop {depth : Option Nat} {p : Position} {cs : List Char} {tokens : List Token}
    {n : Nat} (h : Scans depth p cs tokens n) :
    cs.drop n = [] ∨ depth.isSome ∧ (cs.drop n).head? = some '}' := by
  induction h with
  | nil => exact .inl rfl
  | gap hgap rest ih => simpa using ih
  | close => exact .inr ⟨rfl, rfl⟩
  | comment => exact .inl (drop_length)
  | @lexeme depth p c lex tail kind tokens n hgap hlexes hclose hdashes rest ih =>
    have hdrop : (c :: (lex ++ tail)).drop (n + lex.length + 1) = tail.drop n := by
      rw [drop_succ_cons, Nat.add_comm, drop_length_add_append]
    simpa [hdrop] using ih

theorem row_scanExpression (p : Position) (cs : List Char) :
    Row p cs (scanExpression none p cs).1 := by
  have hscan := scans_scanExpression none p cs
  have hall := hscan.stop.resolve_right (by simp)
  have hrow := hscan.row
  rwa [take_of_length_le (drop_eq_nil_iff.mp hall)] at hrow

theorem scanExpression_gap (h : isGap c = true) (p : Position) (cs : List Char) :
    (scanExpression none p (c :: cs)).1 = (scanExpression none (p.advance 1) cs).1 := by
  rw [scanExpression, if_pos h]

theorem scanExpression_comment (p : Position) (cs : List Char) :
    (scanExpression none p ('-' :: '-' :: cs)).1 = [comment p ('-' :: '-' :: cs)] := by
  rw [scanExpression]
  rfl

theorem scanExpression_lexeme (hgap : isGap c = false)
    (hdashes : c = '-' → (lex ++ tail).head? ≠ some '-') (hlexes : Lexes c lex tail kind)
    (p : Position) :
    (scanExpression none p (c :: (lex ++ tail))).1 =
      covering kind (lexemeText kind (c :: lex)) p (lex.length + 1) ::
        (scanExpression none (p.advance (lex.length + 1)) tail).1 := by
  have hcomment : (c == '-' && (lex ++ tail).head? == some '-' && (none : Option Nat).isNone) =
      false := by grind
  rw [scanExpression, hcomment]
  simp [hgap, hlexes.lexeme_eq]

theorem scanExpression_dropWhile (p : Position) (cs : List Char) :
    (scanExpression none (p.advance (cs.takeWhile isGap).length) (cs.dropWhile isGap)).1 =
      (scanExpression none p cs).1 := by
  induction cs generalizing p with
  | nil => simp [scanExpression]
  | cons c cs ih =>
    cases hgap : isGap c with
    | true =>
      have hrest := ih (p.advance 1)
      rw [advance_advance, Nat.add_comm] at hrest
      rw [scanExpression_gap hgap, takeWhile_cons_of_pos hgap,
        dropWhile_cons_of_pos hgap, length_cons, hrest]
    | false => simp [hgap]

theorem scanExpression_eq_nil_iff :
    (scanExpression none p cs).1 = [] ↔ Gaps cs := by
  induction cs using lexemes_induction generalizing p with
  | nil => simp [scanExpression]
  | gap c cs hgap ih => simp [scanExpression_gap hgap, hgap, ih]
  | comment cs => simp [scanExpression_comment, show isGap '-' = false by decide]
  | lexeme c lex tail kind hgap hdashes hlexes ih =>
    simp [scanExpression_lexeme hgap hdashes hlexes, hgap]

theorem Scans.comment_or_isLexeme (h : Scans depth p cs tokens n) (htoken : token ∈ tokens) :
    token.kind = .comment ∨ token.kind.isLexeme = true := by
  induction h with
  | nil => cases htoken
  | gap hgap rest ih => exact ih htoken
  | close => cases htoken
  | comment =>
    rw [mem_singleton.mp htoken]
    exact .inl rfl
  | lexeme hgap hlexes hclose hdashes rest ih =>
    rcases mem_cons.mp htoken with rfl | htoken
    · exact .inr hlexes.isLexeme
    · exact ih htoken

theorem isStructural_of_isLexeme (h : kind = .comment ∨ kind.isLexeme = true) :
    kind.isStructural = false ∧ kind.isProse = false := by
  rcases h with rfl | h
  · exact ⟨rfl, rfl⟩
  · cases kind <;> simp_all [Kind.isLexeme, Kind.isStructural, Kind.isProse]

theorem isStructural_of_mem_scanExpression (h : token ∈ (scanExpression none p cs).1) :
    token.kind.isStructural = false ∧ token.kind.isProse = false :=
  isStructural_of_isLexeme ((scans_scanExpression none p cs).comment_or_isLexeme h)

theorem Spells.eq_text {piece : List Char} (h : token.Spells piece)
    (hkind : token.kind = .number ∨ token.kind = .string) : piece = token.text.toList := by
  rcases hkind with hkind | hkind <;> simpa [Spells, hkind] using h

theorem Row.text_within (h : Row p cs tokens)
    (htoken : token ∈ tokens) (hkind : token.kind = .number ∨ token.kind = .string) :
    token.text.toList <:+: cs := by
  induction h with
  | nil => cases htoken
  | blank hblank rest ih => exact (ih htoken).trans (suffix_cons _ _).isInfix
  | @token p other piece cs tokens span spells filled kind rest ih =>
    rcases mem_cons.mp htoken with rfl | htoken
    · rw [← spells.eq_text hkind]
      exact (prefix_append piece cs).isInfix
    · exact (ih htoken).trans (suffix_append piece cs).isInfix
  | @mark p kind cs tokens empty rest ih =>
    rcases mem_cons.mp htoken with rfl | htoken
    · rcases empty with rfl | rfl <;> rcases hkind with hkind | hkind <;> cases hkind
    · exact ih htoken

/-! ## Prose -/

theorem row_prose (p : Position) (cs : List Char) : Row p cs (prose p cs) := by
  unfold prose
  split
  · rename_i hblank
    exact .blanks (by simpa [allBlank] using hblank)
  · rename_i hblank
    refine .spelled ?_ (by decide)
    rintro rfl
    exact hblank rfl

theorem row_brace (hkind : kind = .interpolationStart ∨ kind = .interpolationEnd) (c : Char)
    (p : Position) : Row p [c] [covering kind (String.ofList [c]) p 1] := by
  refine .spelled (cons_ne_nil c []) ?_
  rcases hkind with rfl | rfl <;> decide

theorem plainLength_le (emphasis : Bool) (cs : List Char) :
    plainLength emphasis cs ≤ cs.length := by
  induction cs with
  | nil => exact le_refl 0
  | cons c rest ih =>
    rw [plainLength]
    split
    · exact zero_le _
    · exact succ_le_succ ih

theorem emphasisLength?_pos {marker : Char} {cs : List Char} {n : Nat}
    (h : emphasisLength? marker cs = some n) : 0 < n := by
  cases cs with
  | nil => cases h
  | cons c cs =>
    rw [emphasisLength?] at h
    split at h
    · cases h
    · obtain ⟨i, -, rfl⟩ := Option.map_eq_some_iff.mp h
      exact succ_pos _

theorem emphasisLength?_le (marker : Char) (cs : List Char) :
    (emphasisLength? marker cs).getD 0 ≤ cs.length := by
  cases cs with
  | nil => exact le_refl 0
  | cons c rest =>
    rw [emphasisLength?]
    split
    · exact zero_le _
    cases h : rest.findIdx? (· == marker) with
    | none => exact zero_le _
    | some i =>
      have hi := (findIdx?_eq_some_iff_getElem.mp h).choose
      exact succ_le_succ hi

theorem scanText_nil (emphasis : Bool) (p : Position) : scanText emphasis p [] = [] := by
  rw [scanText]
  rfl

def scanHole (emphasis : Bool) (depth : Nat) (p : Position) (cs : List Char) : List Token :=
  let (tokens, n) := scanExpression (some depth) p cs
  tokens ++
    match cs.drop n with
    | [] => []
    | _ :: more =>
      covering .interpolationEnd "\x7d" (p.advance n) 1 ::
        scanText emphasis (p.advance (n + 1)) more

theorem scanText_plain {emphasis : Bool} {cs : List Char} (h : plainLength emphasis cs = cs.length)
    (p : Position) : scanText emphasis p cs = prose p cs := by
  rw [scanText, h, take_length]
  split
  · exact append_nil _
  · rename_i hcons
    rw [drop_length] at hcons
    cases hcons

theorem scanText_hole {emphasis : Bool} {chunk cs : List Char}
    (h : plainLength emphasis (chunk ++ '{' :: cs) = chunk.length) (p : Position) :
    scanText emphasis p (chunk ++ '{' :: cs) =
      prose p chunk ++ covering .interpolationStart "\x7b" (p.advance chunk.length) 1 ::
        scanHole emphasis 0 (p.advance (chunk.length + 1)) cs := by
  rw [scanText, h, take_left]
  split
  · rename_i hnil
    rw [drop_left] at hnil
    cases hnil
  · rename_i c rest hcons
    rw [drop_left] at hcons
    obtain ⟨rfl, rfl⟩ := List.cons.inj hcons
    dsimp only
    rw [if_pos (beq_self_eq_true '{')]
    simp only [scanHole, advance_advance, cons_append]
    refine congrArg (fun tokens => prose p chunk ++ _ :: (_ ++ tokens)) ?_
    split
    · rename_i hnil
      rw [advance_advance] at hnil
      rw [hnil]
    · rename_i hmore
      rw [advance_advance] at hmore
      rw [hmore]
      simp only [Nat.add_assoc, Nat.add_comm 1]

theorem scanText_emphasis {emphasis : Bool} {chunk piece cs : List Char} {c : Char}
    (h : plainLength emphasis (chunk ++ c :: (piece ++ cs)) = chunk.length) (hc : c ≠ '{')
    (hpiece : emphasisLength? c (piece ++ cs) = some piece.length) (p : Position) :
    scanText emphasis p (chunk ++ c :: (piece ++ cs)) =
      prose p chunk ++ prose (p.advance chunk.length) (c :: piece) ++
        scanText emphasis (p.advance (chunk.length + (piece.length + 1))) cs := by
  rw [scanText, h, take_left]
  split
  · rename_i hnil
    rw [drop_left] at hnil
    cases hnil
  · rename_i d rest hcons
    rw [drop_left] at hcons
    obtain ⟨rfl, rfl⟩ := List.cons.inj hcons
    have hbrace : ¬(c == '{') = true := by simpa using hc
    dsimp only
    rw [if_neg hbrace, hpiece, Option.getD_some, take_left, drop_left,
      advance_advance, append_assoc]

theorem plainLength_stop {emphasis : Bool} {chunk cs : List Char} {c : Char}
    (h : plainLength emphasis (chunk ++ c :: cs) = chunk.length) :
    c = '{' ∨ opensEmphasis c cs = true := by
  induction chunk with
  | nil =>
    rw [nil_append, plainLength] at h
    split at h
    · rename_i hstop
      simp only [Bool.or_eq_true, Bool.and_eq_true, beq_iff_eq] at hstop
      exact hstop.imp_right And.right
    · cases h
  | cons d chunk ih =>
    rw [cons_append, plainLength] at h
    split at h
    · cases h
    · exact ih (by simpa using h)

theorem exists_span {emphasis : Bool} {chunk rest : List Char} {c : Char}
    (h : plainLength emphasis (chunk ++ c :: rest) = chunk.length) (hc : c ≠ '{') :
    (c = '*' ∨ c = '/') ∧ ∃ piece more, rest = piece ++ more ∧
      emphasisLength? c (piece ++ more) = some piece.length := by
  obtain ⟨hmarker, hspan⟩ := Bool.and_eq_true_iff.mp ((plainLength_stop h).resolve_left hc)
  obtain ⟨n, hn⟩ := Option.isSome_iff_exists.mp hspan
  have hle : n ≤ rest.length := by simpa [hn] using emphasisLength?_le c rest
  refine ⟨by simpa using hmarker, rest.take n, rest.drop n, (take_append_drop n rest).symm, ?_⟩
  rw [take_append_drop, length_take_of_le hle, hn]

/-- Prose is plain, or has a first interpolation or emphasised span. -/
theorem plainLength_cases (emphasis : Bool) (cs : List Char) :
    plainLength emphasis cs = cs.length ∨
      ∃ chunk c rest, cs = chunk ++ c :: rest ∧ plainLength emphasis cs = chunk.length := by
  cases hdrop : cs.drop (plainLength emphasis cs) with
  | nil =>
    have hle := plainLength_le emphasis cs
    have hge := drop_eq_nil_iff.mp hdrop
    exact .inl (by omega)
  | cons c rest =>
    refine .inr ⟨cs.take (plainLength emphasis cs), c, rest, ?_, ?_⟩
    · rw [← hdrop, take_append_drop]
    · rw [length_take_of_le (plainLength_le emphasis cs)]

/-- Induction over the interpolations and emphasised spans of prose. -/
theorem prose_induction {emphasis : Bool} {motive : List Char → Prop}
    (plain : ∀ cs, plainLength emphasis cs = cs.length → motive cs)
    (hole : ∀ chunk cs, plainLength emphasis (chunk ++ '{' :: cs) = chunk.length →
      (∀ more, more.length ≤ cs.length → motive more) → motive (chunk ++ '{' :: cs))
    (span : ∀ chunk c piece cs, plainLength emphasis (chunk ++ c :: (piece ++ cs)) = chunk.length →
      (c = '*' ∨ c = '/') → emphasisLength? c (piece ++ cs) = some piece.length → motive cs →
        motive (chunk ++ c :: (piece ++ cs))) (cs : List Char) : motive cs := by
  induction hn : cs.length using Nat.strong_induction_on generalizing cs with
  | _ n ih =>
    rcases plainLength_cases emphasis cs with hplain | ⟨chunk, c, rest, rfl, hplain⟩
    · exact plain cs hplain
    rw [length_append, length_cons] at hn
    by_cases hc : c = '{'
    · subst hc
      exact hole chunk rest hplain fun more hle => ih more.length (by omega) more rfl
    · obtain ⟨hmarker, piece, more, rfl, hpiece⟩ := exists_span hplain hc
      rw [length_append] at hn
      exact span chunk c piece more hplain hmarker hpiece (ih more.length (by omega) more rfl)

/-- What the scan of an interpolation comes to: the expression, and the end with the prose behind it
where the line has one. -/
theorem scanHole_cases (depth : Nat) (p : Position) (cs : List Char) :
    ∃ tokens n, Scans (some depth) p cs tokens n ∧
      (cs.drop n = [] ∧ (∀ emphasis, scanHole emphasis depth p cs = tokens) ∨
        ∃ more, cs.drop n = '}' :: more ∧ ∀ emphasis, scanHole emphasis depth p cs =
          tokens ++ covering .interpolationEnd "\x7d" (p.advance n) 1 ::
            scanText emphasis (p.advance (n + 1)) more) := by
  have hscan := scans_scanExpression (some depth) p cs
  refine ⟨_, _, hscan, ?_⟩
  unfold scanHole
  rcases hscan.stop with hnil | ⟨-, hbrace⟩
  · exact .inl ⟨hnil, by simp [hnil]⟩
  · obtain ⟨more, hmore⟩ := head?_eq_some_iff.mp hbrace
    exact .inr ⟨more, hmore, by simp [hmore]⟩

/-- What holds of the parts of prose, and of parts one behind the other, holds of prose. -/
theorem scanText_closed {R : Position → List Char → List Token → Prop}
    (append : ∀ {p as bs ts us}, R p as ts → R (p.advance as.length) bs us →
      R p (as ++ bs) (ts ++ us))
    (text : ∀ p cs, R p cs (prose p cs))
    (brace : ∀ {kind}, kind = .interpolationStart ∨ kind = .interpolationEnd →
      ∀ c p, R p [c] [covering kind (String.ofList [c]) p 1])
    (code : ∀ {p cs tokens n}, Scans (some 0) p cs tokens n → R p (cs.take n) tokens)
    (emphasis : Bool) (p : Position) (cs : List Char) : R p cs (scanText emphasis p cs) := by
  induction cs using @prose_induction emphasis generalizing p with
  | plain cs hplain =>
    rw [scanText_plain hplain]
    exact text p cs
  | hole chunk cs hplain ih =>
    rw [scanText_hole hplain, ← advance_advance]
    refine append (text p chunk) (@append _ ['{'] cs [_] (scanHole emphasis 0 _ cs)
      (brace (.inl rfl) '{' _) ?_)
    obtain ⟨tokens, n, hscan, ⟨hnil, hhole⟩ | ⟨more, hmore, hhole⟩⟩ :=
      scanHole_cases 0 ((p.advance chunk.length).advance 1) cs
    all_goals
      have hcode := code hscan
      rw [hhole]
    · rwa [take_of_length_le (drop_eq_nil_iff.mp hnil)] at hcode
    · have hcut := take_append_drop n cs
      rw [hmore] at hcut
      rw [← hcut]
      refine append hcode ?_
      rw [length_take_of_le hscan.le, ← advance_advance]
      exact @append _ ['}'] more [_] _ (brace (.inr rfl) '}' _)
        (ih more (length_lt_of_drop_eq_cons hmore).le _)
  | span chunk c piece cs hplain hmarker hpiece ih =>
    have hc : c ≠ '{' := by
      rcases hmarker with rfl | rfl <;> decide
    have hcut : chunk ++ c :: (piece ++ cs) = (chunk ++ c :: piece) ++ cs := by simp
    rw [scanText_emphasis hplain hc hpiece, hcut]
    refine append (append (text p chunk) (text _ (c :: piece))) ?_
    rw [length_append, length_cons]
    exact ih _

/-- Prose is covered up to its blanks, with what stands between braces scanned as an expression. -/
theorem row_scanText (emphasis : Bool) (p : Position) (cs : List Char) :
    Row p cs (scanText emphasis p cs) :=
  scanText_closed .append row_prose row_brace Scans.row emphasis p cs

/-! ## Lines -/

theorem row_gaps_then
    (h : Row (p.advance (cs.takeWhile isGap).length) (cs.dropWhile isGap) tokens) :
    Row p cs tokens := by
  have hgaps : Row p (cs.takeWhile isGap) [] := Row.gaps fun c hc => mem_takeWhile_imp hc
  simpa using hgaps.append h

theorem directiveKind_eq (name : String) (depth : Nat) :
    directiveKind name depth = .keyword ∨
      directiveKind name depth = .subKeyword := by
  unfold directiveKind
  split <;> simp

/-- The tokens that a line starts with, before its code or its prose. -/
structure Leads (depth : Nat) (p : Position) (front : List Char) (lead : List Token) : Prop where
  row : Row p front lead
  content : ∀ token ∈ lead, token.kind.isStructural = false ∧ token.kind ≠ .number ∧
    token.kind ≠ .interpolationStart
  directive : ∀ token ∈ lead, token.kind.isDirective = true →
    token.kind = directiveKind token.text depth
  leading : ∀ token ∈ lead.tail, token.kind.isDirective = false

/-- The tokens that a line goes on with: those of an expression or of prose. -/
inductive Goes (p : Position) (cs : List Char) : List Token → Prop where
  | code : Goes p cs (scanExpression none p cs).1
  | prose (emphasis : Bool) : Goes p cs (scanText emphasis p cs)

theorem Goes.row (h : Goes p cs tokens) : Row p cs tokens := by
  cases h with
  | code => exact row_scanExpression p cs
  | prose emphasis => exact row_scanText emphasis p cs

theorem goes_nil (p : Position) : Goes p [] [] :=
  scanText_nil true p ▸ .prose true

theorem leads_spelled {depth : Nat} (hfilled : cs ≠ []) (hverbatim : kind.isVerbatim = true)
    (hcontent : kind.isStructural = false ∧ kind ≠ .number ∧ kind ≠ .interpolationStart)
    (hdirective : kind.isDirective = false) : Leads depth p cs [spelled kind p cs] where
  row := .spelled hfilled hverbatim
  content := by simpa [spelled, covering] using hcontent
  directive := by simp [spelled, covering, hdirective]
  leading := by simp

theorem leads_name (depth : Nat) (p : Position) (name : List Char) :
    Leads depth p ('*' :: name)
      [covering (directiveKind (lower (String.ofList name)) depth)
        (lower (String.ofList name)) p (name.length + 1)] := by
  have hkind := directiveKind_eq (lower (String.ofList name)) depth
  refine ⟨.single rfl ?_ (cons_ne_nil _ _) ?_, ?_, by simp [covering], by simp⟩
  all_goals rcases hkind with h | h <;> simp [Spells, covering, h, Kind.isStructural]

theorem Leads.gaps {depth : Nat} {front gaps : List Char} {lead : List Token}
    (h : Leads depth p front lead) (hgaps : Gaps gaps) :
    Leads depth p (front ++ gaps) lead :=
  { h with row := by simpa using h.row.append (Row.gaps hgaps) }

theorem scanDirective_cut (depth : Nat) (p : Position) (cs : List Char) :
    ∃ front rest lead next, '*' :: cs = front ++ rest ∧ scanDirective depth p cs = lead ++ next ∧
      Leads depth p front lead ∧ Goes (p.advance front.length) rest next := by
  have hcut := takeWhile_append_dropWhile (p := isNameChar) (l := cs)
  have hgaps (cs : List Char) : Gaps (cs.takeWhile isGap) :=
    fun c hc => mem_takeWhile_imp hc
  rw [scanDirective]
  generalize cs.takeWhile isNameChar = name, cs.dropWhile isNameChar = after at hcut ⊢
  subst hcut
  have hname := leads_name depth p name
  split
  · rename_i more
    have hcolon := @leads_spelled .colon [':'] (p.advance (name.length + 1)) depth
      (cons_ne_nil _ _) (by decide) (by decide) rfl
    have hboth : Leads depth p ('*' :: name ++ [':']) [_, _] :=
      ⟨hname.row.append hcolon.row, forall_mem_append.mpr ⟨hname.content, hcolon.content⟩,
        forall_mem_append.mpr ⟨hname.directive, hcolon.directive⟩,
        forall_mem_singleton.mpr rfl⟩
    refine ⟨_, more.dropWhile isGap, _, _, by simp, rfl, hboth.gaps (hgaps more), ?_⟩
    rw [length_append, length_append, ← advance_advance,
      ← advance_advance]
    dsimp only
    split
    · exact .code
    · exact .prose _
  · refine ⟨_, after.dropWhile isGap, _, _, by simp, rfl, hname.gaps (hgaps after), ?_⟩
    rw [length_append, ← advance_advance]
    exact .prose true

/-- How the content of a line of the given depth is scanned, by what it starts with. -/
inductive Begins (depth : Nat) (p : Position) : List Char → List Token → Prop where
  | nil : Begins depth p [] []
  | comment (rest : List Char) :
      Begins depth p ('-' :: '-' :: rest) [comment p ('-' :: '-' :: rest)]
  | expression (rest : List Char) : Begins depth p ('>' :: '>' :: rest)
      (covering .expressionStart ">>" p 2 :: (scanExpression none (p.advance 2) rest).1)
  | directive (rest : List Char) : Begins depth p ('*' :: rest) (scanDirective depth p rest)
  | quoted {c : Char} (rest : List Char) (quote : isQuote c = true) :
      Begins depth p (c :: rest) (scanQuoted p c rest)
  | prose (c : Char) (rest : List Char) : Begins depth p (c :: rest) (scanText true p (c :: rest))

theorem begins_scanContent (depth : Nat) (p : Position) (cs : List Char) :
    Begins depth p cs (scanContent depth p cs) := by
  unfold scanContent
  split
  · exact .comment _
  · exact .expression _
  · rename_i c rest _ _
    split
    · rename_i hstar
      obtain rfl : c = '*' := by grind
      exact .directive rest
    · split
      · exact .quoted rest ‹_›
      · exact .prose c rest
  · exact .nil

theorem leads_quoted (depth : Nat) (p : Position) (c : Char) (rest : List Char) :
    Leads depth p (c :: rest.take (quotedLexeme c rest).2)
      [spelled (quotedLexeme c rest).1 p (c :: rest.take (quotedLexeme c rest).2)] := by
  rcases quotedLexeme_kind c rest with h | h <;> rw [h] <;>
    exact leads_spelled (cons_ne_nil _ _) (by decide) (by decide) rfl

theorem scanContent_cut (depth : Nat) (p : Position) (cs : List Char) :
    ∃ front rest lead next, cs = front ++ rest ∧ scanContent depth p cs = lead ++ next ∧
      Leads depth p front lead ∧ Goes (p.advance front.length) rest next := by
  have hnone : Leads depth p [] [] := ⟨.nil, by simp, by simp, by simp⟩
  generalize scanContent depth p cs = tokens, begins_scanContent depth p cs = h
  cases h with
  | nil => exact ⟨[], [], [], [], rfl, rfl, hnone, goes_nil _⟩
  | comment rest =>
    refine ⟨_, [], [comment p _], [], by simp, rfl, ⟨row_comment p rest, ?_, ?_, by simp⟩,
      goes_nil _⟩
    all_goals simp [comment, covering, Kind.isStructural, Kind.isDirective]
  | expression rest =>
    exact ⟨['>', '>'], rest, [_], _, rfl, rfl,
      leads_spelled (cons_ne_nil _ _) (by decide) (by decide) rfl, .code⟩
  | directive rest => exact scanDirective_cut depth p rest
  | @quoted c rest quote =>
    refine ⟨_, rest.drop (quotedLexeme c rest).2, [_], _, by simp, rfl, leads_quoted depth p c rest,
      ?_⟩
    rw [length_cons, length_take_of_le (quotedLexeme_le c rest)]
    exact .prose true
  | prose c rest => exact ⟨[], c :: rest, [], _, rfl, rfl, hnone, p.advance_zero.symm ▸ .prose true⟩

theorem row_scanContent (depth : Nat) (p : Position) (cs : List Char) :
    Row p cs (scanContent depth p cs) := by
  obtain ⟨front, rest, lead, next, rfl, heq, hlead, hgoes⟩ := scanContent_cut depth p cs
  rw [heq]
  exact hlead.row.append hgoes.row

theorem scanContent_directive (depth : Nat) (p : Position) {name : List Char} (hfilled : name ≠ [])
    (hchars : ∀ c ∈ name, isNameChar c = true) (cs : List Char) :
    scanContent depth p ('*' :: (name ++ ':' :: cs)) =
      let word := lower (String.ofList name)
      let kind := directiveKind word depth
      let stop := p.advance (name.length + 1)
      covering kind word p (name.length + 1) :: covering .colon ":" stop 1 ::
        scanArgument kind word (stop.advance 1) cs := by
  have hcolon : ¬isNameChar ':' = true := by decide
  have hmarks : ∀ c ∈ name, ¬(c == ':' || c == '*') = true := by
    intro c hc hmark
    have hname := hchars c hc
    rw [Bool.or_eq_true, beq_iff_eq, beq_iff_eq] at hmark
    rcases hmark with rfl | rfl <;> exact absurd hname (by decide)
  have hfind : (name ++ ':' :: cs).find? (fun c => c == ':' || c == '*') = some ':' := by
    rw [find?_append, find?_eq_none.mpr hmarks]
    rfl
  have hhead : (name ++ ':' :: cs).head?.any isNameChar = true := by
    obtain ⟨c, more, rfl⟩ := exists_cons_of_ne_nil hfilled
    exact hchars c mem_cons_self
  have hstarts : startsDirective (name ++ ':' :: cs) = true := by
    rw [startsDirective, hfind, hhead]
    rfl
  have hname : (name ++ ':' :: cs).takeWhile isNameChar = name := by
    rw [takeWhile_append_of_pos hchars, takeWhile_cons_of_neg hcolon, append_nil]
  have hrest : (name ++ ':' :: cs).dropWhile isNameChar = ':' :: cs := by
    rw [dropWhile_append_of_pos hchars, dropWhile_cons_of_neg hcolon]
  rw [scanContent, if_pos (by rw [hstarts]; rfl), scanDirective, hname, hrest]
  · rfl
  · exact fun _ h => absurd h (by decide)
  · exact fun _ h => absurd h (by decide)

end GuidedTrack.Token
