import GuidedTrack.Proofs.Layout.LexemeBoundaries
import GuidedTrack.Proofs.Token.BlockBalance
import GuidedTrack.Proofs.Token.LineEndings

/-! # Interpolations

The scanner counts braces while it reads the expression of an interpolation, and the brace that
brings the count below zero ends it. Readers of prose look for the next end and take it for the
right one. Both find the brace that a reader of the bare text would find: the first one that nothing
in the interpolation opens, with the braces in string literals left out.
-/

namespace GuidedTrack.Token

open Source Text Layout List

variable {c : Char} {kind : Kind} {cs lex tail : List Char} {mark : Char} {front : List Token}
  {depth : Nat} {p : Position}

/-! ## The closing brace of a text -/

/-- The index of the first closing brace that no brace before it opens, when `depth` braces are open
already. In a string literal, which `quote` closes, braces do not count. -/
def closeIndex? (quote : Option Char) (depth : Nat) : List Char → Option Nat
  | [] => none
  | c :: rest =>
    match quote with
    | some mark => (closeIndex? (if c = mark then none else some mark) depth rest).map (· + 1)
    | none =>
      if isQuote c then (closeIndex? (some c) depth rest).map (· + 1)
      else if c = '{' then (closeIndex? none (depth + 1) rest).map (· + 1)
      else if c = '}' then
        if depth = 0 then some 0 else (closeIndex? none (depth - 1) rest).map (· + 1)
      else (closeIndex? none depth rest).map (· + 1)

def isInert (c : Char) : Bool :=
  !isQuote c && c != '{' && c != '}'

theorem isInert_of_pos {p : Char → Bool} (hall : ['"', '\'', '{', '}'].all (!p ·) = true)
    (h : p c = true) : isInert c = true := by
  by_contra hinert
  have hmem : c ∈ ['"', '\'', '{', '}'] := by
    simpa [isInert, isQuote, or_iff_not_imp_left, not_or] using hinert
  simpa [h] using all_eq_true.mp hall c hmem

theorem closeIndex?_inert (h : isInert c = true) (depth : Nat) (rest : List Char) :
    closeIndex? none depth (c :: rest) = (closeIndex? none depth rest).map (· + 1) := by
  simp only [isInert, Bool.and_eq_true, Bool.not_eq_true', bne_iff_ne, ne_eq] at h
  simp [closeIndex?, h]

theorem closeIndex?_append {front : List Char} (h : ∀ c ∈ front, isInert c = true) (depth : Nat)
    (rest : List Char) :
    closeIndex? none depth (front ++ rest) =
      (closeIndex? none depth rest).map (· + front.length) := by
  induction front with
  | nil => simp
  | cons c front ih =>
    obtain ⟨hc, hfront⟩ := forall_mem_cons.mp h
    rw [cons_append, closeIndex?_inert hc, ih hfront, Option.map_map]
    rfl

theorem closeIndex?_literal {inner : List Char} (h : mark ∉ inner) (depth : Nat)
    (rest : List Char) :
    closeIndex? (some mark) depth (inner ++ mark :: rest) =
      (closeIndex? none depth rest).map (· + (inner.length + 1)) := by
  induction inner with
  | nil => simp [closeIndex?]
  | cons c inner ih =>
    obtain ⟨hc, hinner⟩ := not_or.mp (mt mem_cons.mpr h)
    rw [cons_append, closeIndex?, if_neg (Ne.symm hc), ih hinner, Option.map_map]
    rfl

theorem closeIndex?_open (h : mark ∉ cs) (depth : Nat) :
    closeIndex? (some mark) depth cs = none := by
  induction cs with
  | nil => rfl
  | cons c cs ih =>
    obtain ⟨hc, hcs⟩ := not_or.mp (mt mem_cons.mpr h)
    rw [closeIndex?, if_neg (Ne.symm hc), ih hcs]
    rfl

/-! ## Braces of an expression -/

/-- A quote starts a literal, closed or open to the end of the line. -/
theorem Lexes.literal (h : Lexes c lex tail kind) (hquote : isQuote c = true) :
    (kind = .string ∧ ∃ inner, lex = inner ++ [c] ∧ c ∉ inner) ∨
      kind = .error ∧ c ∉ lex ∧ tail = [] := by
  have hlexeme : quotedLexeme c (lex ++ tail) = (kind, lex.length) := by
    rw [← h.lexeme_eq, lexeme, isDigit_of_isQuote hquote, ne_minus_of_isQuote hquote, hquote]
    rfl
  by_cases hmem : c ∈ lex ++ tail
  · left
    obtain ⟨inner, rest, hcut, hinner⟩ := eq_append_cons_of_mem hmem
    rw [hcut, append_cons, quotedLexeme_closed hinner] at hlexeme
    obtain ⟨rfl, hlength⟩ := Prod.mk.inj hlexeme
    rw [append_cons] at hcut
    exact ⟨rfl, inner, (append_inj hcut hlength.symm).1, hinner⟩
  · right
    rw [quotedLexeme_open hmem] at hlexeme
    obtain ⟨rfl, hlength⟩ := Prod.mk.inj hlexeme
    obtain ⟨hlex, -⟩ := not_or.mp (mt mem_append.mpr hmem)
    rw [length_append] at hlength
    exact ⟨rfl, hlex, eq_nil_of_length_eq_zero (by omega)⟩

inductive Braces (c : Char) (lex : List Char) : Kind → Prop where
  | left (char : c = '{') (alone : lex = []) : Braces c lex .leftBrace
  | right (char : c = '}') (alone : lex = []) : Braces c lex .rightBrace
  | other {kind : Kind} (inert : ∀ d ∈ c :: lex, isInert d = true) (left : kind ≠ .leftBrace)
      (right : kind ≠ .rightBrace) : Braces c lex kind

theorem isInert_of_ordinary {d : Char} (h : Ordinary d) : isInert d = true := by
  have hleft : d ≠ '{' := fun heq => h.opening (heq ▸ by decide)
  have hright : d ≠ '}' := fun heq => h.closing (heq ▸ by decide)
  simp [isInert, h.quote, hleft, hright]

theorem Lexes.braces (h : Lexes c lex tail kind) (hquote : isQuote c = false) :
    Braces c lex kind := by
  have hinner : ∀ d ∈ lex, isInert d = true := by
    rcases lexes_inner h hquote with hordinary | ⟨-, rfl⟩ | ⟨-, rfl⟩
    · exact fun d hd => isInert_of_ordinary (hordinary d hd)
    · exact all_eq_true.mp (by decide)
    · exact all_eq_true.mp (by decide)
  cases h with
  | number digit length =>
    exact .other (forall_mem_cons.mpr ⟨isInert_of_pos (by decide) digit, hinner⟩)
      (by decide) (by decide)
  | quoted quote lexeme =>
    rw [quote] at hquote
    cases hquote
  | negative | arrow | doubleColon =>
    exact .other (forall_mem_cons.mpr ⟨by decide, hinner⟩) (by decide) (by decide)
  | comparison angle =>
    have hc : isInert c = true := by rcases angle with rfl | rfl <;> decide
    exact .other (forall_mem_cons.mpr ⟨hc, hinner⟩) (by decide) (by decide)
  | symbol mem minus angle =>
    have hc : isInert c = true :=
      all_eq_true.mp (by decide : symbolOperators.all isInert = true) c mem
    exact .other (forall_mem_cons.mpr ⟨hc, hinner⟩) (by decide) (by decide)
  | punctuation mark colon =>
    unfold punctuation? at mark
    split at mark <;> cases mark
    case h_5 => exact .left rfl rfl
    case h_6 => exact .right rfl rfl
    all_goals exact .other (all_eq_true.mp (by decide)) (by decide) (by decide)
  | word first start more stop =>
    have hc : isInert c = true := isInert_of_pos (by decide) start
    refine .other (forall_mem_cons.mpr ⟨hc, hinner⟩) ?_ ?_ <;> split <;> decide
  | error first start =>
    have hleft : c ≠ '{' := fun heq => absurd (heq ▸ first.mark) (by decide)
    have hright : c ≠ '}' := fun heq => absurd (heq ▸ first.mark) (by decide)
    have hc : isInert c = true := by simp [isInert, hquote, hleft, hright]
    exact .other (forall_mem_cons.mpr ⟨hc, hinner⟩) (by decide) (by decide)

/-- The closing brace of a text that starts with a lexeme is that of the text behind it. -/
theorem Lexes.closeIndex?_eq (h : Lexes c lex tail kind) (hopen : ¬(c = '}' ∧ depth = 0)) :
    closeIndex? none depth (c :: (lex ++ tail)) =
      (closeIndex? none (braceDepth kind depth) tail).map (· + (lex.length + 1)) := by
  cases hquote : isQuote c with
  | true =>
    rw [closeIndex?, if_pos hquote]
    rcases h.literal hquote with ⟨rfl, inner, rfl, hinner⟩ | ⟨rfl, hlex, rfl⟩
    · rw [append_assoc, singleton_append, closeIndex?_literal hinner, Option.map_map,
        length_append]
      rfl
    · rw [append_nil, closeIndex?_open hlex]
      rfl
  | false =>
    cases h.braces hquote with
    | left char alone =>
      subst char alone
      simp [closeIndex?, isQuote, braceDepth]
    | right char alone =>
      subst char alone
      have hdepth : depth ≠ 0 := fun hdepth => hopen ⟨rfl, hdepth⟩
      simp [closeIndex?, isQuote, braceDepth, hdepth]
    | other inert left right =>
      have hdepth : braceDepth kind depth = depth := by
        unfold braceDepth
        split
        · exact absurd rfl left
        · exact absurd rfl right
        · rfl
      rw [← cons_append, closeIndex?_append inert, hdepth, length_cons]

section

variable {depth : Nat} {p : Position} {cs : List Char} {tokens : List Token} {n : Nat}

theorem Scans.closeIndex?_eq (h : Scans (some depth) p cs tokens n) :
    closeIndex? none depth cs = if cs.drop n = [] then none else some n := by
  generalize hdepth : some depth = depth? at h
  induction h generalizing depth with
  | nil => rfl
  | gap gap rest ih =>
    rw [closeIndex?_inert (isInert_of_pos (by decide) gap), ih hdepth, drop_succ_cons]
    split <;> rfl
  | close =>
    cases hdepth
    rfl
  | comment => cases hdepth
  | @lexeme depth? p c lex tail kind tokens n gap lexes close dashes rest ih =>
    subst hdepth
    have hdrop : (c :: (lex ++ tail)).drop (n + lex.length + 1) = tail.drop n := by
      rw [drop_succ_cons, Nat.add_comm, drop_length_add_append]
    rw [lexes.closeIndex?_eq (by simpa using close), ih rfl, hdrop]
    split <;> rfl

/-- The tokens of an interpolation are lexemes: two dashes start no comment there. -/
theorem Scans.isLexeme (h : Scans (some depth) p cs tokens n) :
    ∀ token ∈ tokens, token.kind.isLexeme = true := by
  generalize hdepth : some depth = depth? at h
  induction h generalizing depth with
  | nil => simp
  | gap gap rest ih => exact ih hdepth
  | close => simp
  | comment => cases hdepth
  | lexeme gap lexes close dashes rest ih =>
    subst hdepth
    exact forall_mem_cons.mpr ⟨lexes.isLexeme, ih rfl⟩

theorem Kind.ne_of_isLexeme (h : kind.isLexeme = true) :
    kind ≠ .text ∧ kind ≠ .comment ∧ kind ≠ .interpolationStart ∧ kind ≠ .interpolationEnd := by
  refine ⟨?_, ?_, ?_, ?_⟩ <;>
    rintro rfl <;>
    cases h

theorem countKind_cons (kind : Kind) (token : Token) (tokens : List Token) :
    countKind kind (token :: tokens) =
      countKind kind tokens + if token.kind = kind then 1 else 0 := by
  simp [countKind, countP_cons]

theorem braceDepth_add (h : kind = .rightBrace → depth ≠ 0) :
    braceDepth kind depth + (if kind = .rightBrace then 1 else 0) =
      depth + if kind = .leftBrace then 1 else 0 := by
  by_cases hright : kind = .rightBrace
  · have hpos := h hright
    subst hright
    simp only [braceDepth, if_true, reduceCtorEq, if_false]
    omega
  · by_cases hleft : kind = .leftBrace
    · subst hleft
      simp [braceDepth]
    · cases kind <;> first | exact absurd rfl hright | exact absurd rfl hleft | rfl

theorem ne_zero_of_rightBrace (h : Lexes c lex tail kind) (hopen : ¬(c = '}' ∧ some depth = some 0))
    (hkind : kind = .rightBrace) : depth ≠ 0 :=
  fun hdepth => hopen ⟨(show Lexes c lex tail .rightBrace from hkind ▸ h).of_kind,
      congrArg some hdepth⟩

/-- No brace in an interpolation closes what is not opened in it. -/
theorem Scans.nested (h : Scans (some depth) p cs tokens n) (hfront : front <+: tokens) :
    countKind .rightBrace front ≤ depth + countKind .leftBrace front := by
  generalize hdepth : some depth = depth? at h
  induction h generalizing depth front with
  | nil | close =>
    rw [prefix_nil.mp hfront]
    exact Nat.zero_le _
  | gap gap rest ih => exact ih hfront hdepth
  | comment => cases hdepth
  | @lexeme depth? p c lex tail kind tokens n gap lexes close dashes rest ih =>
    subst hdepth
    cases front with
    | nil => exact Nat.zero_le _
    | cons token front =>
      obtain ⟨rfl, hrest⟩ := cons_prefix_cons.mp hfront
      have hbraces := braceDepth_add (ne_zero_of_rightBrace lexes close)
      have hle := ih hrest rfl
      simp only [countKind_cons, covering]
      omega

/-- All braces that are open are closed where the scan of an interpolation stops. -/
theorem Scans.balanced (h : Scans (some depth) p cs tokens n) (hstop : cs.drop n ≠ []) :
    countKind .rightBrace tokens = depth + countKind .leftBrace tokens := by
  generalize hdepth : some depth = depth? at h
  induction h generalizing depth with
  | nil => exact absurd rfl hstop
  | gap gap rest ih => exact ih hstop hdepth
  | close =>
    cases hdepth
    rfl
  | comment => cases hdepth
  | @lexeme depth? p c lex tail kind tokens n gap lexes close dashes rest ih =>
    subst hdepth
    rw [drop_succ_cons, Nat.add_comm, drop_length_add_append] at hstop
    have hbraces := braceDepth_add (ne_zero_of_rightBrace lexes close)
    have heq := ih hstop rfl
    simp only [countKind_cons, covering]
    omega

end

/-! ## Where interpolations start -/

/-- `start` is the brace at index `i` of the text `cs` at `p`, with the rest of the line behind it:
first what is inside the interpolation. -/
def StartsAt (p : Position) (cs : List Char) (start : Token) (rest : List Token) : Prop :=
  ∃ emphasis i tail, cs.drop i = '{' :: tail ∧ start.span.start = p.advance i ∧
    rest = scanHole emphasis 0 (p.advance (i + 1)) tail

def Holed (p : Position) (cs : List Char) (tokens : List Token) : Prop :=
  ∀ front start rest, tokens = front ++ start :: rest → start.kind = .interpolationStart →
    StartsAt p cs start rest

theorem StartsAt.behind {p : Position} {front cs : List Char} {start : Token} {rest : List Token}
    (h : StartsAt (p.advance front.length) cs start rest) :
        StartsAt p (front ++ cs) start rest := by
  obtain ⟨emphasis, i, tail, hdrop, hstart, hrest⟩ := h
  rw [Position.advance_advance] at hstart hrest
  refine ⟨emphasis, front.length + i, tail, ?_, hstart, hrest⟩
  rw [drop_length_add_append, hdrop]

theorem cons_of_append_eq {α : Type} {front back before after : List α} {x : α}
    (h : front ++ back = before ++ x :: after) :
    (∃ more, front = before ++ x :: more ∧ after = more ++ back) ∨
      ∃ more, back = more ++ x :: after := by
  rcases append_eq_append_iff.mp h with ⟨more, -, hmore⟩ | ⟨more, hbefore, hmore⟩
  · exact .inr ⟨more, hmore⟩
  · cases more with
    | nil => exact .inr ⟨[], hmore.symm⟩
    | cons y more =>
      obtain ⟨rfl, rfl⟩ := List.cons.inj hmore
      exact .inl ⟨more, hbefore, rfl⟩

theorem start_of_append_eq {back before after : List Token} {start : Token}
    (h : front ++ back = before ++ start :: after)
    (hfront : ∀ token ∈ front, token.kind ≠ .interpolationStart)
    (hstart : start.kind = .interpolationStart) : ∃ more, back = more ++ start :: after := by
  rcases cons_of_append_eq h with ⟨more, rfl, -⟩ | hmore
  · exact absurd hstart (hfront start (by simp))
  · exact hmore

theorem Holed.of_kind {tokens : List Token}
    (h : ∀ token ∈ tokens, token.kind ≠ .interpolationStart) :
    Holed p cs tokens := by
  rintro front start rest rfl hstart
  exact absurd hstart (h start (by simp))

theorem Holed.append {p : Position} {front cs : List Char} {tokens others : List Token}
    (h : ∀ token ∈ tokens, token.kind ≠ .interpolationStart)
    (hothers : Holed (p.advance front.length) cs others) :
    Holed p (front ++ cs) (tokens ++ others) := by
  intro before start after heq hstart
  obtain ⟨more, hmore⟩ := start_of_append_eq heq h hstart
  exact (hothers more start after hmore hstart).behind

theorem kind_prose : ∀ token ∈ prose p cs, token.kind = .text := by
  unfold prose
  split
  · simp
  · simp [spelled, covering]

theorem holed_scanHole {emphasis : Bool} {cs : List Char}
    (h : ∀ more, more.length ≤ cs.length → ∀ q, Holed q more (scanText emphasis q more)) :
    Holed p cs (scanHole emphasis depth p cs) := by
  obtain ⟨tokens, n, hscan, hcases⟩ := scanHole_cases depth p cs
  have htokens : ∀ token ∈ tokens, token.kind ≠ .interpolationStart := fun token htoken =>
    (Kind.ne_of_isLexeme (hscan.isLexeme token htoken)).2.2.1
  rcases hcases with ⟨-, heq⟩ | ⟨more, hmore, heq⟩
  · rw [heq]
    exact .of_kind htokens
  · have hcut : cs = cs.take n ++ ['}'] ++ more := by
      rw [append_assoc, singleton_append, ← hmore, take_append_drop]
    have hlength : (cs.take n ++ ['}']).length = n + 1 := by
      rw [length_append, length_take_of_le hscan.le]
      rfl
    have hend : tokens ++ covering .interpolationEnd "\x7d" (p.advance n) 1 ::
        scanText emphasis (p.advance (n + 1)) more =
          (tokens ++ [covering .interpolationEnd "\x7d" (p.advance n) 1]) ++
            scanText emphasis (p.advance (n + 1)) more := by
      simp
    rw [heq, hend, hcut]
    exact .append (forall_mem_append.mpr ⟨htokens, by simp [covering]⟩)
      (hlength ▸ h more (length_lt_of_drop_eq_cons hmore).le _)

theorem holed_scanText (emphasis : Bool) (p : Position) (cs : List Char) :
    Holed p cs (scanText emphasis p cs) := by
  have htexts (p : Position) (cs : List Char) :
      ∀ token ∈ prose p cs, token.kind ≠ .interpolationStart := by
    intro token htoken
    rw [kind_prose token htoken]
    decide
  induction cs using @prose_induction emphasis generalizing p with
  | plain cs hplain =>
    rw [scanText_plain hplain]
    exact .of_kind (htexts p cs)
  | hole chunk cs hplain ih =>
    rw [scanText_hole hplain]
    refine .append (htexts p chunk) fun front start rest heq hstart => ?_
    cases front with
    | nil =>
      -- the brace itself
      obtain ⟨rfl, rfl⟩ := List.cons.inj heq
      exact ⟨emphasis, 0, cs, rfl, by simp [covering], by simp⟩
    | cons first front =>
      obtain ⟨-, hfront⟩ := List.cons.inj heq
      have hinside := holed_scanHole (fun more hle q => ih more hle q) front start rest hfront
        hstart
      refine @StartsAt.behind _ ['{'] _ _ _ ?_
      simpa using hinside
  | span chunk c piece cs hplain hmarker hpiece ih =>
    have hc : c ≠ '{' := by
      rcases hmarker with rfl | rfl <;> decide
    have hcut : chunk ++ c :: (piece ++ cs) = (chunk ++ c :: piece) ++ cs := by simp
    rw [scanText_emphasis hplain hc hpiece, hcut]
    refine .append (forall_mem_append.mpr ⟨htexts _ _, htexts _ _⟩) ?_
    rw [length_append, length_cons]
    exact ih _

theorem holed_scanExpression (p : Position) (cs : List Char) :
    Holed p cs (scanExpression none p cs).1 := by
  refine .of_kind fun token htoken hkind => ?_
  have hprose := (isStructural_of_mem_scanExpression htoken).2
  rw [hkind] at hprose
  cases hprose

theorem holed_scanContent (depth : Nat) (p : Position) (cs : List Char) :
    Holed p cs (scanContent depth p cs) := by
  obtain ⟨front, rest, lead, next, rfl, heq, hlead, hgoes⟩ := scanContent_cut depth p cs
  rw [heq]
  refine .append (fun token htoken => (hlead.content token htoken).2.2) ?_
  cases hgoes with
  | code => exact holed_scanExpression _ _
  | prose emphasis => exact holed_scanText _ _ _

/-! ## Documents -/

theorem kinds_behind {line : Line} {cs tail : List Char} (h : line.Opens cs tail)
    (opened : List Nat)
    (p q : Position) :
    ∀ token ∈ (lineBreak line p ++ scanLines opened q (Source.lines tail)).takeWhile
      (·.kind ≠ .newline), token.kind = .dedent ∨ token.kind = .endOfInput := by
  unfold lineBreak
  split
  · rename_i hnil
    have hends := h.ends
    rw [List.isEmpty_iff.mp hnil] at hends
    cases hends
    intro token htoken
    have hmem := (takeWhile_sublist _).subset htoken
    simp only [Source.lines, scanLines, nil_append, mem_append, mem_map,
      mem_singleton] at hmem
    rcases hmem with ⟨_, -, rfl⟩ | rfl
    · exact .inl rfl
    · exact .inr rfl
  · simp [spelled, covering]

theorem StartsAt.inSource {cs behind : List Char} {line : Line} {i : Nat} {start : Token}
    {rest : List Token} (hopens : line.Opens (cs.drop i) behind)
    (h : StartsAt (place cs i) line.content start rest) :
    ∃ emphasis k tail, start.span.start = place cs k ∧
      (cs.drop k).takeWhile isInline = '{' :: tail ∧
      rest = scanHole emphasis 0 ((place cs k).advance 1) tail := by
  obtain ⟨emphasis, j, tail, hdrop, hstart, hrest⟩ := h
  have hcontent := hopens.takeWhile_isInline
  have hle : j ≤ line.content.length := by
    by_contra hlt
    rw [drop_eq_nil_of_le (by omega)] at hdrop
    cases hdrop
  have hplace := place_add (hcontent ▸ hle)
  have htail : (cs.drop (i + j)).takeWhile isInline = '{' :: tail := by
    rw [← drop_drop, hopens.text, drop_append_of_le_length hle, hdrop,
      takeWhile_append_of_pos, hopens.ends.takeWhile_isInline, append_nil]
    exact fun c hc => hopens.inline c (mem_of_mem_drop (hdrop ▸ hc))
  refine ⟨emphasis, i + j, tail, by rw [hstart, hplace], htail, ?_⟩
  rw [hrest, hplace, Position.advance_advance]

/-- Behind the start of an interpolation stand, up to the line break, the tokens of the rest of its
line, and marks where the source ends there. -/
theorem exists_hole {cs : List Char} {lines : List Line} {opened : List Nat} {i : Nat}
    (hlines : Source.lines (cs.drop i) = lines) (hbetween : Between cs i)
    {front rest : List Token} {start : Token}
    (h : scanLines opened (place cs i) lines = front ++ start :: rest)
    (hstart : start.kind = .interpolationStart) :
    ∃ emphasis k tail marks, start.span.start = place cs k ∧
      (cs.drop k).takeWhile isInline = '{' :: tail ∧
      rest.takeWhile (·.kind ≠ .newline) =
        scanHole emphasis 0 ((place cs k).advance 1) tail ++ marks ∧
      ∀ token ∈ marks, token.kind = .dedent ∨ token.kind = .endOfInput := by
  induction lines generalizing opened i front with
  | nil =>
    have hmem : start ∈ scanLines opened (place cs i) [] := by simp [h]
    simp only [scanLines, mem_append, mem_map, mem_singleton] at hmem
    rcases hmem with ⟨_, -, rfl⟩ | rfl <;> cases hstart
  | cons line more ih =>
    obtain ⟨tail, hopens, hmore⟩ := opens_of_lines hlines
    obtain ⟨hafter, hnext⟩ := hopens.after_eq hbetween
    rw [scanLines_cons, hafter] at h
    have hlater {others : List Token}
        (h : scanLines (blocksAfter opened line) (place cs (i + line.length)) more =
          others ++ start :: rest) :=
      ih (hopens.drop_after ▸ hmore) hnext h
    rw [lineTokens] at h
    split at h
    · exact hlater h
    rw [append_assoc, append_assoc] at h
    obtain ⟨before, hcontent⟩ := start_of_append_eq h (fun token htoken hkind => by
      rcases indentation_kinds _ _ _ _ token htoken with h | h <;> rw [h] at hkind <;>
        cases hkind) hstart
    rcases cons_of_append_eq hcontent with ⟨inside, hinside, hrest⟩ | ⟨others, hothers⟩
    · have hstarts := (holed_scanContent _ _ _ before start inside hinside hstart).behind
      rw [Line.lead, Line.body, takeWhile_append_dropWhile] at hstarts
      obtain ⟨emphasis, k, tail, hplace, htail, hhole⟩ := hstarts.inSource hopens
      have hmarks := kinds_behind hopens (blocksAfter opened line) (place cs i)
        (place cs (i + line.length))
      rw [hmore] at hmarks
      refine ⟨emphasis, k, tail, _, hplace, htail, ?_, hmarks⟩
      rw [hrest, takeWhile_append_of_pos, hhole]
      intro token htoken
      have hmem : token ∈ before ++ start :: inside := by simp [htoken]
      rw [← hinside] at hmem
      have hkind := (kinds_scanContent _ _ _).1 token hmem
      refine decide_eq_true fun hnewline => ?_
      rw [hnewline] at hkind
      cases hkind
    · obtain ⟨others, hothers⟩ := start_of_append_eq hothers (fun token htoken hkind => by
        rw [kinds_lineBreak _ _ token htoken] at hkind
        cases hkind) hstart
      exact hlater hothers

/-! ## Delimitation -/

/-- The index of the brace that closes the interpolation which `start` opens, if its line has one.
-/
def closingBrace? (cs : List Char) (start : Token) : Option Nat :=
  let index := start.span.start.offset.toNat + 1
  (closeIndex? none 0 ((cs.drop index).takeWhile isInline)).map (index + ·)

/-- Those of the tokens behind the start of an interpolation that stand before the next end. -/
def inside (line : List Token) : List Token :=
  line.takeWhile (·.kind ≠ .interpolationEnd)

/-- Behind `start`, on its line, the next end belongs to `start`: the tokens up to there are those
of an expression whose braces nest, and the end is the closing brace of the text. Where no end
follows, the text has no closing brace, and the line no prose. -/
structure Delimited (cs : List Char) (start : Token) (line : List Token) : Prop where
  code : ∀ token ∈ inside line,
    token.kind ≠ .text ∧ token.kind ≠ .comment ∧ token.kind ≠ .interpolationStart
  nested : ∀ front, front <+: inside line →
    countKind .rightBrace front ≤ countKind .leftBrace front
  closed : ∀ stop, line.find? (·.kind = .interpolationEnd) = some stop →
    countKind .rightBrace (inside line) = countKind .leftBrace (inside line) ∧
      ∃ k, closingBrace? cs start = some k ∧ stop = covering .interpolationEnd "\x7d" (place cs k) 1
  unclosed : line.find? (·.kind = .interpolationEnd) = none →
    closingBrace? cs start = none ∧
      ∀ token ∈ line, token.kind ≠ .text ∧ token.kind ≠ .interpolationStart

theorem inside_append {front back : List Token} {stop : Token}
    (h : ∀ token ∈ front, token.kind ≠ .interpolationEnd) (hstop : stop.kind = .interpolationEnd) :
    inside (front ++ stop :: back) = front ∧
      (front ++ stop :: back).find? (·.kind = .interpolationEnd) = some stop := by
  constructor
  · rw [inside, takeWhile_append_of_pos (by simpa using h), takeWhile_cons_of_neg
      (by simpa using hstop), append_nil]
  · rw [find?_append, find?_eq_none.mpr (by simpa using h), Option.none_or,
      find?_cons_of_pos (by simpa using hstop)]

theorem inside_eq_self {line : List Token} (h : ∀ token ∈ line, token.kind ≠ .interpolationEnd) :
    inside line = line :=
  takeWhile_eq_self_iff.mpr (by simpa using h)

theorem closingBrace?_eq {cs tail : List Char} {start : Token} {k : Nat}
    (hplace : start.span.start = place cs k)
    (htail : (cs.drop k).takeWhile isInline = '{' :: tail) :
    closingBrace? cs start = (closeIndex? none 0 tail).map (k + 1 + ·) := by
  have hnext : (cs.drop (k + 1)).takeWhile isInline = tail := by
    rw [← drop_drop]
    cases hdrop : cs.drop k with
    | nil => simp [hdrop] at htail
    | cons c rest =>
      rw [hdrop, takeWhile_cons] at htail
      split at htail
      · exact (List.cons.inj htail).2
      · cases htail
  have hoffset : start.span.start.offset.toNat = k := by
    rw [hplace]
    rfl
  simp only [closingBrace?, hoffset, hnext]

theorem delimited_open {cs tail : List Char} {start : Token} {p : Position} {k n : Nat}
    {tokens marks : List Token} (hplace : start.span.start = place cs k)
    (htail : (cs.drop k).takeWhile isInline = '{' :: tail) (hscan : Scans (some 0) p tail tokens n)
    (hn : tail.drop n = [])
    (hmarks : ∀ token ∈ marks, token.kind = .dedent ∨ token.kind = .endOfInput) :
    Delimited cs start (tokens ++ marks) := by
  have hkinds : ∀ token ∈ tokens ++ marks, token.kind ≠ .text ∧ token.kind ≠ .comment ∧
      token.kind ≠ .interpolationStart ∧ token.kind ≠ .interpolationEnd := by
    intro token htoken
    rcases mem_append.mp htoken with htoken | htoken
    · exact Kind.ne_of_isLexeme (hscan.isLexeme token htoken)
    · rcases hmarks token htoken with hkind | hkind <;> simp [hkind]
  have hinside := inside_eq_self fun token htoken => (hkinds token htoken).2.2.2
  have hnone : (tokens ++ marks).find? (·.kind = .interpolationEnd) = none :=
    find?_eq_none.mpr (by simpa using fun token htoken => (hkinds token htoken).2.2.2)
  refine ⟨?_, fun front hfront => ?_, by simp [hnone], fun _ => ⟨?_, ?_⟩⟩
  · rw [hinside]
    exact fun token htoken => ⟨(hkinds token htoken).1, (hkinds token htoken).2.1,
      (hkinds token htoken).2.2.1⟩
  · rw [hinside] at hfront
    rcases prefix_or_prefix_of_prefix hfront (prefix_append tokens marks) with h | ⟨m, rfl⟩
    · simpa using hscan.nested h
    · -- marks are no braces
      have hm : countKind .rightBrace m = 0 := by
        refine countP_eq_zero.mpr fun token htoken => ?_
        have hmem := (prefix_append_right_inj tokens).mp hfront |>.subset htoken
        rcases hmarks token hmem with hkind | hkind <;> simp [hkind]
      have hle := hscan.nested prefix_rfl
      rw [countKind_append, countKind_append]
      omega
  · rw [closingBrace?_eq hplace htail, hscan.closeIndex?_eq, if_pos hn]
    rfl
  · exact fun token htoken => ⟨(hkinds token htoken).1, (hkinds token htoken).2.2.1⟩

theorem delimited_closed {cs tail more : List Char} {start : Token} {k n : Nat}
    {tokens back : List Token} (hplace : start.span.start = place cs k)
    (htail : (cs.drop k).takeWhile isInline = '{' :: tail)
    (hscan : Scans (some 0) ((place cs k).advance 1) tail tokens n)
    (hn : tail.drop n = '}' :: more) :
    Delimited cs start
      (tokens ++ covering .interpolationEnd "\x7d"
        (((place cs k).advance 1).advance n) 1 :: back) := by
  have hlexeme := hscan.isLexeme
  have hne : tail.drop n ≠ [] := by simp [hn]
  obtain ⟨hinside, hfind⟩ := @inside_append tokens back
    (covering .interpolationEnd "\x7d" (((place cs k).advance 1).advance n) 1)
    (fun token htoken => (Kind.ne_of_isLexeme (hlexeme token htoken)).2.2.2) rfl
  refine ⟨?_, fun front hfront => ?_, fun stop hstop => ⟨?_, k + 1 + n, ?_, ?_⟩,
    fun hnone => absurd (hfind.symm.trans hnone) (Option.some_ne_none _)⟩
  · rw [hinside]
    intro token htoken
    obtain ⟨htext, hcomment, hstart, -⟩ := Kind.ne_of_isLexeme (hlexeme token htoken)
    exact ⟨htext, hcomment, hstart⟩
  · simpa using hscan.nested (hinside ▸ hfront)
  · rw [hinside]
    simpa using hscan.balanced hne
  · rw [closingBrace?_eq hplace htail, hscan.closeIndex?_eq, if_neg hne]
    rfl
  · obtain rfl := Option.some.inj (hfind.symm.trans hstop)
    have hle := hscan.le
    have hadd : place cs (k + (1 + n)) = (place cs k).advance (1 + n) :=
      place_add (by rw [htail, length_cons]; omega)
    rw [Position.advance_advance, ← hadd, Nat.add_assoc]

/-- Every interpolation of a document ends at the next end on its line, and that is where it should.
-/
theorem ofSource_delimited {source : String} {front rest : List Token} {start : Token}
    (htokens : ofSource source = front ++ start :: rest)
    (hstart : start.kind = .interpolationStart) :
    Delimited source.toList start (rest.takeWhile (·.kind ≠ .newline)) := by
  obtain ⟨emphasis, k, tail, marks, hplace, htail, hline, hmarks⟩ :=
    exists_hole (i := 0) rfl (between_zero source.toList) htokens hstart
  obtain ⟨tokens, n, hscan, ⟨hn, hhole⟩ | ⟨more, hn, hhole⟩⟩ :=
    scanHole_cases 0 ((place source.toList k).advance 1) tail
  · rw [hline, hhole]
    exact delimited_open hplace htail hscan hn hmarks
  · rw [hline, hhole, append_assoc]
    exact delimited_closed hplace htail hscan hn

theorem ofSource_delimited_literal :
    let source := "\x7b\"\x7d\" \x7bx\x7d\x7d b"
    let start := covering .interpolationStart "\x7b" .origin 1
    ofSource source = [] ++ start :: (ofSource source).tail ∧
      closingBrace? source.toList start = some 8 ∧
      Delimited source.toList start ((ofSource source).tail.takeWhile (·.kind ≠ .newline)) := by
  intro source start
  have htokens : ofSource source = [] ++ start :: (ofSource source).tail := by
    decide +kernel
  have hclose : closingBrace? source.toList start = some 8 := by
    decide
  exact ⟨htokens, hclose, ofSource_delimited htokens rfl⟩

end GuidedTrack.Token
