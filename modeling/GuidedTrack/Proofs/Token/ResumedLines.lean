import GuidedTrack.Proofs.Token.ScannerRows

/-! # Lines with another end

What a scanner reads depends on the text behind it, but on little of it. Where the end of a line is
exchanged for another that starts with a gap, a closing bracket or a quote, and that holds the same
colons, stars and slashes, the tokens in front of it stay as they are.
-/

namespace GuidedTrack.Token

open Text List Position

variable {c : Char} {kind : Kind} {s t front lex tail : List Char}

/-! ## Ends that may be exchanged -/

def isStop (c : Char) : Bool :=
  isGap c || c == ')' || c == ']' || c == '}' || isQuote c

def isSignal (c : Char) : Bool :=
  c == ':' || c == '*' || c == '/'

def Follows (old new : List Char) : Prop :=
  new = old ∨ new.head?.any isStop = true ∧ new.filter isSignal = old.filter isSignal

theorem isStop_iff :
    isStop c = true ↔ c = ' ' ∨ c = '\t' ∨ c = ')' ∨ c = ']' ∨ c = '}' ∨ c = '"' ∨ c = '\'' := by
  simp [isStop, isGap, isQuote, or_assoc]

theorem not_of_isStop {p : Char → Bool}
    (hall : [' ', '\t', ')', ']', '}', '"', '\''].all (!p ·) = true) (h : isStop c = true) :
    p c = false := by
  have hmem : c ∈ [' ', '\t', ')', ']', '}', '"', '\''] := by simpa using isStop_iff.mp h
  simpa using List.all_eq_true.mp hall c hmem

theorem Follows.filter_eq {old new : List Char} (h : Follows old new) :
    new.filter isSignal = old.filter isSignal := by
  rcases h with rfl | ⟨-, h⟩
  · rfl
  · exact h

/-! ## Lexemes -/

theorem goesOn_of_isStop (h : isStop c = true) : goesOn c = false :=
  not_of_isStop (by decide) h

theorem meets_exchange (front s : List Char) (ht : t.head?.any isStop = true) :
    Meets isStop (front ++ s) (front ++ t) := by
  have hstop : ∀ d ∈ t.head?, isStop d = true :=
    fun d hd => by simpa [Option.mem_def.mp hd] using ht
  have hnone {p : Char → Bool} (hall : [' ', '\t', ')', ']', '}', '"', '\''].all (!p ·) = true) :
      t.head?.any p = false :=
    (Option.any_eq_false _ _).mpr fun d hd => by simp [not_of_isStop hall (hstop d hd)]
  cases front with
  | nil =>
    refine ⟨.inr hstop, fun rest hrest _ => ?_⟩
    have hpoint : t.head?.any (· == '.') = false := hnone (by decide)
    rw [nil_append] at hrest
    simp [hrest] at hpoint
  | cons d front =>
    refine ⟨.inl rfl, fun rest hrest hdigit => ?_⟩
    obtain ⟨rfl, rfl⟩ := List.cons.inj hrest
    refine ⟨front ++ s, rfl, ?_⟩
    cases front with
    | nil =>
      have hnot : t.head?.any isDigit = false := hnone (by decide)
      exact absurd hdigit (Bool.eq_false_iff.mp hnot)
    | cons e front => exact hdigit

theorem Lexes.exchange (h : Lexes c lex (front ++ s) kind)
    (hclosed : ¬(isQuote c = true ∧ kind = .error)) (ht : t.head?.any isStop = true) :
    Lexes c lex (front ++ t) kind :=
  h.meets hclosed goesOn_of_isStop (meets_exchange front s ht)

/-! ## Stretches of tokens -/

def isOpenString (token : Token) : Bool :=
  token.kind == .error && token.text.toList.head?.any isQuote

/-- `tokens` of the given kinds stand on `text`, which starts at `p`. None of them is a comment or
an open string. -/
structure Spread (p : Position) (text : List Char) (kinds : List Kind) (tokens : List Token) :
    Prop where
  kinds : tokens.map (·.kind) = kinds
  inner : ∀ token ∈ tokens, token.kind.isStructural = false ∧ token.kind ≠ .comment
  closed : ∀ token ∈ tokens, token.isOpenString = false
  within : ∀ token ∈ tokens, ∃ n < text.length, token.span.start = p.advance n

structure Fills (p : Position) (text : List Char) (kinds : List Kind) (tokens : List Token) : Prop
    extends Spread p text kinds tokens where
  stop : tokens.getLast?.map (·.span.stop) =
    if text = [] then none else some (p.advance text.length)

section

variable {p : Position} {text more : List Char} {kinds others : List Kind}
    {tokens rest : List Token}

theorem Spread.nil (text : List Char) : Spread p text [] [] :=
  ⟨rfl, by simp, by simp, by simp⟩

theorem Spread.append (h : Spread p text kinds tokens)
    (hmore : Spread (p.advance text.length) more others rest) :
    Spread p (text ++ more) (kinds ++ others) (tokens ++ rest) where
  kinds := by rw [map_append, h.kinds, hmore.kinds]
  inner := forall_mem_append.mpr ⟨h.inner, hmore.inner⟩
  closed := forall_mem_append.mpr ⟨h.closed, hmore.closed⟩
  within := by
    refine forall_mem_append.mpr ⟨fun token htoken => ?_, fun token htoken => ?_⟩
    · obtain ⟨n, hn, hstart⟩ := h.within token htoken
      exact ⟨n, by rw [length_append]; omega, hstart⟩
    · obtain ⟨n, hn, hstart⟩ := hmore.within token htoken
      refine ⟨text.length + n, ?_, by rw [hstart, advance_advance]⟩
      rw [length_append]
      omega

theorem Fills.nil : Fills p [] [] [] :=
  ⟨.nil [], rfl⟩

theorem Spread.fills (h : Spread p text kinds tokens)
    (hmore : Fills (p.advance text.length) more others rest) (hfilled : more ≠ []) :
    Fills p (text ++ more) (kinds ++ others) (tokens ++ rest) where
  toSpread := h.append hmore.toSpread
  stop := by
    rw [getLast?_append, Option.map_or, hmore.stop, if_neg hfilled, Option.some_or,
      advance_advance, if_neg (by simp [hfilled]), length_append]

theorem Fills.append (h : Fills p text kinds tokens)
    (hmore : Fills (p.advance text.length) more others rest) :
    Fills p (text ++ more) (kinds ++ others) (tokens ++ rest) := by
  by_cases hempty : more = []
  · subst hempty
    refine ⟨h.toSpread.append hmore.toSpread, ?_⟩
    have hstop := hmore.stop
    rw [if_pos rfl] at hstop
    rw [getLast?_append, Option.map_or, hstop, Option.none_or, append_nil, h.stop]
  · exact h.toSpread.fills hmore hempty

theorem fills_token {s : String} {n : Nat} (hinner : kind.isStructural = false ∧ kind ≠ .comment)
    (hclosed : (covering kind s p n).isOpenString = false) (hfilled : text ≠ [])
    (hn : text.length = n) : Fills p text [kind] [covering kind s p n] where
  kinds := rfl
  inner := by simpa [covering] using hinner
  closed := by simpa using hclosed
  within token htoken := by
    rw [mem_singleton.mp htoken]
    exact ⟨0, length_pos_iff.mpr hfilled, (advance_zero p).symm⟩
  stop := by
    subst hn
    simp [covering, hfilled]

end

/-! ## Expressions -/

/-- `Passes depth front tail kinds after`: in front of `tail`, the scan of an expression reads
`front` as lexemes of the given kinds, the last of them at its end, and goes on at the depth
`after`. -/
inductive Passes : Option Nat → List Char → List Char → List Kind → Option Nat → Prop where
  | nil {depth : Option Nat} {tail : List Char} : Passes depth [] tail [] depth
  | gap {depth after : Option Nat} {c : Char} {front tail : List Char} {kinds : List Kind}
      (gap : isGap c = true) (filled : front ≠ []) (rest : Passes depth front tail kinds after) :
      Passes depth (c :: front) tail kinds after
  | lexeme {depth after : Option Nat} {c : Char} {lex front tail : List Char} {kind : Kind}
      {kinds : List Kind} (gap : isGap c = false) (lexes : Lexes c lex (front ++ tail) kind)
      (closed : ¬(isQuote c = true ∧ kind = .error)) (inside : ¬(c = '}' ∧ depth = some 0))
      (dashes : ¬(c = '-' ∧ (lex ++ (front ++ tail)).head? = some '-' ∧ depth = none))
      (rest : Passes (depth.map (braceDepth kind)) front tail kinds after) :
      Passes depth (c :: (lex ++ front)) tail (kind :: kinds) after

/-- What may stand behind the last lexeme of a line: gaps and, behind them, nothing, an open string
or, where there are comments, a comment. -/
inductive Trails (comments : Bool) : List Char → Prop where
  | nil : Trails comments []
  | gap {c : Char} {cs : List Char} (gap : isGap c = true) (rest : Trails comments cs) :
      Trails comments (c :: cs)
  | string {quote : Char} {cs : List Char} (quoted : isQuote quote = true)
      (unclosed : quote ∉ cs) : Trails comments (quote :: cs)
  | comment {cs : List Char} (allowed : comments = true) : Trails comments ('-' :: '-' :: cs)

def Closes (cs : List Char) : Prop :=
  ∃ gaps more, cs = gaps ++ '}' :: more ∧ ∀ c ∈ gaps, isGap c = true

theorem Lexes.unclosed (h : Lexes c lex tail .error) (hc : isQuote c = true) : c ∉ lex ++ tail := by
  rcases h.of_kind with ⟨-, rfl, hnone⟩ | ⟨-, first, -⟩
  · rwa [append_nil]
  · rw [first.quote] at hc
    cases hc

theorem Lexes.fills (h : Lexes c lex tail kind) (hclosed : ¬(isQuote c = true ∧ kind = .error))
    (p : Position) :
    Fills p (c :: lex) [kind]
      [covering kind (lexemeText kind (c :: lex)) p (lex.length + 1)] := by
  have hinner : kind.isStructural = false ∧ kind ≠ .comment := by
    have hkind := h.isLexeme
    cases kind <;> simp_all [Kind.isLexeme, Kind.isStructural]
  have hstring : (covering kind (lexemeText kind (c :: lex)) p (lex.length + 1)).isOpenString =
      false := by
    by_cases herror : kind = .error
    · have hquote : isQuote c = false := by simpa [herror] using hclosed
      simp [isOpenString, covering, lexemeText, herror, hquote]
    · simp [isOpenString, covering, herror]
  exact fills_token hinner hstring (cons_ne_nil c lex) rfl

theorem passes_exists (depth : Option Nat) (cs : List Char) :
    ∃ front tail kinds after, cs = front ++ tail ∧ Passes depth front tail kinds after ∧
      (Trails after.isNone tail ∨ after = some 0 ∧ Closes tail) := by
  obtain ⟨p, tokens, n, hscan⟩ : ∃ p tokens n, Scans depth p cs tokens n :=
    ⟨.origin, _, _, scans_scanExpression depth .origin cs⟩
  induction hscan with
  | nil => exact ⟨[], [], [], _, rfl, .nil, .inl .nil⟩
  | @gap depth p c cs tokens n hgap rest ih =>
    obtain ⟨front, tail, kinds, after, rfl, hpasses, hends⟩ := ih
    cases front with
    | nil =>
      cases hpasses
      refine ⟨[], c :: tail, [], depth, rfl, .nil, ?_⟩
      rcases hends with htrails | ⟨hdepth, gaps, more, rfl, hgaps⟩
      · exact .inl (.gap hgap htrails)
      · exact .inr ⟨hdepth, c :: gaps, more, rfl, forall_mem_cons.mpr ⟨hgap, hgaps⟩⟩
    | cons d front =>
      exact ⟨c :: d :: front, tail, kinds, after, rfl,
        .gap hgap (cons_ne_nil d front) hpasses, hends⟩
  | close => exact ⟨[], _, [], _, rfl, .nil, .inr ⟨rfl, [], _, rfl, by simp⟩⟩
  | comment => exact ⟨[], _, [], _, rfl, .nil, .inl (.comment rfl)⟩
  | @lexeme depth p c lex tail kind tokens n hgap hlexes hclose hdashes rest ih =>
    by_cases hopen : isQuote c = true ∧ kind = .error
    · obtain ⟨hquote, rfl⟩ := hopen
      exact ⟨[], _, [], _, rfl, .nil, .inl (.string hquote (hlexes.unclosed hquote))⟩
    · obtain ⟨front, tail, kinds, after, rfl, hpasses, hends⟩ := ih
      exact ⟨c :: (lex ++ front), tail, kind :: kinds, after, by simp,
        .lexeme hgap hlexes hopen hclose hdashes hpasses, hends⟩

namespace Passes

variable {depth after : Option Nat} {front tail : List Char} {kinds : List Kind}

theorem exchange (h : Passes depth front tail kinds after) {other : List Char}
    (hother : other.head?.any isStop = true) : Passes depth front other kinds after := by
  induction h with
  | nil => exact .nil
  | gap hgap hfilled rest ih => exact .gap hgap hfilled ih
  | lexeme hgap hlexes hclosed hinside hdashes rest ih =>
    refine .lexeme hgap (hlexes.exchange hclosed hother) hclosed hinside ?_ ih
    rintro ⟨hc, hhead, hdepth⟩
    rw [← append_assoc] at hhead hdashes
    exact (meets_exchange _ _ hother).ne (by decide) (fun hold => hdashes ⟨hc, hold, hdepth⟩) hhead

theorem scan (h : Passes depth front tail kinds after) (p : Position) :
    ∃ tokens, Fills p front kinds tokens ∧
      (scanExpression depth p (front ++ tail)).1 =
        tokens ++ (scanExpression after (p.advance front.length) tail).1 ∧
      (scanExpression depth p (front ++ tail)).2 =
        front.length + (scanExpression after (p.advance front.length) tail).2 := by
  induction h generalizing p with
  | nil => exact ⟨[], .nil, by simp⟩
  | @gap depth after c front tail kinds hgap hfilled rest ih =>
    obtain ⟨tokens, hfills, htokens, hn⟩ := ih (p.advance 1)
    rw [advance_advance, Nat.add_comm 1] at htokens hn
    refine ⟨tokens, (Spread.nil [c]).fills hfills hfilled, ?_⟩
    rw [cons_append, scanExpression, if_pos hgap]
    exact ⟨htokens, by simp only [hn, length_cons]; omega⟩
  | @lexeme depth after c lex front tail kind kinds hgap hlexes hclosed hinside hdashes rest ih =>
    obtain ⟨tokens, hfills, htokens, hn⟩ := ih (p.advance (lex.length + 1))
    rw [advance_advance, Nat.add_right_comm] at htokens hn
    refine ⟨_, (hlexes.fills hclosed p).append hfills, ?_⟩
    rw [cons_append, append_assoc, scanExpression, if_neg (by simp [hgap]),
      if_neg (by simpa using hinside), if_neg (by simpa [and_assoc] using hdashes)]
    simp only [hlexes.lexeme_eq, take_left, drop_left]
    have hlength : (c :: (lex ++ front)).length = lex.length + front.length + 1 := by simp
    rw [hlength, htokens, hn]
    exact ⟨rfl, by omega⟩

theorem isSome_eq (h : Passes depth front tail kinds after) : after.isSome = depth.isSome := by
  induction h with
  | nil => rfl
  | gap hgap hfilled rest ih => exact ih
  | lexeme hgap hlexes hclosed hinside hdashes rest ih => rw [ih, Option.isSome_map]

end Passes

/-! ## How a line goes on -/

/-- How a line goes on at some place: as prose, as an expression, or as an expression inside an
interpolation, with so many braces open in it. -/
inductive Mode where
  | prose
  | code
  | hole (depth : Nat)

def Mode.ofDepth : Option Nat → Mode
  | none => code
  | some depth => hole depth

def Kind.isBracket : Kind → Bool
  | leftParen | rightParen | leftBracket | rightBracket | leftBrace | rightBrace => true
  | _ => false

theorem braceDepth_of_not_isBracket (h : kind.isBracket = false) (depth : Nat) :
    braceDepth kind depth = depth := by
  cases kind <;> first | rfl | cases h

def Kind.isPlain : Kind → Bool
  | interpolationStart | interpolationEnd => false
  | kind => !kind.isBracket

/-- `Weaves before kinds after`: tokens of these kinds lead from one mode to another. -/
inductive Weaves : Mode → List Kind → Mode → Prop where
  | nil {mode : Mode} : Weaves mode [] mode
  | plain {before after : Mode} {kind : Kind} {kinds : List Kind} (plain : kind.isPlain = true)
      (rest : Weaves before kinds after) : Weaves before (kind :: kinds) after
  | bracket {depth : Option Nat} {after : Mode} {kind : Kind} {kinds : List Kind}
      (bracket : kind.isBracket = true) (inside : ¬(kind = .rightBrace ∧ depth = some 0))
      (rest : Weaves (.ofDepth (depth.map (braceDepth kind))) kinds after) :
      Weaves (.ofDepth depth) (kind :: kinds) after
  | enter {after : Mode} {kinds : List Kind} (rest : Weaves (.hole 0) kinds after) :
      Weaves .prose (.interpolationStart :: kinds) after
  | leave {after : Mode} {kinds : List Kind} (rest : Weaves .prose kinds after) :
      Weaves (.hole 0) (.interpolationEnd :: kinds) after

theorem Weaves.append {before middle after : Mode} {kinds others : List Kind}
    (h : Weaves before kinds middle) (hothers : Weaves middle others after) :
    Weaves before (kinds ++ others) after := by
  induction h with
  | nil => exact hothers
  | plain hplain rest ih => exact .plain hplain (ih hothers)
  | bracket hbracket hinside rest ih => exact .bracket hbracket hinside (ih hothers)
  | enter rest ih => exact .enter (ih hothers)
  | leave rest ih => exact .leave (ih hothers)

theorem Passes.weaves {depth after : Option Nat} {kinds : List Kind}
    (h : Passes depth front tail kinds after) : Weaves (.ofDepth depth) kinds (.ofDepth after) := by
  induction h with
  | nil => exact .nil
  | gap hgap hfilled rest ih => exact ih
  | @lexeme depth after c lex front tail kind kinds hgap hlexes hclosed hinside hdashes rest ih =>
    cases hbracket : kind.isBracket with
    | true =>
      refine .bracket hbracket (fun hbrace => hinside ⟨?_, hbrace.2⟩) ih
      exact (hbrace.1 ▸ hlexes : Lexes _ _ _ .rightBrace).of_kind
    | false =>
      have hkind := hlexes.isLexeme
      have hplain : kind.isPlain = true := by
        cases kind <;> simp_all [Kind.isLexeme, Kind.isPlain]
      have hdepth : depth.map (braceDepth kind) = depth := by
        cases depth <;> simp [braceDepth_of_not_isBracket hbracket]
      rw [hdepth] at ih
      exact .plain hplain ih

/-! ## Prose -/

theorem Passes.scanHole {depth after : Nat} {front tail : List Char} {kinds : List Kind}
    (h : Passes (some depth) front tail kinds (some after)) (emphasis : Bool) (p : Position) :
    ∃ tokens, Fills p front kinds tokens ∧
      Token.scanHole emphasis depth p (front ++ tail) =
        tokens ++ Token.scanHole emphasis after (p.advance front.length) tail := by
  obtain ⟨tokens, hfills, htokens, hn⟩ := h.scan p
  refine ⟨tokens, hfills, ?_⟩
  have hdrop (n : Nat) : (front ++ tail).drop (front.length + n) = tail.drop n :=
    drop_length_add_append n
  simp only [Token.scanHole, htokens, hn, hdrop, append_assoc, advance_advance,
    Nat.add_assoc]

theorem scanExpression_close {gaps : List Char} (hgaps : Gaps gaps) (p : Position)
    (cs : List Char) : scanExpression (some 0) p (gaps ++ '}' :: cs) = ([], gaps.length) := by
  induction gaps generalizing p with
  | nil =>
    rw [nil_append, scanExpression]
    rfl
  | cons c gaps ih =>
    obtain ⟨hc, hgaps⟩ := forall_mem_cons.mp hgaps
    rw [cons_append, scanExpression, if_pos hc, ih hgaps]
    rfl

theorem scanHole_close {gaps : List Char} (hgaps : Gaps gaps) (emphasis : Bool)
    (p : Position) (cs : List Char) :
    scanHole emphasis 0 p (gaps ++ '}' :: cs) =
      covering .interpolationEnd "\x7d" (p.advance gaps.length) 1 ::
        scanText emphasis (p.advance (gaps.length + 1)) cs := by
  simp only [scanHole, scanExpression_close hgaps, drop_left, nil_append]

/-! ## Signals -/

theorem any_exchange {old new : List Char} (h : new.filter isSignal = old.filter isSignal)
    {c : Char}
    (hc : isSignal c = true) : new.any (· == c) = old.any (· == c) := by
  have hfilter (cs : List Char) : cs.any (· == c) = (cs.filter isSignal).any (· == c) := by
    rw [any_filter]
    refine congrArg cs.any (funext fun d => ?_)
    cases hd : d == c with
    | false => simp
    | true =>
      rw [beq_iff_eq.mp hd, hc]
      rfl
  rw [hfilter, h, ← hfilter]

theorem opensEmphasis_exchange {c : Char} {text old new : List Char} (htext : text ≠ [])
    (h : new.filter isSignal = old.filter isSignal) :
    opensEmphasis c (text ++ new) = opensEmphasis c (text ++ old) := by
  obtain ⟨d, text, rfl⟩ := exists_cons_of_ne_nil htext
  unfold opensEmphasis
  cases hmarker : c == '*' || c == '/' with
  | false => rfl
  | true =>
    have hc : isSignal c = true := by
      rw [isSignal, Bool.or_assoc, hmarker, Bool.or_true]
    simp only [cons_append, emphasisLength?]
    split
    · rfl
    · simp [findIdx?_isSome, any_exchange h hc]

theorem plainLength_exchange {emphasis : Bool} {chunk text old new : List Char} {c : Char}
    (hc : c = '{' ∨ text ≠ []) (hsignals : new.filter isSignal = old.filter isSignal)
    (h : plainLength emphasis (chunk ++ c :: (text ++ old)) = chunk.length) :
    plainLength emphasis (chunk ++ c :: (text ++ new)) = chunk.length := by
  induction chunk with
  | nil =>
    rw [nil_append, plainLength] at h ⊢
    split at h
    · rename_i hstop
      refine if_pos ?_
      rcases hc with rfl | htext
      · rfl
      · rwa [opensEmphasis_exchange htext hsignals]
    · cases h
  | cons d chunk ih =>
    rw [cons_append, plainLength] at h ⊢
    split at h
    · cases h
    · rename_i hgo
      have htext : chunk ++ c :: text ≠ [] := by simp
      have hsame := @opensEmphasis_exchange d _ _ _ htext hsignals
      simp only [append_assoc, cons_append] at hsame
      rw [hsame, if_neg hgo, ih (by simpa using h)]
      rfl

theorem emphasisLength?_exchange {marker : Char} {piece old : List Char}
    (h : emphasisLength? marker (piece ++ old) = some piece.length) (new : List Char) :
    emphasisLength? marker (piece ++ new) = some piece.length := by
  cases piece with
  | nil => cases emphasisLength?_pos h
  | cons c piece =>
    rw [cons_append, emphasisLength?] at h ⊢
    split at h
    · cases h
    · rename_i hopens
      obtain ⟨i, hfound, hi⟩ := Option.map_eq_some_iff.mp h
      rw [length_cons] at hi
      rw [if_neg hopens, findIdx?_exchange hfound (by omega) new, length_cons, ← hi]
      rfl

/-! ## Stretches of prose -/

def proseKinds (cs : List Char) : List Kind :=
  if allBlank cs then [] else [.text]

theorem spread_prose (p : Position) (cs : List Char) :
    Spread p cs (proseKinds cs) (prose p cs) := by
  unfold proseKinds prose
  split
  · exact .nil cs
  · rename_i hblank
    have hfilled : cs ≠ [] := by
      rintro rfl
      exact hblank rfl
    exact (fills_token (by decide) rfl hfilled rfl).toSpread

theorem weaves_proseKinds (cs : List Char) : Weaves .prose (proseKinds cs) .prose := by
  unfold proseKinds
  split
  · exact .nil
  · exact .plain rfl .nil

/-- `front` is scanned alike in front of `tail` and of what may follow in its place: into tokens of
the given kinds, behind which the line goes on as `next` scans it. -/
def Resumes (scan next : Position → List Char → List Token) (front tail : List Char)
    (kinds : List Kind) : Prop :=
  ∀ other, Follows tail other → ∀ p, ∃ tokens, Fills p front kinds tokens ∧
    scan p (front ++ other) = tokens ++ next (p.advance front.length) other

theorem fills_hole {p : Position} {chunk front : List Char} {kinds : List Kind}
    {tokens : List Token}
    (h : Fills (p.advance (chunk.length + 1)) front kinds tokens) :
    Fills p (chunk ++ '{' :: front) (proseKinds chunk ++ .interpolationStart :: kinds)
      (prose p chunk ++ covering .interpolationStart "\x7b"
        (p.advance chunk.length) 1 :: tokens) := by
  have hbrace : Fills (p.advance chunk.length) ['{'] [.interpolationStart]
      [covering .interpolationStart "\x7b" (p.advance chunk.length) 1] :=
    fills_token (by decide) rfl (cons_ne_nil _ _) rfl
  have hinside := hbrace.append (by rwa [advance_advance])
  exact (spread_prose p chunk).fills hinside (cons_ne_nil _ _)

structure Strides (emphasis : Bool) (front rest : List Char) (kinds : List Kind) : Prop where
  filled : front ≠ []
  weaves : Weaves .prose kinds .prose
  scan : ∀ other : List Char, other.filter isSignal = rest.filter isSignal → ∀ p, ∃ tokens,
    Spread p front kinds tokens ∧
      scanText emphasis p (front ++ other) =
        tokens ++ scanText emphasis (p.advance front.length) other

def RunsOpen (emphasis : Bool) (cs : List Char) : Prop :=
  ∃ front tail kinds depth, cs = front ++ tail ∧ '{' ∈ front ∧ Trails false tail ∧
    Weaves .prose kinds (.hole depth) ∧
    Resumes (scanText emphasis) (scanHole emphasis depth) front tail kinds

theorem scanText_enter {emphasis : Bool} {chunk rest : List Char}
    (h : plainLength emphasis (chunk ++ '{' :: rest) = chunk.length) :
    RunsOpen emphasis (chunk ++ '{' :: rest) ∨
      ∃ front more kinds, chunk ++ '{' :: rest = front ++ more ∧
          Strides emphasis front more kinds := by
  obtain ⟨front, tail, kinds, after, rfl, hpasses, hends⟩ := passes_exists (some 0) rest
  obtain ⟨depth, rfl⟩ : ∃ depth, after = some depth := Option.isSome_iff_exists.mp hpasses.isSome_eq
  have hweaves : Weaves .prose (proseKinds chunk ++ .interpolationStart :: kinds) (.hole depth) :=
    (weaves_proseKinds chunk).append (.enter hpasses.weaves)
  rcases hends with htrails | ⟨hdepth, gaps, more, rfl, hgaps⟩
  · left
    refine ⟨chunk ++ '{' :: front, tail, _, depth, by simp, by simp, htrails, hweaves, ?_⟩
    intro other hother p
    have hexchanged : Passes (some 0) front other kinds (some depth) := by
      rcases hother with rfl | ⟨hstop, -⟩
      · exact hpasses
      · exact hpasses.exchange hstop
    obtain ⟨tokens, hfills, htokens⟩ :=
      hexchanged.scanHole emphasis (p.advance (chunk.length + 1))
    refine ⟨_, fills_hole hfills, ?_⟩
    rw [append_assoc, cons_append,
      scanText_hole (plainLength_exchange (.inl rfl) hother.filter_eq h), htokens,
      advance_advance]
    simp [Nat.add_comm, Nat.add_left_comm]
  · right
    obtain rfl := Option.some.inj hdepth
    refine ⟨chunk ++ '{' :: (front ++ (gaps ++ ['}'])), more, _, by simp, by simp,
      hweaves.append (.leave .nil), ?_⟩
    intro other hother p
    have hstop : (gaps ++ '}' :: other).head?.any isStop = true := by
      cases gaps with
      | nil => rfl
      | cons c gaps => simp [isStop, hgaps c mem_cons_self]
    have hplain : plainLength emphasis (chunk ++ '{' :: (front ++ (gaps ++ '}' :: other))) =
        chunk.length := by
      have hold : plainLength emphasis (chunk ++ '{' :: ((front ++ (gaps ++ ['}'])) ++ more)) =
          chunk.length := by
        simpa using h
      simpa using plainLength_exchange (.inl rfl) hother hold
    obtain ⟨tokens, hfills, htokens⟩ :=
      (hpasses.exchange hstop).scanHole emphasis (p.advance (chunk.length + 1))
    let q := p.advance (chunk ++ '{' :: front).length
    have hbrace : Fills (q.advance gaps.length) ['}'] [.interpolationEnd]
        [covering .interpolationEnd "\x7d" (q.advance gaps.length) 1] :=
      fills_token (by decide) rfl (cons_ne_nil _ _) rfl
    have hspread := (fills_hole hfills).toSpread.append
      ((Spread.nil gaps).append hbrace.toSpread)
    refine ⟨_, by simpa using hspread, ?_⟩
    have htext : chunk ++ '{' :: (front ++ (gaps ++ ['}'])) ++ other =
        chunk ++ '{' :: (front ++ (gaps ++ '}' :: other)) := by
      simp
    rw [htext, scanText_hole hplain, htokens, scanHole_close hgaps]
    simp [q, Nat.add_comm, Nat.add_left_comm]

theorem scanText_pass {emphasis : Bool} {chunk rest : List Char}
    (h : plainLength emphasis (chunk ++ c :: rest) = chunk.length) (hc : c ≠ '{') :
    ∃ front more kinds, chunk ++ c :: rest = front ++ more ∧ Strides emphasis front more kinds := by
  obtain ⟨-, piece, more, rfl, hn⟩ := exists_span h hc
  have hpiece : piece ≠ [] := length_pos_iff.mp (emphasisLength?_pos hn)
  refine ⟨chunk ++ c :: piece, more, proseKinds chunk ++ proseKinds (c :: piece), by simp, by simp,
    (weaves_proseKinds _).append (weaves_proseKinds _), ?_⟩
  intro other hother p
  refine ⟨_, (spread_prose p chunk).append (spread_prose _ (c :: piece)), ?_⟩
  rw [append_assoc, cons_append, scanText_emphasis
    (plainLength_exchange (.inr hpiece) hother h) hc (emphasisLength?_exchange hn other)]
  simp

theorem scanText_step (emphasis : Bool) (cs : List Char) :
    plainLength emphasis cs = cs.length ∨ RunsOpen emphasis cs ∨
      ∃ front rest kinds, cs = front ++ rest ∧ Strides emphasis front rest kinds := by
  rcases plainLength_cases emphasis cs with hplain | ⟨chunk, c, rest, rfl, hplain⟩
  · exact .inl hplain
  · right
    by_cases hc : c = '{'
    · subst hc
      exact scanText_enter hplain
    · exact .inr (scanText_pass hplain hc)

def RunsClosed (scan : Position → List Char → List Token) (cs : List Char) : Prop :=
  ∃ kinds, Weaves .prose kinds .prose ∧ ∀ p, Spread p cs kinds (scan p cs)

/-- Prose closes its interpolations, or runs into one that its line does not close. -/
theorem scanText_cases (emphasis : Bool) (cs : List Char) :
    RunsClosed (scanText emphasis) cs ∨ RunsOpen emphasis cs := by
  induction hn : cs.length using Nat.strong_induction_on generalizing cs with
  | _ n ih =>
    rcases scanText_step emphasis cs with hplain | hopen | ⟨front, rest, kinds, rfl, hstrides⟩
    · refine .inl ⟨proseKinds cs, weaves_proseKinds cs, fun p => ?_⟩
      rw [scanText_plain hplain]
      exact spread_prose p cs
    · exact .inr hopen
    · have hshorter : rest.length < n := by
        have hpos := length_pos_iff.mpr hstrides.filled
        rw [length_append] at hn
        omega
      rcases ih rest.length hshorter rest rfl with ⟨others, hweaves, hspread⟩ |
        ⟨more, tail, others, depth, rfl, hbrace, htrails, hweaves, hresumes⟩
      · refine .inl ⟨kinds ++ others, hstrides.weaves.append hweaves, fun p => ?_⟩
        obtain ⟨tokens, htokens, hscan⟩ := hstrides.scan rest rfl p
        rw [hscan]
        exact htokens.append (hspread _)
      · refine .inr ⟨front ++ more, tail, kinds ++ others, depth, by simp, by simp [hbrace],
          htrails,
          hstrides.weaves.append hweaves, ?_⟩
        intro other hother p
        have hsignals : (more ++ other).filter isSignal = (more ++ tail).filter isSignal := by
          rw [filter_append, filter_append, hother.filter_eq]
        obtain ⟨tokens, htokens, hscan⟩ := hstrides.scan (more ++ other) hsignals p
        obtain ⟨last, hfills, hmore⟩ := hresumes other hother (p.advance front.length)
        refine ⟨tokens ++ last, htokens.fills hfills (ne_nil_of_mem hbrace), ?_⟩
        rw [append_assoc, hscan, hmore, advance_advance, append_assoc,
          length_append]

end GuidedTrack.Token
