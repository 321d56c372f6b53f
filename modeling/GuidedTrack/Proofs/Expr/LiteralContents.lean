import GuidedTrack.Proofs.Expr.BalancedBraces
import GuidedTrack.Proofs.Expr.WholeExpressions
import GuidedTrack.Proofs.SignedNumerals
import GuidedTrack.Proofs.Token.PlaceAdvance
import GuidedTrack.Proofs.Token.ScannerRows
import Mathlib.Data.List.Forall2

/-! # What string literals stand for

A literal without braces stands for its text. In any other, each outermost pair of braces stands for
the expression that its content derives, or for its own text where the content derives none; nested
literals follow the same rule. Main statement: reading gives a tree exactly
where the grammar derives it.
-/

namespace GuidedTrack.Expr

open Reader List

variable {value : Expr} {content : List Char} {ts rest : List Token} {depth : Nat} {phrase : Phrase}
  {token : Token} {S T : Token → Expr → Prop}

/-! ## Meaning -/

def embedded (token : Token) (place : Nat) (content : List Char) : List Token :=
  (Token.ofExpression (String.ofList content) (token.span.start.advance (place + 1))).dropLast

/-- What a piece of the literal at `token` adds to it, given what nested literals stand for. -/
def PieceMeans (S : Token → Expr → Prop) (token : Token) : Piece → Part → Prop
  | .text content, part => part = .text (String.ofList content)
  | .braced place content, part =>
    let inner := (embedded token place content).filter (·.kind ≠ .comment)
    (∃ value, Derives S .whole inner [] value ∧ part = .expr value) ∨
      (¬ ∃ value, Derives S .whole inner [] value) ∧
        part = .text (String.ofList ('{' :: content ++ ['}']))

def LiteralMeans (S : Token → Expr → Prop) (token : Token) (value : Expr) : Prop :=
  if '{' ∈ unquoted token.text then
    ∃ parts, value = .interpolated token.span parts ∧
      Forall₂ (PieceMeans S token) (pieces 0 (unquoted token.text)) parts
  else value = .literal token.span (.text (String.ofList (unquoted token.text))) token.text

def Means (token : Token) : Expr → Prop :=
  LiteralMeans (fun inner value => ∃ _ : inner.text.length < token.text.length, Means inner value)
    token
  termination_by token.text.length

/-- The numerals of a token can be read, those inside a literal included. -/
inductive Convertible : Token → Prop where
  | mk {token : Token}
      (number : token.kind = .number → ∃ n, Numeral.read token.text = .ok n)
      (string : token.kind = .string → ∀ place content,
        Piece.braced place content ∈ pieces 0 (unquoted token.text) →
          ∀ inner ∈ embedded token place content, Convertible inner) : Convertible token

theorem Convertible.other (hnumber : token.kind ≠ .number) (hstring : token.kind ≠ .string) :
    Convertible token :=
  .mk (fun h => absurd h hnumber) (fun h => absurd h hstring)

theorem Convertible.numeral {n : Number} (hkind : token.kind = .number)
    (hread : Numeral.read token.text = .ok n) : Convertible token :=
  .mk (fun _ => ⟨n, hread⟩) (fun h => absurd (hkind.symm.trans h) (by decide))

/-! ## Lengths -/

theorem text_le_of_mem_ofExpression {text : String} {origin : Position}
    (h : token ∈ Token.ofExpression text origin) (hkind : token.kind = .string) :
    token.text.length ≤ text.length := by
  obtain ⟨p, content, hcontent, hmem⟩ := Token.exists_line_of_mem_ofExpression h (.inr hkind)
  have hwithin := (Token.row_scanExpression p content).text_within hmem (.inr hkind)
  have hle := (hwithin.trans hcontent).length_le
  rwa [String.length_toList, String.length_toList] at hle

theorem text_lt_of_mem_embedded {inner : Token} {place : Nat}
    (hpiece : Piece.braced place content ∈ pieces 0 (unquoted token.text))
    (h : inner ∈ embedded token place content) (hkind : inner.kind = .string) :
    inner.text.length < token.text.length := by
  have hle := text_le_of_mem_ofExpression (dropLast_subset _ h) hkind
  obtain ⟨before, after, hcontent, -⟩ := (outermost_pieces _ _).split hpiece
  have hcontent := congrArg List.length hcontent
  simp only [unquoted, length_dropLast, length_tail, String.length_toList,
    length_append, length_cons] at hcontent
  rw [String.length_ofList] at hle
  omega

/-! ## Reading literals -/

theorem Derives.subset {value : phrase.Value} (h : Derives S phrase ts rest value) :
    ∀ token ∈ rest, token ∈ ts := by
  induction h <;> grind

def Passes (S T : Token → Expr → Prop) (ts : List Token) : Prop :=
  ∀ token ∈ ts, token.kind = .string → ∀ value, S token value → T token value

theorem Passes.tail (h : Passes S T (token :: ts)) : Passes S T ts :=
  fun other hother => h other (mem_cons_of_mem token hother)

theorem Derives.passes {value : phrase.Value} (h : Derives S phrase ts rest value)
    (hpasses : Passes S T ts) :
    Passes S T rest :=
  fun token htoken => hpasses token (h.subset token htoken)

theorem Derives.mono {value : phrase.Value} (h : Derives S phrase ts rest value)
    (hpasses : Passes S T ts) : Derives T phrase ts rest value := by
  induction h with
  | sum inner ih => exact .sum (ih hpasses)
  | tier operand tail ih ihTail => exact .tier (ih hpasses) (ihTail (operand.passes hpasses))
  | tierStop => exact .tierStop
  | tierStep mem spells operand tail ih ihTail =>
    exact .tierStep mem spells (ih hpasses.tail) (ihTail (operand.passes hpasses.tail))
  | terms operand tail ih ihTail => exact .terms (ih hpasses) (ihTail (operand.passes hpasses))
  | sumStop => exact .sumStop
  | sumStep mem spells operand tail ih ihTail =>
    exact .sumStep mem spells (ih hpasses.tail) (ihTail (operand.passes hpasses.tail))
  | sumNegated negates read operand tail ih ihTail =>
    exact .sumNegated negates read (ih hpasses.tail) (ihTail (operand.passes hpasses.tail))
  | factors operand tail ih ihTail => exact .factors (ih hpasses) (ihTail (operand.passes hpasses))
  | productStop => exact .productStop
  | productStep mem spells operand tail ih ihTail =>
    exact .productStep mem spells (ih hpasses.tail) (ihTail (operand.passes hpasses.tail))
  | signed spells operand ih => exact .signed spells (ih hpasses.tail)
  | unsigned inner ih => exact .unsigned (ih hpasses)
  | suffixed inner tail ih ihTail => exact .suffixed (ih hpasses) (ihTail (inner.passes hpasses))
  | suffixStop => exact .suffixStop
  | call opens closes inner tail ih ihTail =>
    exact .call opens closes (ih hpasses.tail) (ihTail (inner.passes hpasses.tail).tail)
  | index opens closes inner tail ih ihTail =>
    exact .index opens closes (ih hpasses.tail) (ihTail (inner.passes hpasses.tail).tail)
  | member opens names tail ihTail => exact .member opens names (ihTail hpasses.tail.tail)
  | number kind read => exact .number kind read
  | string kind stands => exact .string kind (hpasses _ mem_cons_self kind _ stands)
  | identifier kind => exact .identifier kind
  | bracketed opens closes inner ih => exact .bracketed opens closes (ih hpasses.tail)
  | array opens closes inner ih => exact .array opens closes (ih hpasses.tail)
  | object opens closes inner ih => exact .object opens closes (ih hpasses.tail)
  | noItems => exact .noItems
  | lastItem inner ih => exact .lastItem (ih hpasses)
  | moreItems inner divides more ih ihMore =>
    exact .moreItems (ih hpasses) divides (ihMore (inner.passes hpasses).tail)
  | noEntries => exact .noEntries
  | lastEntry left points right ihLeft ihRight =>
    exact .lastEntry (ihLeft hpasses) points (ihRight (left.passes hpasses).tail)
  | moreEntries left points right divides more ihLeft ihRight ihMore =>
    have hright := (left.passes hpasses).tail
    exact .moreEntries (ihLeft hpasses) points (ihRight hright) divides
      (ihMore (right.passes hright).tail)

theorem Derives.congr
    (h : ∀ token ∈ ts, token.kind = .string → ∀ value, S token value ↔ T token value) :
    Derives S .whole ts [] value ↔ Derives T .whole ts [] value :=
  ⟨fun hs => hs.mono fun token htoken hkind value => (h token htoken hkind value).mp,
    fun ht => ht.mono fun token htoken hkind value => (h token htoken hkind value).mpr⟩

def bracedPart (content : List Char) : Option Expr → Part
  | some value => .expr value
  | none => .text (String.ofList ('{' :: content ++ ['}']))

theorem pieceMeans_braced_iff {place : Nat} {value? : Option Expr}
    (h : ∀ value, value? = some value ↔
      Derives S .whole ((embedded token place content).filter (·.kind ≠ .comment)) [] value)
    (part : Part) :
    PieceMeans S token (.braced place content) part ↔ part = bracedPart content value? := by
  unfold PieceMeans
  dsimp only
  cases value? with
  | some value =>
    have hvalue := (h value).mp rfl
    constructor
    · rintro (⟨other, hother, rfl⟩ | ⟨hnone, -⟩)
      · rw [← Option.some.inj ((h other).mpr hother)]
        rfl
      · exact absurd ⟨value, hvalue⟩ hnone
    · rintro rfl
      exact .inl ⟨value, hvalue, rfl⟩
  | none =>
    have hnone : ¬ ∃ value, Derives S .whole
        ((embedded token place content).filter (·.kind ≠ .comment)) [] value := by
      rintro ⟨value, hvalue⟩
      cases (h value).mpr hvalue
    constructor
    · rintro (hsome | ⟨-, rfl⟩)
      · exact absurd (hsome.imp fun _ h => h.1) hnone
      · rfl
    · rintro rfl
      exact .inr ⟨hnone, rfl⟩

/-- The literals among the tokens can be read, and `S` says what they stand for. -/
structure Settles (strings : StringReader) (S : Token → Expr → Prop) (token : Token) : Prop where
  readable : Readable strings token
  stands : token.kind = .string → ∀ value, Stands strings (fun _ => True) token value ↔
      S token value

theorem readPieces_iff {strings : StringReader} (pieces : List Piece)
    (h : ∀ place content, Piece.braced place content ∈ pieces →
      ∀ inner ∈ embedded token place content, Settles strings S inner) :
    ∃ parts faults, readPieces strings token pieces = .ok (parts, faults) ∧
      ∀ others, Forall₂ (PieceMeans S token) pieces others ↔ others = parts := by
  induction pieces with
  | nil => exact ⟨[], [], rfl, fun others => by simp⟩
  | cons piece pieces ih =>
    obtain ⟨parts, more, hparts, hothers⟩ :=
      ih fun place content hmem => h place content (mem_cons_of_mem piece hmem)
    have hcons {part : Part} (hpart : ∀ other, PieceMeans S token piece other ↔ other = part)
        (others : List Part) :
        Forall₂ (PieceMeans S token) (piece :: pieces) others ↔ others = part :: parts := by
      cases others with
      | nil => simp
      | cons other others => rw [forall₂_cons, hpart, hothers, List.cons.injEq]
    cases piece with
    | text content =>
      refine ⟨.text (String.ofList content) :: parts, more, ?_, hcons fun other => Iff.rfl⟩
      rw [readPieces, hparts]
      rfl
    | braced place content =>
      have hinner := h place content mem_cons_self
      obtain ⟨value?, faults, hresult, hvalue, -⟩ := ofTokensWith_iff false token.span.start
        fun inner hmem => (hinner inner hmem).readable
      refine ⟨bracedPart content value? :: parts, faults ++ more, ?_,
        hcons (pieceMeans_braced_iff fun value => (hvalue value).trans (Derives.congr ?_))⟩
      · rw [readPieces, hparts]
        change (ofTokensWith strings false token.span.start (embedded token place content) >>=
          _) = _
        rw [hresult]
        cases value? <;> rfl
      · intro inner hmem hkind
        exact (hinner inner (mem_filter.mp hmem).1).stands hkind

theorem Convertible.readable_of_string {strings : StringReader} (h : Convertible token)
    (hstring : token.kind = .string → ∃ value, strings token = .ok value) :
    Readable strings token where
  number := by
    cases h with
    | mk number string => exact number
  negated raw hnegates := by
    cases h with
    | mk number string =>
      obtain ⟨n, hn⟩ := number hnegates.1
      exact Numeral.exists_read_of_minus hnegates.2 hn
  string := hstring

def ReadsAs (depth : Nat) (token : Token) : Prop :=
  ∃ value faults, readString depth token = .ok (value, faults) ∧
    ∀ other, Means token other ↔ other = value

theorem ReadsAs.stands_iff (h : ReadsAs depth token) (value : Expr) :
    Stands (readString depth) (fun _ => True) token value ↔ Means token value := by
  obtain ⟨result, faults, hresult, hmeans⟩ := h
  rw [hmeans]
  constructor
  · rintro ⟨more, hmore, -⟩
    rw [hresult] at hmore
    cases hmore
    rfl
  · rintro rfl
    exact ⟨faults, hresult, fun _ _ => trivial⟩

theorem means_of_plain (h : '{' ∉ unquoted token.text) (other : Expr) :
    Means token other ↔
      other = .literal token.span (.text (String.ofList (unquoted token.text))) token.text := by
  rw [Means, LiteralMeans, if_neg h]

/-- Where the depth allows for its length, a literal is read as what it stands for. -/
theorem Convertible.readsAs (h : Convertible token) (hkind : token.kind = .string)
    (hdepth : token.text.length ≤ depth) : ReadsAs depth token := by
  induction depth generalizing token with
  | zero =>
    have hplain : '{' ∉ unquoted token.text := by
      have hnil : unquoted token.text = [] := by
        apply length_eq_zero_iff.mp
        simp only [unquoted, length_dropLast, length_tail, String.length_toList]
        omega
      simp [hnil]
    exact ⟨_, [], rfl, means_of_plain hplain⟩
  | succ depth ih =>
    by_cases hbrace : '{' ∈ unquoted token.text
    · have hsettles : ∀ place content, Piece.braced place content ∈ pieces 0 (unquoted token.text) →
          ∀ inner ∈ embedded token place content, Settles (readString depth)
            (fun inner value => ∃ _ : inner.text.length < token.text.length, Means inner value)
            inner := by
        intro place content hpiece inner hinner
        cases h with
        | mk number string =>
          have hconvertible := string hkind place content hpiece inner hinner
          have hlt := text_lt_of_mem_embedded hpiece hinner
          have hreads := fun hstring : inner.kind = .string =>
            ih hconvertible hstring (by have := hlt hstring; omega)
          refine ⟨hconvertible.readable_of_string fun hstring => ?_, fun hstring value => ?_⟩
          · obtain ⟨value, faults, hresult, -⟩ := hreads hstring
            exact ⟨_, hresult⟩
          · rw [(hreads hstring).stands_iff]
            exact ⟨fun hmeans => ⟨hlt hstring, hmeans⟩, fun ⟨_, hmeans⟩ => hmeans⟩
      obtain ⟨parts, faults, hresult, hparts⟩ := readPieces_iff _ hsettles
      refine ⟨.interpolated token.span parts, faults, ?_, fun other => ?_⟩
      · rw [readString, if_pos (contains_iff_mem.mpr hbrace), hresult]
        rfl
      · rw [Means, LiteralMeans, if_pos hbrace]
        constructor
        · rintro ⟨others, rfl, hothers⟩
          rw [(hparts others).mp hothers]
        · rintro rfl
          exact ⟨parts, rfl, (hparts parts).mpr rfl⟩
    · refine ⟨_, [], ?_, means_of_plain hbrace⟩
      rw [readString, if_neg fun hcontains => hbrace (contains_iff_mem.mp hcontains)]

theorem Convertible.settles (h : Convertible token) (hdepth : token.text.length ≤ depth) :
    Settles (readString depth) Means token := by
  refine ⟨h.readable_of_string fun hkind => ?_, fun hkind => (h.readsAs hkind hdepth).stands_iff⟩
  obtain ⟨value, faults, hresult, -⟩ := h.readsAs hkind hdepth
  exact ⟨_, hresult⟩

theorem Assigns.mono (h : Assigns S ts [] value) (hpasses : Passes S T ts) :
    Assigns T ts [] value := by
  obtain ⟨target, token, us, source, htarget, hspells, hsource, rfl⟩ := h
  exact ⟨target, token, us, source, htarget.mono hpasses, hspells,
    hsource.mono (htarget.passes hpasses).tail, rfl⟩

theorem Whole.congr {assignment : Bool}
    (h : ∀ token ∈ ts, token.kind = .string → ∀ value, S token value ↔ T token value) :
    Whole S assignment ts value ↔ Whole T assignment ts value := by
  have hassigns (other : Expr) : Assigns S ts [] other ↔ Assigns T ts [] other :=
    ⟨fun hs => hs.mono fun token htoken hkind value => (h token htoken hkind value).mp,
      fun ht => ht.mono fun token htoken hkind value => (h token htoken hkind value).mpr⟩
  unfold Whole
  split
  · simp only [hassigns, Derives.congr h]
  · exact Derives.congr h

theorem text_le_depth {tokens : List Token} (h : token ∈ tokens) :
    token.text.length ≤ tokens.foldl (fun n token => max n token.text.length) 0 := by
  have hfold (n : Nat) (ts : List Token) :
      n ≤ ts.foldl (fun n token => max n token.text.length) n ∧ (token ∈ ts →
        token.text.length ≤ ts.foldl (fun n token => max n token.text.length) n) := by
    induction ts generalizing n with
    | nil => simp
    | cons first ts ih =>
      obtain ⟨hstart, hmem⟩ := ih (max n first.text.length)
      rw [foldl_cons]
      refine ⟨by omega, fun htoken => ?_⟩
      rcases mem_cons.mp htoken with rfl | htoken
      · omega
      · exact hmem htoken
  exact (hfold 0 tokens).2 h

/-- A list of tokens is read as an expression exactly if the grammar derives it, comments left out;
and where it derives none, a fault says so. -/
theorem ofTokens_eq_some_iff (assignment : Bool) (anchor : Position) (tokens : List Token)
    (h : ∀ token ∈ tokens, Convertible token) :
    ∃ value? faults, ofTokens assignment anchor tokens = .ok (value?, faults) ∧
      (∀ value, value? = some value ↔
        Whole Means assignment (tokens.filter (·.kind ≠ .comment)) value) ∧
      (value? = none → faults ≠ []) := by
  have hsettles := fun token (htoken : token ∈ tokens) =>
    (h token htoken).settles (text_le_depth htoken)
  obtain ⟨value?, faults, hresult, hvalue, hnone⟩ :=
    ofTokensWith_iff assignment anchor fun token htoken => (hsettles token htoken).readable
  refine ⟨value?, faults, hresult, fun value => (hvalue value).trans (Whole.congr ?_), hnone⟩
  intro token htoken hkind
  exact (hsettles token (mem_filter.mp htoken).1).stands hkind

/-- A subtraction that the scanner folded into a numeral, and an expression inside a literal. -/
theorem ofTokens_eq_some_iff_folded :
    let tokens := [Token.covering .identifier "x" .origin 1,
      .covering .number "-1" (Position.origin.advance 2) 2,
      .covering .operator "*" (Position.origin.advance 5) 1,
      .covering .string "\"\x7b2\x7d\"" (Position.origin.advance 7) 5,
      .covering .comment " c" (Position.origin.advance 13) 4]
    (∀ token ∈ tokens, Convertible token) ∧
      ∃ value? faults, ofTokens true .origin tokens = .ok (value?, faults) ∧
        (∀ value, value? = some value ↔
          Whole Means true (tokens.filter (·.kind ≠ .comment)) value) ∧
        (value? = none → faults ≠ []) := by
  intro tokens
  have h : ∀ token ∈ tokens, Convertible token := by
    intro token htoken
    simp only [tokens, mem_cons, not_mem_nil, or_false] at htoken
    rcases htoken with rfl | rfl | rfl | rfl | rfl
    · exact .other (by decide) (by decide)
    · exact .numeral rfl (by decide : Numeral.read "-1" = .ok (.integer (-1)))
    · exact .other (by decide) (by decide)
    · have hpieces : pieces 0 (unquoted "\"\x7b2\x7d\"") = [.braced 1 ['2']] := by
        have hunquoted : unquoted "\"\x7b2\x7d\"" = ['{', '2', '}'] := by decide
        rw [hunquoted, pieces]
        change Piece.braced 1 ['2'] :: pieces 3 [] = _
        rw [pieces]
        rfl
      have hembedded (token : Token) : ∀ inner ∈ embedded token 1 ['2'], Convertible inner := by
        have hdigit : Text.isDigit '2' = true := by decide
        have hgap : Text.isGap '2' = false := by decide
        intro inner hinner
        simp [embedded, Token.ofExpression, Source.lines, Token.scanExpressionLines,
          Token.scanExpression, hdigit, hgap, Token.lexeme, Token.numeralLength, Token.lineBreak,
          Token.lexemeText] at hinner
        subst hinner
        exact .numeral rfl (by decide : Numeral.read "2" = .ok (.integer 2))
      refine .mk (fun hnumber => absurd hnumber (by decide)) fun _ place content hpiece => ?_
      change _ ∈ pieces 0 (unquoted "\"\x7b2\x7d\"") at hpiece
      rw [hpieces] at hpiece
      cases mem_singleton.mp hpiece
      exact hembedded _
    · exact .other (by decide) (by decide)
  exact ⟨h, ofTokens_eq_some_iff true .origin tokens h⟩

end GuidedTrack.Expr
