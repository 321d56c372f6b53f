import GuidedTrack.Proofs.Token.LineEndings
import GuidedTrack.Rule.Lines

/-! # Brackets of a line

The check of brackets keeps a stack of open ones and meets one token at a time. Its run over a line
is told by the kinds of the tokens alone: which brackets stay open, and whether every closing one
met its own. In a line where it did, the brackets that stay open are those of the mode in which the
line ends, and they are closed by the text that the check would append.
-/

namespace GuidedTrack.Rule

open List

open Token (Kind Mode Weaves Passes)
open Token

variable {kind : Kind} {openers kinds : List Kind} {depth inside : Option Nat}

/-! ## The stack of open brackets -/

def afterKind (openers : List Kind) (kind : Kind) : List Kind :=
  if (closerOf? kind).isSome then kind :: openers
  else if (closerSpelling? kind).isSome then openers.tail
  else openers

def openAfter (openers kinds : List Kind) : List Kind :=
  kinds.foldl afterKind openers

def Matched (openers : List Kind) : List Kind → Prop
  | [] => True
  | kind :: rest =>
    ((closerSpelling? kind).isSome = true →
        ∀ opener ∈ openers.head?, closerOf? opener = some kind) ∧
      Matched (afterKind openers kind) rest

def Nested (openers : List Kind) : List Kind → Prop
  | [] => True
  | kind :: rest =>
    ((closerSpelling? kind).isSome = true → openers.head?.bind closerOf? = some kind) ∧
      Nested (afterKind openers kind) rest

theorem openAfter_cons (openers : List Kind) (kind : Kind) (kinds : List Kind) :
    openAfter openers (kind :: kinds) = openAfter (afterKind openers kind) kinds :=
  rfl

theorem openAfter_append (openers kinds others : List Kind) :
    openAfter openers (kinds ++ others) = openAfter (openAfter openers kinds) others :=
  foldl_append

theorem matched_append {others : List Kind} :
    Matched openers (kinds ++ others) ↔
      Matched openers kinds ∧ Matched (openAfter openers kinds) others := by
  induction kinds generalizing openers with
  | nil => simp [Matched, openAfter]
  | cons kind kinds ih =>
    rw [cons_append, Matched, Matched, ih, openAfter_cons, and_assoc]

theorem closerSpelling?_opener (h : (closerOf? kind).isSome = true) :
    (closerSpelling? kind).isSome = false := by
  cases kind <;> first | rfl | cases h

theorem afterKind_plain (h : kind.isPlain = true) (openers : List Kind) :
    afterKind openers kind = openers := by
  cases kind <;> first | rfl | cases h

theorem openAfter_plains (h : ∀ kind ∈ kinds, kind.isPlain = true) (openers : List Kind) :
    openAfter openers kinds = openers := by
  induction kinds with
  | nil => rfl
  | cons kind kinds ih =>
    obtain ⟨hkind, hkinds⟩ := forall_mem_cons.mp h
    rw [openAfter_cons, afterKind_plain hkind, ih hkinds]

/-! ## Open brackets and modes -/

def isOpener : Kind → Bool
  | .leftParen | .leftBracket | .leftBrace => true
  | _ => false

theorem isOpener_iff :
    isOpener kind = true ↔ kind = .leftParen ∨ kind = .leftBracket ∨ kind = .leftBrace := by
  cases kind <;> simp [isOpener]

theorem isBracket_iff : kind.isBracket = true ↔
    isOpener kind = true ∨ kind = .rightParen ∨ kind = .rightBracket ∨ kind = .rightBrace := by
  cases kind <;> simp [Kind.isBracket, isOpener]

/-- The open brackets that a mode allows: none in prose, and in an interpolation its own brace, with
as many braces above it as the scanner has counted. -/
def Fits : Mode → List Kind → Prop
  | .prose, openers => openers = []
  | .code, openers => ∀ kind ∈ openers, isOpener kind = true
  | .hole depth, openers => ∃ inner, openers = inner ++ [.interpolationStart] ∧
      (∀ kind ∈ inner, isOpener kind = true) ∧ inner.count .leftBrace = depth

theorem Fits.push (h : Fits (.ofDepth depth) openers) (hkind : isOpener kind = true) :
    Fits (.ofDepth (depth.map (braceDepth kind))) (kind :: openers) := by
  cases depth with
  | none => exact forall_mem_cons.mpr ⟨hkind, h⟩
  | some depth =>
    obtain ⟨inner, rfl, hinner, rfl⟩ := h
    refine ⟨kind :: inner, rfl, forall_mem_cons.mpr ⟨hkind, hinner⟩, ?_⟩
    rcases isOpener_iff.mp hkind with rfl | rfl | rfl <;> simp [braceDepth]

theorem Fits.pop {opener : Kind} (h : Fits (.ofDepth depth) (opener :: openers))
    (hkind : kind.isBracket = true) (hmatch : closerOf? opener = some kind) :
    Fits (.ofDepth (depth.map (braceDepth kind))) openers := by
  cases depth with
  | none => exact (forall_mem_cons.mp h).2
  | some depth =>
    obtain ⟨inner, hopeners, hinner, rfl⟩ := h
    cases inner with
    | nil =>
      obtain ⟨rfl, rfl⟩ := List.cons.inj hopeners
      cases hmatch
      cases hkind
    | cons first inner =>
      obtain ⟨rfl, rfl⟩ := List.cons.inj hopeners
      obtain ⟨hfirst, hinner⟩ := forall_mem_cons.mp hinner
      refine ⟨inner, rfl, hinner, ?_⟩
      rcases isOpener_iff.mp hfirst with rfl | rfl | rfl
      all_goals
        obtain rfl := Option.some.inj hmatch
        simp [braceDepth]

/-- A bracket of an expression keeps the open brackets in step with the scanner. -/
theorem Fits.bracket (h : Fits (.ofDepth depth) openers) (hkind : kind.isBracket = true)
    (hmatch : (closerSpelling? kind).isSome = true →
      ∀ opener ∈ openers.head?, closerOf? opener = some kind) :
    Fits (.ofDepth (depth.map (braceDepth kind))) (afterKind openers kind) := by
  rcases isBracket_iff.mp hkind with hopener | hcloser
  · have hafter : afterKind openers kind = kind :: openers := by
      rcases isOpener_iff.mp hopener with rfl | rfl | rfl <;> rfl
    rw [hafter]
    exact h.push hopener
  · have hafter : afterKind openers kind = openers.tail ∧ (closerSpelling? kind).isSome = true := by
      rcases hcloser with rfl | rfl | rfl <;> exact ⟨rfl, rfl⟩
    rw [hafter.1]
    cases openers with
    | cons opener openers => exact h.pop hkind (hmatch hafter.2 opener rfl)
    | nil =>
      cases depth with
      | none => exact h
      | some depth =>
        obtain ⟨inner, hnil, -⟩ := h
        simp at hnil

/-- Tokens that lead from one mode to another keep the open brackets in step. -/
theorem Fits.weaves {before after : Mode} (h : Weaves before kinds after)
    (hfits : Fits before openers) (hmatched : Matched openers kinds) :
    Fits after (openAfter openers kinds) := by
  induction h generalizing openers with
  | nil => exact hfits
  | plain hplain rest ih =>
    rw [Matched, afterKind_plain hplain] at hmatched
    rw [openAfter_cons, afterKind_plain hplain]
    exact ih hfits hmatched.2
  | bracket hbracket hinside rest ih =>
    exact ih (hfits.bracket hbracket hmatched.1) hmatched.2
  | enter rest ih =>
    obtain rfl : openers = [] := hfits
    exact ih ⟨[], rfl, by simp, rfl⟩ hmatched.2
  | leave rest ih =>
    obtain ⟨inner, rfl, hinner, -⟩ := hfits
    cases inner with
    | nil => exact ih rfl hmatched.2
    | cons first inner =>
      have hmatch := hmatched.1 rfl first rfl
      have hfirst := hinner first mem_cons_self
      rcases isOpener_iff.mp hfirst with rfl | rfl | rfl <;> cases hmatch

/-! ## Closing what is open -/

def closers (openers : List Kind) : List Char :=
  openers.flatMap fun kind => (((closerOf? kind).bind closerSpelling?).getD "").toList

theorem closers_append (openers others : List Kind) :
    closers (openers ++ others) = closers openers ++ closers others :=
  flatMap_append

theorem closers_leftParen (openers : List Kind) :
    closers (.leftParen :: openers) = ')' :: closers openers :=
  rfl

theorem closers_leftBracket (openers : List Kind) :
    closers (.leftBracket :: openers) = ']' :: closers openers :=
  rfl

theorem closers_leftBrace (openers : List Kind) :
    closers (.leftBrace :: openers) = '}' :: closers openers :=
  rfl

theorem closers_interpolationStart : closers [.interpolationStart] = ['}'] :=
  rfl

theorem passes_closer {after : Option Nat} {c : Char} {front tail : List Char}
    (hc : c = ')' ∨ c = ']' ∨ c = '}') (hmark : punctuation? c = some kind)
    (hinside : ¬(c = '}' ∧ inside = some 0))
    (rest : Passes (inside.map (braceDepth kind)) front tail kinds after) :
    Passes inside (c :: front) tail (kind :: kinds) after := by
  have hfacts : Text.isGap c = false ∧ isQuote c = false ∧ c ≠ ':' ∧ c ≠ '-' := by
    rcases hc with rfl | rfl | rfl <;> decide
  obtain ⟨hgap, hquote, hcolon, hdash⟩ := hfacts
  have hlexes : Lexes c [] (front ++ tail) kind :=
    .punctuation hmark fun hc => absurd hc hcolon
  exact .lexeme hgap hlexes (by simp [hquote]) hinside (by simp [hdash]) rest

/-- The text that closes brackets of an expression is read as the brackets that close them. -/
theorem passes_closers {inner : List Kind} (hinner : ∀ kind ∈ inner, isOpener kind = true)
    (hinside : inside = none ∨ inside = some (inner.count .leftBrace)) (tail : List Char) :
    Passes inside (closers inner) tail (inner.filterMap closerOf?) (inside.map fun _ => 0) := by
  induction inner generalizing inside with
  | nil => rcases hinside with rfl | rfl <;> exact .nil
  | cons kind inner ih =>
    obtain ⟨hkind, hrest⟩ := forall_mem_cons.mp hinner
    have hnext {closer : Kind} (h : inside.map (braceDepth closer) = none ∨
        inside.map (braceDepth closer) = some (inner.count .leftBrace)) :
        Passes (inside.map (braceDepth closer)) (closers inner) tail
          (inner.filterMap closerOf?) (inside.map fun _ => 0) := by
      have hpasses := ih hrest h
      rwa [Option.map_map] at hpasses
    rcases isOpener_iff.mp hkind with rfl | rfl | rfl
    · rw [closers_leftParen]
      refine passes_closer (.inl rfl) rfl (by simp) (hnext ?_)
      rcases hinside with rfl | rfl <;> simp [braceDepth]
    · rw [closers_leftBracket]
      refine passes_closer (.inr (.inl rfl)) rfl (by simp) (hnext ?_)
      rcases hinside with rfl | rfl <;> simp [braceDepth]
    · rw [closers_leftBrace]
      refine passes_closer (.inr (.inr rfl)) rfl ?_ (hnext ?_)
      · rcases hinside with rfl | rfl <;> simp
      · rcases hinside with rfl | rfl <;> simp [braceDepth]

theorem openAfter_closers {inner : List Kind} (hinner : ∀ kind ∈ inner, isOpener kind = true)
    (rest : List Kind) : openAfter (inner ++ rest) (inner.filterMap closerOf?) = rest := by
  induction inner with
  | nil => rfl
  | cons kind inner ih =>
    obtain ⟨hkind, hrest⟩ := forall_mem_cons.mp hinner
    rcases isOpener_iff.mp hkind with rfl | rfl | rfl <;> exact ih hrest

def Shuts (openers : List Kind) (tokens : List Token) : Prop :=
  openAfter openers (tokens.map (·.kind)) = [] ∧ ∀ token ∈ tokens, token.isOpenString = false

theorem Shuts.comments {tokens : List Token} (h : ∀ token ∈ tokens, token.kind = .comment) :
    Shuts [] tokens := by
  refine ⟨openAfter_plains ?_ [], fun token htoken => ?_⟩
  · intro kind hkind
    obtain ⟨token, htoken, rfl⟩ := mem_map.mp hkind
    rw [h token htoken]
    rfl
  · rw [isOpenString, h token htoken]
    rfl

theorem Shuts.append {openers kinds : List Kind} {tokens rest : List Token}
    (hkinds : tokens.map (·.kind) = kinds) (hclosed : ∀ token ∈ tokens, token.isOpenString = false)
    (h : Shuts (openAfter openers kinds) rest) : Shuts openers (tokens ++ rest) := by
  refine ⟨?_, forall_mem_append.mpr ⟨hclosed, h.2⟩⟩
  rw [map_append, openAfter_append, hkinds, h.1]

/-- Behind the text that closes all that is open, nothing is open. -/
theorem shuts_closers {tail : List Char} (hfits : Fits (.ofDepth inside) openers)
    (htail : Quiet inside tail) (emphasis : Bool) (p : Position) :
    Shuts openers (scanInside emphasis inside p (closers openers ++ tail)) := by
  cases inside with
  | none =>
    obtain ⟨tokens, hfills, hscan⟩ :=
      (passes_closers hfits (.inl rfl) tail).scanInside emphasis p
    have hopen := openAfter_closers hfits []
    rw [append_nil] at hopen
    rw [hscan]
    refine .append hfills.kinds hfills.closed ?_
    rw [hopen]
    exact .comments (htail.scanInside emphasis _)
  | some depth =>
    obtain ⟨inner, rfl, hinner, rfl⟩ := hfits
    have hgaps : Text.Gaps tail := htail.resolve_right (by simp)
    obtain ⟨tokens, hfills, hscan⟩ :=
      (passes_closers hinner (.inr rfl) ('}' :: tail)).scanInside emphasis p
    rw [closers_append, closers_interpolationStart, append_assoc, singleton_append, hscan]
    refine .append hfills.kinds hfills.closed ?_
    rw [openAfter_closers hinner]
    have hclose := @scanHole_close [] (by simp) emphasis (p.advance (closers inner).length) tail
    rw [nil_append, scanText_gaps hgaps] at hclose
    simp only [scanInside, Option.map_some, hclose]
    exact ⟨rfl, by simp [isOpenString, covering]⟩

end GuidedTrack.Rule
