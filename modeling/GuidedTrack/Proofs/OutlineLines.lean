import GuidedTrack.Outline
import Mathlib.Data.List.Forall2

/-! # The lines of an outline

An outline nests the lines of its tokens and keeps their order: read from front to back, it holds
the lines that the tokens were cut into, and nothing else.
-/

namespace GuidedTrack.Outline

open List Outline

variable {items more : List Item} {front rest : List Token} {outline : Outline} {first : Token}

mutual

def Item.lines : Item → List (List Token)
  | .line first rest => [first :: rest]
  | .newline => []
  | .block _ items => linesOf items

def linesOf : List Item → List (List Token)
  | [] => []
  | item :: rest => item.lines ++ linesOf rest

end

def lines (outline : Outline) : List (List Token) :=
  linesOf outline.items ++ outline.strays.flatMap fun stray => linesOf stray.2

/-! ## Last tokens -/

mutual

theorem Item.lastToken_eq (last : Token) (item : Item) :
    item.lastToken last = item.lines.flatten.getLastD last := by
  cases item with
  | line first rest => rw [Item.lastToken, Item.lines, flatten_singleton, getLastD_cons]
  | newline => rfl
  | block indent items => exact lastToken_eq last items

theorem lastToken_eq (last : Token) (items : List Item) :
    lastToken last items = (linesOf items).flatten.getLastD last := by
  cases items with
  | nil => rfl
  | cons item rest =>
    rw [lastToken, lastToken_eq, Item.lastToken_eq, linesOf, flatten_append]
    simp [getLastD_eq_getLast?, getLast?_append]

end

/-! ## Building an outline -/

section

variable {token : Token} (outline : Outline)

theorem lines_dedent (h : token.kind = .dedent) : (cons token outline).lines = outline.lines := by
  simp [cons, h, lines, linesOf]

theorem lines_indent (h : token.kind = .indent) : (cons token outline).lines = outline.lines := by
  obtain ⟨items, strays⟩ := outline
  cases strays <;> simp [cons, h, lines, linesOf, Item.lines]

theorem length_strays_dedent (h : token.kind = .dedent) :
    (cons token outline).strays.length = outline.strays.length + 1 := by
  simp [cons, h]

theorem length_strays_indent (h : token.kind = .indent) :
    (cons token outline).strays.length = outline.strays.length - 1 := by
  obtain ⟨items, strays⟩ := outline
  cases strays <;> simp [cons, h]

theorem cons_content (h : token.kind.isStructural = false) :
    cons token outline = { outline with items := prepend token outline.items } := by
  unfold cons
  split
  · rename_i hkind
    simp [hkind, Token.Kind.isStructural] at h
  · rename_i hkind
    simp [hkind, Token.Kind.isStructural] at h
  · rename_i hkind
    simp [hkind, Token.Kind.isStructural] at h
  · rfl

end

theorem ofTokens_append (h : ∀ token ∈ front, token.kind ≠ .endOfInput) (rest : List Token) :
    ofTokens (front ++ rest) = front.foldr cons (ofTokens rest) := by
  rw [ofTokens, takeWhile_append_of_pos fun token htoken => by simpa using h token htoken,
    foldr_append, ofTokens]

theorem lines_foldr_marks {marks : List Token}
    (h : ∀ token ∈ marks, token.kind = .indent ∨ token.kind = .dedent) (outline : Outline) :
    (marks.foldr cons outline).lines = outline.lines := by
  induction marks with
  | nil => rfl
  | cons token marks ih =>
    obtain ⟨htoken, hmarks⟩ := forall_mem_cons.mp h
    rw [foldr_cons]
    rcases htoken with hkind | hkind
    · rw [lines_indent _ hkind, ih hmarks]
    · rw [lines_dedent _ hkind, ih hmarks]

/-- Only indents and dedents bear on the sections of an outline. -/
theorem strays_foldr {tokens : List Token}
    (h : ∀ token ∈ tokens, token.kind ≠ .indent ∧ token.kind ≠ .dedent) (outline : Outline) :
    (tokens.foldr cons outline).strays = outline.strays := by
  induction tokens with
  | nil => rfl
  | cons token tokens ih =>
    obtain ⟨htoken, htokens⟩ := forall_mem_cons.mp h
    rw [foldr_cons, ← ih htokens]
    unfold cons
    split
    · exact absurd ‹_› htoken.2
    · exact absurd ‹_› htoken.1
    · rfl
    · rfl

theorem foldr_cons_line {strays : List (Token × List Item)}
    (hitems : items = [] ∧ more = [] ∨ items = .newline :: more)
    (h : ∀ token ∈ first :: rest, token.kind.isStructural = false) :
    (first :: rest).foldr cons ⟨items, strays⟩ = ⟨.line first rest :: more, strays⟩ := by
  induction rest generalizing first with
  | nil =>
    rw [foldr_cons, foldr_nil, cons_content _ (h first mem_cons_self)]
    rcases hitems with ⟨rfl, rfl⟩ | rfl <;> rfl
  | cons second rest ih =>
    rw [foldr_cons, ih fun token htoken => h token (mem_cons_of_mem first htoken),
      cons_content _ (h first mem_cons_self)]
    rfl

/-! ## Neighbours -/

inductive Adjoin (a b : Item) : List Item → Prop where
  | here {rest : List Item} : Adjoin a b (a :: b :: rest)
  | later {item : Item} {items : List Item} (rest : Adjoin a b items) : Adjoin a b (item :: items)
  | inside {indent : Token} {items others : List Item} (inner : Adjoin a b items) :
      Adjoin a b (.block indent items :: others)

def Contains (a b : Item) (outline : Outline) : Prop :=
  Adjoin a b outline.items ∨ ∃ stray ∈ outline.strays, Adjoin a b stray.2

variable {a b : Item}

theorem Contains.cons {token : Token} (h : Contains a b outline)
    (hkind : token.kind = .indent ∨ token.kind = .dedent) :
    Contains a b (cons token outline) := by
  obtain ⟨items, strays⟩ := outline
  rcases hkind with hkind | hkind
  · cases strays with
    | nil =>
      simp only [Outline.cons, hkind]
      rcases h with hitems | ⟨stray, hstray, -⟩
      · exact .inl (.inside hitems)
      · cases hstray
    | cons first strays =>
      simp only [Outline.cons, hkind]
      rcases h with hitems | ⟨stray, hstray, hadjoin⟩
      · exact .inl (.inside hitems)
      · rcases mem_cons.mp hstray with rfl | hstray
        · exact .inl (.later hadjoin)
        · exact .inr ⟨stray, hstray, hadjoin⟩
  · simp only [Outline.cons, hkind]
    rcases h with hitems | ⟨stray, hstray, hadjoin⟩
    · exact .inr ⟨_, mem_cons_self, hitems⟩
    · exact .inr ⟨stray, mem_cons_of_mem _ hstray, hadjoin⟩

theorem Contains.marks {marks : List Token}
    (hmarks : ∀ token ∈ marks, token.kind = .indent ∨ token.kind = .dedent)
    (h : Contains a b outline) : Contains a b (marks.foldr Outline.cons outline) := by
  induction marks with
  | nil => exact h
  | cons token marks ih =>
    obtain ⟨htoken, hmarks⟩ := forall_mem_cons.mp hmarks
    exact (ih hmarks).cons htoken

/-! ## Outlines side by side -/

/-- Items of the same shape, related line by line and mark by mark. -/
inductive ItemsTwin (R : List Token → List Token → Prop) (M : Token → Token → Prop) :
    List Item → List Item → Prop where
  | nil : ItemsTwin R M [] []
  | newline {items items' : List Item} (more : ItemsTwin R M items items') :
      ItemsTwin R M (.newline :: items) (.newline :: items')
  | line {first first' : Token} {rest rest' : List Token} {items items' : List Item}
      (row : R (first :: rest) (first' :: rest')) (more : ItemsTwin R M items items') :
      ItemsTwin R M (.line first rest :: items) (.line first' rest' :: items')
  | block {indent indent' : Token} {inside inside' items items' : List Item}
      (mark : M indent indent') (inner : ItemsTwin R M inside inside')
      (more : ItemsTwin R M items items') :
      ItemsTwin R M (.block indent inside :: items) (.block indent' inside' :: items')

structure Twin (R : List Token → List Token → Prop) (M : Token → Token → Prop) (a b : Outline) :
    Prop where
  items : ItemsTwin R M a.items b.items
  strays : Forall₂ (fun stray other => M stray.1 other.1 ∧ ItemsTwin R M stray.2 other.2)
    a.strays b.strays

section

variable {R : List Token → List Token → Prop} {M : Token → Token → Prop} {items' : List Item}
  {t u : Token}

theorem ItemsTwin.lastToken {S : Token → Token → Prop} (h : ItemsTwin R M items items')
    (hrow : ∀ {t u ts us}, R (t :: ts) (u :: us) → S (ts.getLastD t) (us.getLastD u))
    (hlast : S t u) : S (lastToken t items) (lastToken u items') := by
  induction h generalizing t u with
  | nil => exact hlast
  | newline more ih => exact ih hlast
  | line row more ih => exact ih (hrow row)
  | block mark inner more ihInner ih => exact ih (ihInner hlast)

theorem ItemsTwin.imp_of_mem (h : ItemsTwin R M items items')
    (hS : ∀ row ∈ linesOf items, ∀ other ∈ linesOf items', R row other → S row other)
    (hN : ∀ t u, M t u → N t u) : ItemsTwin S N items items' := by
  induction h with
  | nil => exact .nil
  | newline more ih => exact .newline (ih hS)
  | line row more ih =>
    refine .line (hS _ mem_cons_self _ mem_cons_self row) (ih ?_)
    exact fun row hrow other hother =>
      hS row (mem_cons_of_mem _ hrow) other (mem_cons_of_mem _ hother)
  | block mark inner more ihInner ih =>
    refine .block (hN _ _ mark) (ihInner ?_) (ih ?_)
    · exact fun row hrow other hother =>
        hS row (mem_append_left _ hrow) other (mem_append_left _ hother)
    · exact fun row hrow other hother =>
        hS row (mem_append_right _ hrow) other (mem_append_right _ hother)

variable {a b : Outline}

theorem Twin.imp {S : List Token → List Token → Prop} {N : Token → Token → Prop}
    (h : Twin R M a b) (hS : ∀ row other, R row other → S row other)
    (hN : ∀ t u, M t u → N t u) : Twin S N a b := by
  refine ⟨h.items.imp_of_mem (fun row _ other _ => hS row other) hN, h.strays.imp ?_⟩
  exact fun stray other hstray =>
    ⟨hN _ _ hstray.1, hstray.2.imp_of_mem (fun row _ other _ => hS row other) hN⟩

theorem Twin.strays_eq_nil (h : Twin R M a b) (hstrays : a.strays = []) : b.strays = [] := by
  have hrel := h.strays
  rw [hstrays] at hrel
  exact forall₂_nil_left_iff.mp hrel

theorem Twin.cons (h : Twin R M a b) (hkind : u.kind = t.kind)
    (hmark : t.kind = .indent ∨ t.kind = .dedent → M t u)
    (hcontent : ¬ (t.kind = .indent ∨ t.kind = .dedent) →
      ItemsTwin R M (prepend t a.items) (prepend u b.items)) :
    Twin R M (cons t a) (cons u b) := by
  obtain ⟨items, strays⟩ := a
  obtain ⟨items', strays'⟩ := b
  unfold Outline.cons
  rw [hkind]
  split
  · rename_i hdedent
    exact ⟨.nil, .cons ⟨hmark (.inr hdedent), h.items⟩ h.strays⟩
  · rename_i hindent
    cases h.strays with
    | nil => exact ⟨.block (hmark (.inl hindent)) h.items .nil, .nil⟩
    | cons first rest => exact ⟨.block (hmark (.inl hindent)) h.items first.2, rest⟩
  · exact ⟨.newline h.items, h.strays⟩
  · rename_i hdedent hindent hnewline
    exact ⟨hcontent fun hkind => hkind.elim hindent hdedent, h.strays⟩

theorem Twin.marks (h : Twin R M a b) {marks marks' : List Token}
    (hmarks : Forall₂ (fun t u => M t u ∧ u.kind = t.kind ∧ (t.kind = .indent ∨ t.kind = .dedent))
      marks marks') :
    Twin R M (marks.foldr Outline.cons a) (marks'.foldr Outline.cons b) := by
  induction hmarks with
  | nil => exact h
  | cons first rest ih =>
    obtain ⟨hmark, hkind, hshape⟩ := first
    exact ih.cons hkind (fun _ => hmark) fun hcontent => absurd hshape hcontent

/-- Tokens that keep their kinds keep the outline. -/
theorem twin_map {f : Token → Token} (hf : ∀ token, (f token).kind = token.kind)
    (tokens : List Token) :
    Twin (fun row other => row.map f = other) (f · = ·) (ofTokens tokens)
      (ofTokens (tokens.map f)) := by
  have hends : (tokens.map f).takeWhile (·.kind ≠ .endOfInput) =
      (tokens.takeWhile (·.kind ≠ .endOfInput)).map f := by
    simp only [takeWhile_map, Function.comp_def, hf]
  rw [ofTokens, ofTokens, hends]
  induction tokens.takeWhile (·.kind ≠ .endOfInput) with
  | nil => exact ⟨.nil, .nil⟩
  | cons token tokens ih =>
    refine ih.cons (hf token) (fun _ => rfl) fun _ => ?_
    have hitems := ih.items
    generalize (tokens.foldr Outline.cons ⟨[], []⟩).items = items at hitems ⊢
    generalize ((tokens.map f).foldr Outline.cons ⟨[], []⟩).items = items' at hitems ⊢
    cases hitems with
    | nil => exact .line rfl .nil
    | newline more => exact .line rfl more
    | line row more => exact .line (congrArg (f token :: ·) row) more
    | block mark inner more => exact .line rfl (.block mark inner more)

end

end GuidedTrack.Outline
