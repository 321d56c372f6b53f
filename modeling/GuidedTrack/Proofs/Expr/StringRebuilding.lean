import GuidedTrack.Proofs.Expr.LeafOrigins

/-! # Strings rebuilt from their parts

The parts of a string literal give its content back: text stands for itself, and an expression for
the fragment it was read from, between its braces. The fragments are what the outermost balanced
pairs of braces hold, each read at the place where it really stands, and an unbalanced rest is text.
The same is true of the literals inside the fragments.
-/

namespace GuidedTrack.Expr

open List

variable {depth n : Nat} {content rest cs : List Char} {token : Token}

/-! ## Parts -/

def Piece.source : Piece → List Char
  | text content => content
  | braced _ content => '{' :: content ++ ['}']

theorem flatMap_source_textPiece (cs : List Char) : (textPiece cs).flatMap Piece.source = cs := by
  unfold textPiece
  split
  · rename_i hempty
    rw [List.isEmpty_iff.mp hempty]
    rfl
  · simp [Piece.source]

theorem Outermost.flatMap_source {index : Nat} {list : List Piece} (h : Outermost index cs list) :
    list.flatMap Piece.source = cs := by
  induction h with
  | text none | unbalanced first none => exact flatMap_source_textPiece _
  | pair first balanced more ih =>
    rw [flatMap_append, flatMap_cons, flatMap_source_textPiece, ih]
    simp [Piece.source]

/-- What a part stands for in the literal: text for itself, an expression for its fragment between
braces. -/
def rebuild : Piece → Part → List Char
  | _, .text text => text.toList
  | .braced _ content, .expr _ => '{' :: content ++ ['}']
  | .text _, .expr _ => []

theorem Fills.rebuild_eq {piece : Piece} {part : Part} (h : Fills token piece part) :
    rebuild piece part = piece.source := by
  cases piece with
  | text content =>
    rw [Fills] at h
    rw [h, rebuild, String.toList_ofList, Piece.source]
  | braced place content =>
    obtain ⟨value?, -, rfl⟩ := h
    cases value? with
    | none => rw [bracedPart, rebuild, String.toList_ofList, Piece.source]
    | some value => rfl

theorem flatten_rebuild {list : List Piece} {parts : List Part}
    (h : Forall₂ (Fills token) list parts) :
    (zipWith rebuild list parts).flatten = list.flatMap Piece.source := by
  induction h with
  | nil => rfl
  | cons fills more ih => rw [zipWith_cons_cons, flatten_cons, fills.rebuild_eq, ih]; rfl

/-- The parts of the literal at `token`: one for each piece of its content, as that is read, which
together give the content back. -/
def Rebuilds (token : Token) (parts : List Part) : Prop :=
  ∃ fragments, Outermost 0 (unquoted token.text) fragments ∧
    Forall₂ (Fills token) fragments parts ∧
    (zipWith rebuild fragments parts).flatten = unquoted token.text

theorem rebuilds_of_fills {parts : List Part}
    (h : Forall₂ (Fills token) (pieces 0 (unquoted token.text)) parts) : Rebuilds token parts :=
  ⟨_, outermost_pieces 0 _, h, (flatten_rebuild h).trans (outermost_pieces 0 _).flatMap_source⟩

/-- The nodes of strings with embedded expressions are rebuilt from their parts. -/
def IsRebuilt (token : Token) (node : Node) : Prop :=
  ∀ span parts, node = .expr (.interpolated span parts) →
    ∃ inner, Within token inner ∧ inner.kind = .string ∧ inner.span = span ∧
      '{' ∈ unquoted inner.text ∧ Rebuilds inner parts

/-- A literal with a brace is read whenever its numerals can be, and however it is read, its parts
give its content back; so do the parts of every literal inside it. -/
theorem readString_rebuilds (hkind : token.kind = .string) (hbrace : '{' ∈ unquoted token.text)
    (hdepth : token.text.length ≤ depth) :
    (Convertible token → ∃ value faults, readString depth token = .ok (value, faults)) ∧
      ∀ value faults, readString depth token = .ok (value, faults) →
        (∃ parts, value = .interpolated token.span parts ∧ Rebuilds token parts) ∧
        ∀ node ∈ (Node.expr value).walk, IsRebuilt token node := by
  refine ⟨fun hconvertible => ?_, fun value faults hread => ⟨?_, ?_⟩⟩
  · obtain ⟨value, faults, hread, -⟩ := hconvertible.readsAs hkind hdepth
    exact ⟨value, faults, hread⟩
  · obtain ⟨parts, hvalue, hfills⟩ := fills_of_readString hread hbrace hdepth
    exact ⟨parts, hvalue, rebuilds_of_fills hfills⟩
  · have hother {node : Node} (h : ∀ span parts, node ≠ .expr (.interpolated span parts)) :
        IsRebuilt token node := fun span parts hnode => absurd hnode (h span parts)
    refine deep_of_readString (fun node hleaf => hother ?_) hread hkind hdepth
      fun inner hwithin => ⟨fun _ n => hother (by simp), fun raw n _ => hother (by simp),
        fun _ => hother (by simp), fun _ => hother (by simp), ?_⟩
    · rintro span parts rfl
      cases hleaf
    · rintro hstring hopen parts hfills span others ⟨⟩
      exact ⟨inner, hwithin, hstring, rfl, hopen, rebuilds_of_fills hfills⟩

/-- A literal inside a fragment, and a brace that nothing closes. -/
theorem readString_rebuilds_nested :
    let token := Token.covering .string "\"\x7b\"\x7bx\x7d\"\x7d\x7b\"" .origin 10
    token.kind = .string ∧ '{' ∈ unquoted token.text ∧ token.text.length ≤ 10 ∧
      ∃ value faults, readString 10 token = .ok (value, faults) ∧
        (Node.expr value).walk.length = 3 ∧
        (∃ parts, value = .interpolated token.span parts ∧ Rebuilds token parts) ∧
        ∀ node ∈ (Node.expr value).walk, IsRebuilt token node := by
  intro token
  have hbrace : '{' ∈ unquoted token.text := by decide
  have hlength : token.text.length ≤ 10 := by decide
  obtain ⟨⟨value, faults⟩, hread, hcount⟩ := exists_ok_of_any (readString 10 token)
    (fun result => (Node.expr result.1).walk.length == 3) (by decide +kernel)
  exact ⟨rfl, hbrace, hlength, value, faults, hread, beq_iff_eq.mp hcount,
    (readString_rebuilds rfl hbrace hlength).2 value faults hread⟩

/-- A digit that is no decimal digit stops the reading of the whole literal. -/
theorem readString_unreadable :
    let token := Token.covering .string "\"\x7b²\x7d\"" .origin 5
    token.kind = .string ∧ '{' ∈ unquoted token.text ∧
      ∃ error, readString token.text.length token = .error error := by
  intro token
  have herror : (readString token.text.length token).toOption = none := by decide +kernel
  cases hread : readString token.text.length token with
  | error error => exact ⟨rfl, by decide, error, rfl⟩
  | ok result =>
    rw [hread] at herror
    cases herror

end GuidedTrack.Expr
