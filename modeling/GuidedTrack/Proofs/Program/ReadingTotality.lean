import GuidedTrack.Proofs.Program.RelocatedReadings
import GuidedTrack.Proofs.Token.LegibleNumerals

/-! # Only numerals stop a reading

Whatever the tokens are, reading them comes to an end with a program, unless a numeral among them
cannot be read, or one that is scanned out of an argument or out of a literal.
-/

namespace GuidedTrack

open List Outline Numeral

variable {tokens : List Token} {source : String} {row rest : List Token} {token first : Token}

/-! ## Lines of an outline -/

namespace Outline

/-- Every line is a stretch of the tokens, and the first item is at their front if it is a line. -/
structure Cuts (tokens : List Token) (outline : Outline) : Prop where
  lines : ∀ row ∈ outline.lines, row <:+: tokens
  front : ∀ first rest more, outline.items = .line first rest :: more → first :: rest <+: tokens

theorem Cuts.cons {tokens : List Token} {outline : Outline} (h : Cuts tokens outline)
    (token : Token) : Cuts (token :: tokens) (cons token outline) := by
  obtain ⟨items, strays⟩ := outline
  obtain ⟨hlines, hfront⟩ := h
  have hlater {row : List Token} (hrow : row ∈ Outline.lines ⟨items, strays⟩) :
      row <:+: token :: tokens := (hlines row hrow).trans (suffix_cons token tokens).isInfix
  unfold Outline.cons
  split
  · refine ⟨fun row hrow => hlater ?_, fun _ _ _ heq => by cases heq⟩
    simpa [Outline.lines, linesOf] using hrow
  · cases strays with
    | nil =>
      refine ⟨fun row hrow => hlater ?_, fun _ _ _ heq => by cases heq⟩
      simpa [Outline.lines, linesOf, Item.lines] using hrow
    | cons stray strays =>
      refine ⟨fun row hrow => hlater ?_, fun _ _ _ heq => by cases heq⟩
      simpa [Outline.lines, linesOf, Item.lines, or_assoc] using hrow
  · refine ⟨fun row hrow => hlater ?_, fun _ _ _ heq => by cases heq⟩
    simpa [Outline.lines, linesOf, Item.lines] using hrow
  · -- the token joins the line behind it, at the front of the tokens, or is a line alone
    have halone (others : List Item) (hothers : ∀ row ∈ Outline.lines ⟨others, strays⟩,
        row <:+: token :: tokens) {heading : List Token}
        (hheading : token :: heading <+: token :: tokens) :
        Cuts (token :: tokens) ⟨.line token heading :: others, strays⟩ := by
      refine ⟨fun row hrow => ?_, fun _ _ _ heq => ?_⟩
      · rw [Outline.lines, linesOf, Item.lines, append_assoc, singleton_append,
          mem_cons] at hrow
        rcases hrow with rfl | hrow
        · exact hheading.isInfix
        · exact hothers row hrow
      · cases heq
        exact hheading
    have hsingle : [token] <+: token :: tokens := ⟨tokens, rfl⟩
    cases items with
    | nil => exact halone _ (fun row => hlater) hsingle
    | cons item items =>
      cases item with
      | newline =>
        refine halone items (fun row hrow => hlater ?_) hsingle
        exact hrow
      | block indent inside => exact halone _ (fun row => hlater) hsingle
      | line first rest =>
        refine halone _ (fun row hrow => hlater ?_) ?_
        · exact mem_cons_of_mem _ hrow
        · exact cons_prefix_cons.mpr ⟨rfl, hfront first rest items rfl⟩

end Outline

namespace Program

open GuidedTrack.Expr (Convertible)
open Outline (Item linesOf)

def Ends {α : Type} (x : Recorder α) : Prop :=
  ∀ before, ∃ result, x.run before = .ok result

namespace Ends

variable {α β : Type}

theorem pure (value : α) : Ends (Pure.pure value : Recorder α) :=
  fun before => ⟨(value, before), rfl⟩

theorem bind {x : Recorder α} {f : α → Recorder β} (hx : Ends x) (hf : ∀ value, Ends (f value)) :
    Ends (x >>= f) := by
  intro before
  obtain ⟨⟨value, after⟩, hresult⟩ := hx before
  rw [StateT.run_bind, hresult]
  exact hf value after

theorem record (position : Position) (cause : Fault.Cause) : Ends (record position cause) :=
  fun _ => ⟨_, rfl⟩

theorem readExpr (h : ∀ token ∈ tokens, Convertible token) (assignment : Bool) (anchor : Token) :
    Ends (readExpr assignment anchor tokens) := by
  intro before
  obtain ⟨value?, faults, hresult, -⟩ := Expr.ofTokensWith_iff assignment anchor.span.start
    fun token htoken => ((h token htoken).settles (Expr.text_le_depth htoken)).readable
  change Expr.ofTokens assignment anchor.span.start tokens = _ at hresult
  unfold Program.readExpr
  rw [hresult]
  exact ⟨_, rfl⟩

end Ends

theorem ends_readParts (h : ∀ token ∈ tokens, Convertible token) (cursor : Option Int)
    (text : String) : Ends (readParts cursor text tokens) := by
  induction tokens using parts_induction generalizing cursor text with
  | nil =>
    rw [readParts]
    exact .pure _
  | comment token rest hkind ih =>
    rw [readParts_comment _ _ _ hkind]
    exact ih (forall_mem_cons.mp h).2 _ _
  | plain token rest hcomment hstart ih =>
    rw [readParts_plain _ _ _ hcomment hstart]
    exact ih (forall_mem_cons.mp h).2 _ _
  | unclosed token inner hkind hinner =>
    rw [readParts_open _ _ hkind hinner]
    exact (Ends.readExpr (forall_mem_cons.mp h).2 _ _).bind fun _ =>
      (Ends.record _ _).bind fun _ => .pure _
  | hole token inner close more hkind hinner hclose ih =>
    obtain ⟨hinside, hrest⟩ := forall_mem_append.mp (forall_mem_cons.mp h).2
    rw [readParts_hole _ _ hkind hinner hclose]
    exact (Ends.readExpr hinside _ _).bind fun _ =>
      (ih (forall_mem_cons.mp hrest).2 _ _).bind fun _ => .pure _

theorem ends_readProse (h : ∀ token ∈ first :: rest, Convertible token) :
    Ends (readProse first rest) :=
  (ends_readParts h _ _).bind fun _ => .pure _

def Role.isDirective : Role → Bool
  | keyword | subKeyword _ | strayDirective => true
  | comment | expression | answer | prose => false

theorem Role.isDirective_of {parent : Option String} {first : Token}
    (h : (Role.of parent first).isDirective = true) : first.kind.isDirective = true := by
  unfold Role.of at h
  split at h
  case h_3 hkind | h_4 hkind | h_5 hkind =>
    rw [hkind]
    rfl
  all_goals cases h

/-- A line all of whose numerals can be read, those of its argument included. -/
structure Legible (first : Token) (rest : List Token) : Prop where
  tokens : ∀ token ∈ first :: rest, Convertible token
  argument : first.kind.isDirective = true → ∀ colon second more, rest = colon :: second :: more →
    colon.kind = .colon → ∀ token ∈ expressionTokens second more, Convertible token

namespace Legible

variable {first : Token} {rest : List Token}

theorem readArgument (h : Legible first rest) (hkind : first.kind.isDirective = true)
    (parent : Option String) (name : String) : Ends (readArgument parent name first rest) := by
  unfold Program.readArgument
  split
  · exact .pure _
  · rename_i colon more
    split
    · rename_i hcolon
      cases more with
      | nil => exact .pure _
      | cons second more =>
        dsimp only
        split
        · exact (Ends.readExpr (h.argument hkind colon second more rfl hcolon) _ _).bind
            fun value? => .pure _
        · have hmore : ∀ token ∈ second :: more, Convertible token := fun token htoken =>
            h.tokens token (mem_cons_of_mem _ (mem_cons_of_mem _ htoken))
          exact (ends_readProse hmore).bind fun _ => .pure _
    · split
      · exact .pure _
      · exact (Ends.record _ _).bind fun _ => .pure _

theorem readHeading (h : Legible first rest) (parent : Option String) :
    Ends (readHeading (Role.of parent first) first rest) := by
  have hargument (hkind : first.kind.isDirective = true) (parent : Option String) :=
    h.readArgument hkind parent (Text.lower first.text)
  have hprose := ends_readProse h.tokens
  have hdirective := @Role.isDirective_of parent first
  cases hrole : Role.of parent first with
  | comment => exact .pure _
  | expression =>
    refine (Ends.readExpr (fun token htoken => h.tokens token ?_) _ _).bind fun value? => .pure _
    exact mem_cons_of_mem first htoken
  | keyword =>
    exact (hargument (hdirective (by simp [hrole, Role.isDirective])) none).bind fun _ => .pure _
  | strayDirective =>
    exact (Ends.record _ _).bind fun _ =>
        (hargument (hdirective (by simp [hrole, Role.isDirective])) none).bind fun _ => .pure _
  | subKeyword owner =>
    exact (hargument (hdirective (by simp [hrole, Role.isDirective])) (some owner)).bind
      fun _ => .pure _
  | answer | prose => exact hprose.bind fun _ => .pure _

end Legible

end Program
end GuidedTrack
