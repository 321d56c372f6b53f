import GuidedTrack.Proofs.Expr.FaultPlaces
import GuidedTrack.Proofs.Program.ReadingRelation

/-! # Recorded faults

Reading adds faults and takes none back. The lines of a block never give the fault of a dedent that
closes nothing: only the sections of an outline do. A document is read without faults if its lines
are.
-/

namespace GuidedTrack.Program

open List

open Outline (Item)

variable {α β : Type} {before after : List Fault} {parent : Option String} {cause : Fault.Cause}
  {items : List Item} {nodes : List Node}

def Adds (x : Recorder α) : Prop :=
  ∀ before value after, x.run before = .ok (value, after) →
    ∃ found, after = before ++ found ∧ ∀ fault ∈ found, fault.cause ≠ .unexpectedDedent

namespace Adds

theorem pure (value : α) : Adds (Pure.pure value : Recorder α) := by
  intro before _ after h
  cases h
  exact ⟨[], (append_nil _).symm, by simp⟩

theorem bind {x : Recorder α} {f : α → Recorder β} (hx : Adds x) (hf : ∀ a, Adds (f a)) :
    Adds (x >>= f) := by
  intro before value after h
  obtain ⟨a, mid, hfirst, hrest⟩ := exists_of_run_bind h
  obtain ⟨found, rfl, hfound⟩ := hx before a mid hfirst
  obtain ⟨more, rfl, hmore⟩ := hf a _ value after hrest
  exact ⟨found ++ more, append_assoc _ _ _, forall_mem_append.mpr ⟨hfound, hmore⟩⟩

end Adds

theorem adds_record (position : Position) (h : cause ≠ .unexpectedDedent) :
    Adds (record position cause) := by
  intro before _ after hrun
  cases hrun
  exact ⟨_, rfl, forall_mem_singleton.mpr h⟩

theorem ne_unexpectedDedent_of_isOfCode (h : cause.isOfCode = true) :
    cause ≠ .unexpectedDedent := by
  rintro rfl
  cases h

theorem adds_readExpr (assignment : Bool) (anchor : Token) (tokens : List Token) :
    Adds (readExpr assignment anchor tokens) := by
  intro before value after h
  obtain ⟨faults, hread, rfl⟩ := run_readExpr h
  exact ⟨faults, rfl, fun fault hfault =>
    ne_unexpectedDedent_of_isOfCode (Expr.causes_ofTokens hread fault hfault)⟩

theorem adds_readParts (cursor : Option Int) (text : String) (tokens : List Token) :
    Adds (readParts cursor text tokens) := by
  induction tokens using parts_induction generalizing cursor text with
  | nil =>
    rw [readParts]
    exact .pure _
  | comment token rest hkind ih =>
    rw [readParts_comment _ _ _ hkind]
    exact ih _ _
  | plain token rest hcomment hstart ih =>
    rw [readParts_plain _ _ _ hcomment hstart]
    exact ih _ _
  | unclosed token inner hkind hinner =>
    rw [readParts_open _ _ hkind hinner]
    exact (adds_readExpr _ _ _).bind fun _ => (adds_record _ (by decide)).bind fun _ => .pure _
  | hole token inner close more hkind hinner hclose ih =>
    rw [readParts_hole _ _ hkind hinner hclose]
    exact (adds_readExpr _ _ _).bind fun _ => (ih _ _).bind fun _ => .pure _

theorem adds_readProse (first : Token) (rest : List Token) : Adds (readProse first rest) :=
  (adds_readParts _ _ _).bind fun _ => .pure _

theorem adds_readArgument (parent : Option String) (name : String) (head : Token)
    (tokens : List Token) : Adds (readArgument parent name head tokens) := by
  unfold readArgument
  split
  · exact .pure _
  · split
    · split
      · exact .pure _
      · split
        · exact (adds_readExpr _ _ _).bind fun _ => .pure _
        · exact (adds_readProse _ _).bind fun _ => .pure _
    · split
      · exact .pure _
      · exact (adds_record _ (by simp)).bind fun _ => .pure _

theorem Heads.adds {first : Token} {line : List Token} {heading : Heading}
    (h : Heads parent first line before heading after) :
    ∃ found, after = before ++ found ∧ ∀ fault ∈ found, fault.cause ≠ .unexpectedDedent := by
  cases h with
  | comment kind => exact ⟨[], (append_nil _).symm, by simp⟩
  | expression kind value =>
    exact ⟨_, rfl, fun fault hfault =>
      ne_unexpectedDedent_of_isOfCode (Expr.causes_ofTokens value fault hfault)⟩
  | keyword kind reads | subKeyword kind owned reads => exact adds_readArgument _ _ _ _ _ _ _ reads
  | stray kind alone reads =>
    obtain ⟨found, rfl, hfound⟩ := adds_readArgument _ _ _ _ _ _ _ reads
    exact ⟨_, append_assoc _ _ _,
      forall_mem_append.mpr ⟨forall_mem_singleton.mpr (by simp), hfound⟩⟩
  | answer kind owned reads | prose kind alone reads => exact adds_readProse _ _ _ _ _ reads

theorem Reads.adds (h : Reads parent items before nodes after) :
    ∃ found, after = before ++ found ∧ ∀ fault ∈ found, fault.cause ≠ .unexpectedDedent := by
  induction h with
  | nil => exact ⟨[], (append_nil _).symm, by simp⟩
  | newline rest ih => exact ih
  | block inner rest ihInner ih =>
    obtain ⟨found, rfl, hfound⟩ := ihInner
    obtain ⟨more, rfl, hmore⟩ := ih
    refine ⟨_, by rw [append_assoc, append_assoc], forall_mem_append.mpr
      ⟨forall_mem_singleton.mpr (by simp), forall_mem_append.mpr ⟨hfound, hmore⟩⟩⟩
  | line owns taken heads inner rest ihInner ih =>
    obtain ⟨own, rfl, hown⟩ := heads.adds
    obtain ⟨found, rfl, hfound⟩ := ihInner
    obtain ⟨more, rfl, hmore⟩ := ih
    refine ⟨_, by rw [append_assoc, append_assoc], forall_mem_append.mpr
      ⟨hown, forall_mem_append.mpr ⟨hfound, hmore⟩⟩⟩

theorem Reads.subset (h : Reads parent items before nodes after) : before ⊆ after := by
  obtain ⟨found, rfl, -⟩ := h.adds
  exact subset_append_left _ _

/-! ## Readings without faults -/

def Clean (x : Recorder α) (a : α) : Prop :=
  x.run [] = .ok (a, [])

theorem Clean.pure (a : α) : Clean (Pure.pure a : Recorder α) a :=
  rfl

theorem Clean.bind (hx : Clean x a) (hf : Clean (f a) b) : Clean (x >>= f) b := by
  unfold Clean at hx hf ⊢
  rw [StateT.run_bind, hx]
  exact hf

theorem readOutline_eq {outline : Outline} (hstrays : outline.strays = []) :
    readOutline outline = (do
      let block ← readItems none outline.items
      return block.body) := by
  rw [readOutline, hstrays, readSections]
  simp

theorem ofTokens_of_clean {tokens : List Token} {block : Block}
    (hstrays : (Outline.ofTokens tokens).strays = [])
    (h : Clean (readItems none (Outline.ofTokens tokens).items) block) :
    ofTokens tokens = .ok (⟨⟨.origin, (tokens.getLast?.map fun token => token.span.stop).getD
        .origin⟩,
      block.body⟩, []) := by
  unfold Clean at h
  rw [ofTokens, readOutline_eq hstrays, StateT.run_bind, h]
  rfl

end GuidedTrack.Program
