import GuidedTrack.Proofs.Expr.PairedReadings
import GuidedTrack.Proofs.Expr.SpanNesting

/-! # Where faults are found

Every fault of an expression is found at one of its tokens, at the end of the last, or at the token
that the expression belongs to, and it says what the expression lacks. So the faults of tokens that
stand on one line are faults of that line, those inside string literals included.
-/

namespace GuidedTrack

open List

variable {assignment : Bool} {faults : List Fault} {tokens : List Token} {value? : Option Expr}
  {anchor : Position}

namespace Expr

variable {P : Position → Prop} {Q : Token → Prop}

structure Embedding (P : Position → Prop) (Q : Token → Prop) : Prop where
  start : ∀ token, Q token → P token.span.start
  stop : ∀ token, Q token → P token.span.stop
  inner : ∀ token, Q token → token.kind = .string → ∀ place content,
    Piece.braced place content ∈ pieces 0 (unquoted token.text) →
      ∀ other ∈ embedded token place content, Q other

theorem embedding_solid : Embedding P fun token => ∃ piece, token.Solid P piece := by
  refine ⟨?_, ?_, ?_⟩
  · rintro token ⟨piece, hsolid⟩
    exact hsolid.start_place
  · rintro token ⟨piece, hsolid⟩
    exact hsolid.stop_place
  · rintro token ⟨piece, hsolid⟩ hkind place content hmem
    exact (embeds_pieces hsolid hkind place content hmem).solidChain.solid

def siting (P : Position → Prop) (Q : Token → Prop) : Pairing where
  token t u := u = t ∧ Q t
  place p _ := P p
  expr _ _ := True
  entry _ _ := True

theorem Embedding.lawful (h : Embedding P Q) : (siting P Q).Lawful := by
  constructor
  case shape =>
    rintro t _ ⟨rfl, -⟩
    exact ⟨rfl, rfl⟩
  case start => exact fun htoken => h.start _ htoken.2
  case stop => exact fun htoken => h.stop _ htoken.2
  case embedded =>
    rintro t _ place content ⟨rfl, htoken⟩ hkind hmem
    exact forall₂_same.mpr fun other hother => ⟨rfl, h.inner _ htoken hkind _ _ hmem other hother⟩
  all_goals
    intros
    trivial

/-- The faults of tokens that stand where `P` holds are found there, or at the anchor. -/
theorem Embedding.found (h : Embedding P Q)
    (hread : ofTokens assignment anchor tokens = .ok (value?, faults))
    (htokens : ∀ token ∈ tokens, Q token) (hanchor : P anchor) :
    ∀ fault ∈ faults, P fault.position ∧ fault.cause.isOfCode = true := by
  have hgives := h.lawful.ofTokens (forall₂_same.mpr fun token htoken =>
      ⟨rfl, htokens token htoken⟩)
    (q := anchor) hanchor assignment
  rw [hread] at hgives
  cases hgives with
  | ok _ hfaults =>
    intro fault hfault
    have hpaired := forall₂_same.mp hfaults fault hfault
    exact ⟨hpaired.place, hpaired.code⟩

theorem faults_ofTokens (h : ofTokens assignment anchor tokens = .ok (value?, faults))
    (htokens : ∀ token ∈ tokens, ∃ piece, token.Solid P piece) (hanchor : P anchor) :
    ∀ fault ∈ faults, P fault.position :=
  fun fault hfault => (embedding_solid.found h htokens hanchor fault hfault).1

/-- Tokens on a line that give no tree have a fault on that line. -/
theorem exists_fault_of_none {line : Int}
    (h : ofTokens assignment anchor tokens = .ok (none, faults))
    (htokens : ∀ token ∈ tokens, ∃ piece, token.Solid (fun p => p.line = line) piece)
    (hanchor : anchor.line = line) : ∃ fault ∈ faults, fault.position.line = line := by
  have hplaces := faults_ofTokens h htokens hanchor
  rcases whole_of_ofTokensWith (p := fun _ => True) h (fun _ _ => trivial) with
    ⟨value, hvalue, -⟩ | ⟨-, hfilled⟩
  · cases hvalue
  · obtain ⟨fault, hfault⟩ := exists_mem_of_ne_nil faults hfilled
    exact ⟨fault, hfault, hplaces fault hfault⟩

/-- Whatever the tokens are, their faults are those of an expression. -/
theorem causes_ofTokens (h : ofTokens assignment anchor tokens = .ok (value?, faults)) :
    ∀ fault ∈ faults, fault.cause.isOfCode = true := by
  have hany : Embedding (fun _ => True) fun _ => True :=
    ⟨fun _ _ => trivial, fun _ _ => trivial, fun _ _ _ _ _ _ _ _ => trivial⟩
  exact fun fault hfault => (hany.found h (fun _ _ => trivial) trivial fault hfault).2

end Expr
end GuidedTrack
