import GuidedTrack.Proofs.Expr.PairedReadings
import GuidedTrack.Proofs.Token.LineLocality
import GuidedTrack.Proofs.TreeRelocation

/-! # Expressions read at other places

Where the tokens of an expression stand decides where its tree and its faults stand, and nothing
else: tokens some lines down and some characters further on are read as the same tree with the same
faults, as far down and as far on. `Carries` says so of a reader; its rules follow the way readers
are put together.
-/

namespace GuidedTrack

open List GuidedTrack.Expr Reader

/-- A map of places that takes all of them as many lines down and as many characters further on. -/
def IsShift (m : Position → Position) : Prop :=
  ∃ lines chars : Int, m = Position.shift lines 0 chars

namespace IsShift

variable {m : Position → Position}

theorem advance (h : IsShift m) (p : Position) (n : Nat) : m (p.advance n) = (m p).advance n := by
  obtain ⟨lines, chars, rfl⟩ := h
  exact (Position.shift_advance lines 0 chars p n).symm

theorem scanExpressionLines (h : IsShift m) (p : Position) (lines : List Source.Line) :
    Token.scanExpressionLines (m p) lines =
      (Token.scanExpressionLines p lines).map (Token.relocate m) := by
  obtain ⟨down, chars, rfl⟩ := h
  simp only [Token.scanExpressionLines_shift, ite_self]
  rfl

theorem ofExpression (h : IsShift m) (text : String) (origin : Position) :
    Token.ofExpression text (m origin) = (Token.ofExpression text origin).map (Token.relocate m) :=
  h.scanExpressionLines origin _

end IsShift

def Expr.moving (m : Position → Position) : Pairing where
  token t u := u = t.relocate m
  place := Moves m
  expr a b := b = a.relocate m
  entry a b := b = a.relocate m

theorem eq_map_of_forall₂ {α : Type} {f : α → α} {l l' : List α}
    (h : Forall₂ (fun a b => b = f a) l l') : l' = l.map f := by
  induction h with
  | nil => rfl
  | cons hfirst _ ih => rw [hfirst, ih, map_cons]

variable {m : Position → Position}

theorem IsShift.lawful (h : IsShift m) : (moving m).Lawful := by
  constructor
  case negated =>
    rintro t _ value raw rfl
    simp only [moving, relocate, Span.relocate, h.advance]
    rfl
  case embedded =>
    rintro t _ place content rfl - -
    have horigin : (t.relocate m).span.start.advance (place + 1) =
        m (t.span.start.advance (place + 1)) := (h.advance _ _).symm
    rw [embedded, embedded, horigin, h.ofExpression, ← map_dropLast]
    exact forall₂_map_right_iff.mpr (forall₂_same.mpr fun _ _ => rfl)
  case interpolated =>
    rintro t _ cs ds rfl hparts
    have hparts : ds = cs.map (Part.relocate m) := by
      refine eq_map_of_forall₂ (hparts.imp fun a b hpart => ?_)
      cases a <;> cases b <;> cases hpart <;> rfl
    simp [moving, relocate, hparts]
    rfl
  case shape =>
    rintro t _ rfl
    exact ⟨rfl, rfl⟩
  case start | stop | literal | identifier =>
    intros
    subst_vars
    rfl
  case join =>
    rintro a _ c _ op rfl rfl
    exact join_relocate op a c
  case call =>
    rintro t _ a _ cs ds rfl rfl hlist
    simp [moving, relocate, eq_map_of_forall₂ hlist, Span.relocate, Token.relocate]
  case array | object =>
    rintro t _ u _ cs ds rfl rfl hlist
    simp [moving, relocate, eq_map_of_forall₂ hlist, Span.relocate, Token.relocate]
  case unary | index | member | entry =>
    intros
    simp_all [moving, relocate, Entry.relocate, Name.relocate, Span.relocate, Token.relocate]

/-- Tokens further down and further on are read as the same expression, as far down and as far on.
-/
theorem Expr.ofTokens_relocate (hm : IsShift m) (assignment : Bool) (anchor : Position)
    (tokens : List Token) :
    ofTokens assignment (m anchor) (tokens.map (Token.relocate m)) =
      (ofTokens assignment anchor tokens).map fun result =>
        (result.1.map (relocate m), result.2.map (Fault.relocate m)) := by
  have htokens : Forall₂ (moving m).token tokens (tokens.map (Token.relocate m)) :=
    forall₂_map_right_iff.mpr (forall₂_same.mpr fun _ _ => rfl)
  have hgives := hm.lawful.ofTokens htokens (p := anchor) rfl assignment
  generalize ofTokens assignment anchor tokens = result,
    ofTokens assignment (m anchor) (tokens.map (Token.relocate m)) = result' at hgives
  cases hgives with
  | error => rfl
  | @ok value? other? faults others hvalue hfaults =>
    obtain rfl : others = faults.map (Fault.relocate m) := by
      refine eq_map_of_forall₂ (hfaults.imp fun a b hpaired => ?_)
      obtain ⟨position, cause⟩ := b
      obtain ⟨rfl, rfl, -⟩ := hpaired
      rfl
    cases hvalue with
    | none => rfl
    | some hvalue =>
      cases hvalue
      rfl

end GuidedTrack
