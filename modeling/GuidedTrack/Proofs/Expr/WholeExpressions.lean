import GuidedTrack.Proofs.Expr.ReaderCompleteness

/-! # Whole expressions and assignments

A list of tokens is read as one expression if the grammar derives it as a whole. Where assignments
are allowed, `target = value` comes first: the target is a suffixed expression and the value any
expression, so `x = a or b` assigns where the grammar alone compares.
-/

namespace GuidedTrack.Expr

open Reader List Phrase

variable {S : Token → Expr → Prop} {strings : StringReader} {p : Fault → Prop} {assignment : Bool}
  {value : Expr} {ts rest : List Token}

def Assigns (S : Token → Expr → Prop) (ts rest : List Token) (value : Expr) : Prop :=
  ∃ target token us source, Derives S .suffixed ts (token :: us) target ∧ Spells token .equal ∧
    Derives S .whole us rest source ∧ value = join .equal target source

/-- The tokens are one expression, or one assignment where these are allowed. -/
def Whole (S : Token → Expr → Prop) (assignment : Bool) (ts : List Token) (value : Expr) : Prop :=
  if assignment then
    Assigns S ts [] value ∨ (¬ ∃ other, Assigns S ts [] other) ∧ Derives S .whole ts [] value
  else Derives S .whole ts [] value

/-! ## The target of an assignment -/

/-- The tokens start with a sign, or with a suffixed expression that `after` is left of, where an
equals sign follows it and more was read. -/
inductive Leads (S : Token → Expr → Prop) (ts rest : List Token) (after : List Token → Prop) :
    Prop where
  | signed {token : Token} {us : List Token} (split : ts = token :: us)
      (kind : token.kind = .operator) : Leads S ts rest after
  | suffixed {us : List Token} {target : Expr} (derives : Derives S .suffixed ts us target)
      (ends : suffixed.Ends us)
      (equal : ∀ token vs, us = token :: vs → Spells token .equal → us = rest ∨ after vs) :
      Leads S ts rest after

theorem Derives.tierTail_left {tier : Tier} {tighter : List Tier} {left : Expr}
    (h : Derives S (.tierTail tier tighter left) ts rest value) (other : Expr) :
    ∃ result, Derives S (.tierTail tier tighter other) ts rest result := by
  induction hn : ts.length using Nat.strongRecOn generalizing ts left other with
  | _ n ih =>
    cases h with
    | tierStop => exact ⟨other, .tierStop⟩
    | @tierStep _ _ token op us _ _ _ right _ mem spells operand tail =>
      have hle := operand.length_le
      rw [length_cons] at hn
      obtain ⟨result, htail⟩ := ih _ (by omega) tail (join op other right) rfl
      exact ⟨result, .tierStep mem spells operand htail⟩

theorem Derives.leads_sign (h : Derives S .sign ts rest value) (hends : sign.Ends rest)
    (after : List Token → Prop) : Leads S ts rest after := by
  cases h with
  | signed spells operand => exact .signed rfl spells.1
  | unsigned inner => exact .suffixed inner hends fun token vs _ _ => .inl rfl

theorem Derives.leads_product (h : Derives S .product ts rest value)
    (hends : product.Ends rest) (after : List Token → Prop) : Leads S ts rest after := by
  cases h with
  | @factors _ us _ _ _ operand tail =>
    cases operand.leads_sign (tail.ends_of_productTail hends) fun _ => False with
    | signed split kind => exact .signed split kind
    | suffixed derives ends equal =>
      refine .suffixed derives ends fun token vs hus hspells => .inl ?_
      have heq := (equal token vs hus hspells).resolve_right not_false
      subst heq
      subst hus
      cases tail with
      | productStop => rfl
      | productStep mem spells _ _ =>
        have := symbol_injective (spells.2.symm.trans hspells.2)
        simp [this] at mem

theorem Derives.leads_sum (h : Derives S .sum ts rest value) (hends : Phrase.sum.Ends rest)
    (after : List Token → Prop) : Leads S ts rest after := by
  cases h with
  | terms operand tail =>
    cases operand.leads_product (tail.ends_of_sumTail hends) fun _ => False with
    | signed split kind => exact .signed split kind
    | suffixed derives ends equal =>
      refine .suffixed derives ends fun token vs hus hspells => .inl ?_
      have heq := (equal token vs hus hspells).resolve_right not_false
      subst heq
      subst hus
      cases tail with
      | sumStop => rfl
      | sumStep mem spells _ _ =>
        have := symbol_injective (spells.2.symm.trans hspells.2)
        simp [this] at mem
      | sumNegated negates _ _ _ =>
        cases negates.1.symm.trans hspells.1

theorem Derives.leads_tiers {levels : List Tier} (h : Derives S (.tiers levels) ts rest value)
    (hproper : (Phrase.tiers levels).Proper) (hends : (Phrase.tiers levels).Ends rest) :
    Leads S ts rest fun vs => ∃ result, Derives S (.tiers levels) vs rest result := by
  induction levels generalizing rest value with
  | nil =>
    cases h with
    | sum inner => exact inner.leads_sum hends _
  | cons tier tighter ih =>
    cases h with
    | tier operand tail =>
      have hlead := ih operand (Phrase.proper_tighter hproper)
        (tail.ends_of_tierTail hproper hends)
      cases hlead with
      | signed split kind => exact .signed split kind
      | suffixed derives ends equal =>
        refine .suffixed derives ends fun token vs hus hspells => ?_
        rcases equal token vs hus hspells with heq | ⟨result, hresult⟩
        · subst heq
          subst hus
          cases tail with
          | tierStop => exact .inl rfl
          | @tierStep _ _ _ _ _ _ _ _ right _ _ _ more again =>
            obtain ⟨result, hresult⟩ := again.tierTail_left right
            exact .inr ⟨result, .tier more hresult⟩
        · obtain ⟨whole, hwhole⟩ := tail.tierTail_left result
          exact .inr ⟨whole, .tier hresult hwhole⟩

/-- No assignment can be read off the tokens: they start with a sign, or with a suffixed expression
that no equals sign follows. -/
inductive Plain (S : Token → Expr → Prop) (ts : List Token) : Prop where
  | signed {token : Token} {us : List Token} (split : ts = token :: us)
      (kind : token.kind = .operator) : Plain S ts
  | suffixed {us : List Token} {target : Expr} (derives : Derives S .suffixed ts us target)
      (ends : suffixed.Ends us) (unequal : ∀ token ∈ us.head?, ¬ Spells token .equal) :
      Plain S ts

theorem ends_nil {levels : List Tier} : (Phrase.tiers levels).Ends [] := by
  intro token htoken
  cases htoken

theorem Derives.assigns_or_plain (h : Derives S .whole ts [] value) :
    (∃ other, Assigns S ts [] other) ∨ Plain S ts := by
  cases h.leads_tiers Phrase.proper_whole ends_nil with
  | signed split kind => exact .inr (.signed split kind)
  | @suffixed us target derives ends equal =>
    by_cases hequal : ∃ token vs, us = token :: vs ∧ Spells token .equal
    · obtain ⟨token, vs, rfl, hspells⟩ := hequal
      obtain ⟨source, hsource⟩ := (equal token vs rfl hspells).resolve_left (cons_ne_nil _ _)
      exact .inl ⟨_, target, token, vs, source, derives, hspells, hsource, rfl⟩
    · refine .inr (.suffixed derives ends fun token htoken hspells => hequal ?_)
      cases us with
      | nil => cases htoken
      | cons first vs =>
        cases htoken
        exact ⟨token, vs, rfl, hspells⟩

/-! ## Reading a whole list -/

theorem outcome_readAssignment (strings : StringReader) (p : Fault → Prop) (fuel : Nat)
    (cursor : Cursor) :
    Outcome strings p cursor
      (fun rest value? => ∀ value ∈ value?, Assigns (Stands strings p) cursor.rest rest value)
      (readAssignment strings fuel cursor) := by
  unfold readAssignment
  refine (follows strings p fuel .suffixed cursor).bind fun target after => ?_
  obtain ⟨ts, stop, faults⟩ := after
  rw [peek_bind]
  cases ts with
  | nil => exact .pure fun _ value hvalue => absurd hvalue (by simp)
  | cons token ts =>
    dsimp only [head?_cons, Option.bind_some]
    cases hop : operator? [.equal] token with
    | none => exact .pure fun _ value hvalue => absurd hvalue (by simp)
    | some op =>
      obtain ⟨hmem, hspells⟩ := operator?_eq_some.mp hop
      obtain rfl := mem_singleton.mp hmem
      refine .skip ((follows strings p fuel .whole _).bind fun source after => ?_)
      refine .pure fun hsource htarget value hvalue => ?_
      cases hvalue
      exact ⟨target, token, ts, source, htarget, hspells, hsource, rfl⟩

theorem outcome_readExpression (strings : StringReader) (p : Fault → Prop) (assignment : Bool)
    (fuel : Nat) (cursor : Cursor) :
    Outcome strings p cursor
      (fun rest value => Derives (Stands strings p) .whole cursor.rest rest value ∨
        assignment = true ∧ Assigns (Stands strings p) cursor.rest rest value)
      (readExpression strings assignment fuel cursor) := by
  have hplain : Outcome strings p cursor (fun rest value =>
      Derives (Stands strings p) .whole cursor.rest rest value ∨
        assignment = true ∧ Assigns (Stands strings p) cursor.rest rest value)
      (readTiers strings fuel tiers cursor) :=
    (follows strings p fuel .whole cursor).imp fun rest value h => .inl h
  unfold readExpression
  cases assignment with
  | false => exact hplain
  | true =>
    have hassign := outcome_readAssignment strings p fuel cursor
    rw [if_pos rfl]
    split
    · rename_i value after hresult
      rw [hresult] at hassign
      obtain ⟨hrest, hstop, faults, hfaults, hfits⟩ := hassign
      exact ⟨hrest, hstop, faults, hfaults, fun hp => .inr ⟨rfl, hfits hp value rfl⟩⟩
    · rename_i error after hresult
      rw [hresult] at hassign
      exact hassign
    · exact hplain

theorem outcome_readWhole (strings : StringReader) (p : Fault → Prop) (assignment : Bool)
    (fuel : Nat) (cursor : Cursor) :
    Outcome strings p cursor
      (fun _ value => Derives (Stands strings p) .whole cursor.rest [] value ∨
        assignment = true ∧ Assigns (Stands strings p) cursor.rest [] value)
      (readWhole strings assignment fuel cursor) := by
  unfold readWhole
  refine (outcome_readExpression strings p assignment fuel cursor).bind fun value after => ?_
  obtain ⟨ts, stop, faults⟩ := after
  rw [peek_bind]
  cases ts with
  | nil => exact .pure fun h => h
  | cons token ts => exact trivial

section

variable {fuel : Nat} {ts rest : List Token} {value : Expr}

theorem Derives.takes_whole (h : Derives (Stands strings p) .whole ts [] value)
    (hfuel : fuelFor ts.length ≤ fuel) : Takes p (readTiers strings fuel tiers) ts [] value := by
  refine h.takes proper_whole ends_nil ?_
  simp only [fuelFor, rank, tiers, length_cons, length_nil] at hfuel ⊢
  omega

theorem Derives.takes_target (h : Derives (Stands strings p) .suffixed ts rest value)
    (hends : Phrase.suffixed.Ends rest) (hfuel : fuelFor ts.length ≤ fuel) :
    Takes p (readPostfix strings fuel) ts rest value := by
  refine h.takes trivial hends ?_
  simp only [fuelFor, rank] at hfuel ⊢
  omega

theorem Assigns.takes (h : Assigns (Stands strings p) ts [] value)
    (hfuel : fuelFor ts.length ≤ fuel) :
    Takes p (readExpression strings true fuel) ts [] value := by
  obtain ⟨target, token, us, source, htarget, hspells, hsource, rfl⟩ := h
  have hle := htarget.length_le
  have hends : suffixed.Ends (token :: us) := by
    rintro _ ⟨⟩
    exact opensSuffix_of_spells hspells
  have hassign : Takes p (readAssignment strings fuel) ts []
      (some (join .equal target source)) := by
    refine (htarget.takes_target hends hfuel).bind (.peek ?_)
    dsimp only [head?_cons, Option.bind_some]
    rw [operator?_eq_some.mpr ⟨mem_singleton_self _, hspells⟩]
    refine .skip ((hsource.takes_whole ?_).bind (.pure [] _))
    simp only [fuelFor, length_cons] at hfuel hle ⊢
    omega
  intro stop faults
  obtain ⟨more, hresult, hmore⟩ := hassign stop faults
  refine ⟨more, ?_, hmore⟩
  simp only [readExpression, if_true, hresult]

theorem readPostfix_operator {token : Token} {us : List Token} (h : token.kind = .operator)
    (stop : Position) (faults : List Fault) :
    ∃ fault, readPostfix strings (fuel + 2) ⟨token :: us, stop, faults⟩ =
      .error (.fault fault) ⟨token :: us, stop, faults⟩ := by
  have hprimary : ∃ fault, readPrimary strings (fuel + 1) ⟨token :: us, stop, faults⟩ =
      .error (.fault fault) ⟨token :: us, stop, faults⟩ := by
    rw [readPrimary, peek_bind]
    dsimp only [head?_cons]
    rw [h]
    exact ⟨_, rfl⟩
  obtain ⟨fault, hfault⟩ := hprimary
  refine ⟨fault, ?_⟩
  rw [readPostfix]
  change EStateM.bind _ _ _ = _
  rw [EStateM.bind, hfault]

/-- Where no assignment can be read, the expression is read from the start. -/
theorem Plain.readExpression_eq (h : Plain (Stands strings p) ts)
    (hfuel : fuelFor ts.length ≤ fuel) (stop : Position) (faults : List Fault) :
    readExpression strings true fuel ⟨ts, stop, faults⟩ =
      readTiers strings fuel tiers ⟨ts, stop, faults⟩ := by
  cases h with
  | @signed token us split kind =>
    subst split
    obtain ⟨less, rfl⟩ : ∃ less, fuel = less + 2 := ⟨fuel - 2, by rw [fuelFor] at hfuel; omega⟩
    obtain ⟨fault, hfault⟩ := readPostfix_operator kind stop faults
    have hassign : readAssignment strings (less + 2) ⟨token :: us, stop, faults⟩ =
        .error (.fault fault) ⟨token :: us, stop, faults⟩ := by
      rw [readAssignment]
      change EStateM.bind _ _ _ = _
      rw [EStateM.bind, hfault]
    simp only [readExpression, if_true, hassign]
  | @suffixed us target derives ends unequal =>
    have hassign : Takes p (readAssignment strings fuel) ts us none := by
      refine (derives.takes_target ends hfuel).bind (.peek ?_)
      rw [operator?_head fun token htoken => ?_]
      · exact .pure us none
      · cases hop : operator? [.equal] token with
        | none => rfl
        | some op =>
          obtain ⟨hmem, hspells⟩ := operator?_eq_some.mp hop
          obtain rfl := mem_singleton.mp hmem
          exact absurd hspells (unequal token htoken)
    obtain ⟨more, hresult, -⟩ := hassign stop faults
    simp only [readExpression, if_true, hresult]

theorem Plain.takes (h : Plain (Stands strings p) ts)
    (hwhole : Derives (Stands strings p) .whole ts [] value) (hfuel : fuelFor ts.length ≤ fuel) :
    Takes p (readExpression strings true fuel) ts [] value := by
  intro stop faults
  rw [h.readExpression_eq hfuel]
  exact hwhole.takes_whole hfuel stop faults

theorem takes_readWhole (h : Takes p (readExpression strings assignment fuel) ts [] value) :
    Takes p (readWhole strings assignment fuel) ts [] value :=
  h.bind (.peek (.pure [] value))

theorem Whole.takes (h : Whole (Stands strings p) assignment ts value) :
    Takes p (readWhole strings assignment (fuelFor ts.length)) ts [] value := by
  refine takes_readWhole ?_
  cases assignment with
  | false =>
    have hwhole : Derives (Stands strings p) .whole ts [] value := h
    exact hwhole.takes_whole (Nat.le_refl _)
  | true =>
    rcases h with hassigns | ⟨hnone, hwhole⟩
    · exact hassigns.takes (Nat.le_refl _)
    · exact (hwhole.assigns_or_plain.resolve_left hnone).takes hwhole (Nat.le_refl _)

end

theorem Whole.ne_nil (h : Whole S assignment ts value) : ts ≠ [] := by
  have hwhole : Derives S .whole ts [] value → ts ≠ [] := by
    intro hderives
    obtain ⟨token, us, rfl, -⟩ := hderives.starts
    exact cons_ne_nil token us
  cases assignment with
  | false => exact hwhole h
  | true =>
    rcases h with ⟨target, token, us, source, htarget, -⟩ | ⟨-, hderives⟩
    · obtain ⟨first, vs, rfl, -⟩ := htarget.starts
      exact cons_ne_nil first vs
    · exact hwhole hderives

theorem whole_of_readWhole {stop : Position} {after : Cursor}
    (h : readWhole strings assignment (fuelFor ts.length) ⟨ts, stop, []⟩ = .ok value after)
    (hp : ∀ fault ∈ after.faults, p fault) : Whole (Stands strings p) assignment ts value := by
  have hout := outcome_readWhole strings p assignment (fuelFor ts.length) ⟨ts, stop, []⟩
  rw [h] at hout
  obtain ⟨-, -, faults, hfaults, hfits⟩ := hout
  rw [nil_append] at hfaults
  subst hfaults
  have hread := hfits hp
  cases assignment with
  | false => exact hread.resolve_right fun hfalse => Bool.noConfusion hfalse.1
  | true =>
    by_cases hassigns : ∃ other, Assigns (Stands strings p) ts [] other
    · obtain ⟨other, hother⟩ := hassigns
      obtain ⟨more, hresult, -⟩ :=
        takes_readWhole (hother.takes (Nat.le_refl (fuelFor ts.length))) stop []
      rw [h] at hresult
      cases hresult
      exact .inl hother
    · refine .inr ⟨hassigns, hread.resolve_right fun htrue => hassigns ⟨value, htrue.2⟩⟩

/-- What is read from a list of tokens is a whole expression; where none is read, a fault is left.
-/
theorem whole_of_ofTokensWith {anchor : Position} {tokens : List Token} {value? : Option Expr}
    {faults : List Fault} (h : ofTokensWith strings assignment anchor tokens = .ok (value?, faults))
    (hp : ∀ fault ∈ faults, p fault) :
    (∃ value, value? = some value ∧
      Whole (Stands strings p) assignment (tokens.filter (·.kind ≠ .comment)) value) ∨
      value? = none ∧ faults ≠ [] := by
  unfold ofTokensWith at h
  generalize tokens.filter (·.kind ≠ .comment) = ts at h ⊢
  cases hlast : ts.getLast? with
  | none =>
    simp only [hlast, Except.ok.injEq, Prod.mk.injEq] at h
    exact .inr ⟨h.1.symm, h.2 ▸ cons_ne_nil _ _⟩
  | some last =>
    cases hresult : readWhole strings assignment (fuelFor ts.length) ⟨ts, last.span.stop, []⟩ with
    | ok value after =>
      simp only [hlast, hresult, Except.ok.injEq, Prod.mk.injEq] at h
      obtain ⟨rfl, rfl⟩ := h
      exact .inl ⟨value, rfl, whole_of_readWhole hresult hp⟩
    | error why after =>
      cases why with
      | fault fault =>
        simp only [hlast, hresult, Except.ok.injEq, Prod.mk.injEq] at h
        exact .inr ⟨h.1.symm, h.2 ▸ append_ne_nil_of_right_ne_nil _ (cons_ne_nil _ _)⟩
      | numeral error => simp [hlast, hresult] at h

/-- A list of readable tokens is read as an expression exactly if the grammar derives it, and else
leaves a fault. -/
theorem ofTokensWith_iff (assignment : Bool) (anchor : Position) {tokens : List Token}
    (h : ∀ token ∈ tokens, Readable strings token) :
    ∃ value? faults, ofTokensWith strings assignment anchor tokens = .ok (value?, faults) ∧
      (∀ value, value? = some value ↔ Whole (Stands strings fun _ => True) assignment
        (tokens.filter (·.kind ≠ .comment)) value) ∧
      (value? = none → faults ≠ []) := by
  have hreadable : ∀ token ∈ tokens.filter (·.kind ≠ .comment), Readable strings token :=
    fun token htoken => h token (mem_filter.mp htoken).1
  unfold ofTokensWith
  generalize tokens.filter (·.kind ≠ .comment) = ts at hreadable ⊢
  cases hlast : ts.getLast? with
  | none =>
    obtain rfl := getLast?_eq_none_iff.mp hlast
    refine ⟨none, _, rfl, fun value => ⟨by simp, fun hwhole => ?_⟩, by simp⟩
    exact absurd rfl hwhole.ne_nil
  | some last =>
    cases hresult : readWhole strings assignment (fuelFor ts.length) ⟨ts, last.span.stop, []⟩ with
    | ok value after =>
      refine ⟨some value, after.faults, by simp only [hlast, hresult],
        fun other => ⟨?_, fun hother => ?_⟩, by simp⟩
      · rintro ⟨⟩
        exact whole_of_readWhole hresult fun _ _ => trivial
      · obtain ⟨more, hagain, -⟩ := hother.takes last.span.stop []
        rw [hresult] at hagain
        cases hagain
        rfl
    | error why after =>
      cases why with
      | fault fault =>
        refine ⟨none, after.faults ++ [fault], by simp only [hlast, hresult],
          fun value => ⟨by simp, fun hwhole => ?_⟩, by simp⟩
        obtain ⟨more, hagain, -⟩ := hwhole.takes last.span.stop []
        cases hresult.symm.trans hagain
      | numeral error =>
        have hout := outcome_readWhole strings (fun _ => True) assignment (fuelFor ts.length)
          ⟨ts, last.span.stop, []⟩
        rw [hresult] at hout
        obtain ⟨token, htoken, hbad⟩ := hout
        exact absurd (hreadable token htoken) hbad

end GuidedTrack.Expr
