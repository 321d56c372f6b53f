import GuidedTrack.Proofs.Expr.Derivation

/-! # Readers follow the grammar

What a reader takes off the front of a list of tokens is a phrase of the grammar, and it gives up
for a numeral only if one of the tokens cannot be read. `Outcome` says both of one result; its rules
follow the way readers are put together.
-/

namespace GuidedTrack.Expr

open List Numeral Reader

variable {token : Token} {β : Type} {error : Error} {text : String} {strings : StringReader}

/-! ## Operators -/

theorem symbol_injective {a b : BinaryOp} (h : a.symbol = b.symbol) : a = b := by
  revert h
  cases a <;> cases b <;> decide

theorem operator?_eq_some {tier : Tier} {op : BinaryOp} :
    operator? tier token = some op ↔ op ∈ tier ∧ Spells token op := by
  unfold operator?
  split
  · rename_i hkind
    constructor
    · intro h
      have hsymbol := find?_some h
      exact ⟨mem_of_find?_eq_some h, hkind, (by simpa using hsymbol : op.symbol = _).symm⟩
    · rintro ⟨hmem, -, htext⟩
      cases hfind : tier.find? fun op => op.symbol == token.text with
      | none =>
        have hnone := find?_eq_none.mp hfind op hmem
        simp [htext] at hnone
      | some found =>
        have hfound := find?_some hfind
        rw [beq_iff_eq, htext] at hfound
        rw [symbol_injective hfound]
  · rename_i hkind
    simp [Spells, hkind]

theorem sign?_eq_some {op : UnaryOp} : sign? token = some op ↔ SpellsSign token op := by
  unfold sign? SpellsSign
  split
  · rename_i hkind
    cases op <;> grind [UnaryOp.symbol]
  · rename_i hkind
    simp [hkind]

theorem negated?_eq_some {raw : String} : negated? token = some raw ↔ Negates token raw := by
  unfold negated? Negates
  split
  · rename_i hkind htext
    simp [hkind, htext, String.ext_iff]
  · rename_i h
    constructor
    · rintro ⟨⟩
    · rintro ⟨hkind, htext⟩
      exact absurd htext (h _ hkind)

/-! ## Outcomes -/

theorem peek_bind (f : Option Token → Reader β) (cursor : Cursor) :
    (peek >>= f) cursor = f cursor.rest.head? cursor := rfl

theorem peekKind_bind (f : Option Token.Kind → Reader β) (cursor : Cursor) :
    (peekKind >>= f) cursor = f (cursor.rest.head?.map Token.kind) cursor := rfl

theorem skip_bind (f : Unit → Reader β) (token : Token) (ts : List Token) (stop : Position)
    (faults : List Fault) :
    (skip >>= f) ⟨token :: ts, stop, faults⟩ = f () ⟨ts, stop, faults⟩ := rfl

theorem numeral_of_read {n : Number} (h : read text = .ok n) :
    numeral text = pure (.number n) := by
  simp [numeral, h]

theorem string_of_ok {value : Expr} {more : List Fault} (h : strings token = .ok (value, more))
    (ts : List Token) (stop : Position) (faults : List Fault) :
    string strings token ⟨ts, stop, faults⟩ = .ok value ⟨ts, stop, faults ++ more⟩ := by
  simp only [string, h]
  rfl

theorem string_of_error (h : strings token = .error error) (cursor : Cursor) :
    string strings token cursor = .error (.numeral error) cursor := by
  simp only [string, h]
  rfl

variable {α β : Type} {strings : StringReader} {p : Fault → Prop}

/-- What a literal stands for when only faults that satisfy `p` are let pass. -/
def Stands (strings : StringReader) (p : Fault → Prop) (token : Token) (value : Expr) : Prop :=
  ∃ faults, strings token = .ok (value, faults) ∧ ∀ fault ∈ faults, p fault

structure Readable (strings : StringReader) (token : Token) : Prop where
  number : token.kind = .number → ∃ n, read token.text = .ok n
  negated : ∀ raw, Negates token raw → ∃ n, read raw = .ok n
  string : token.kind = .string → ∃ value, strings token = .ok value

/-- The result of reading from a cursor: a value that fits what is left of the tokens, unless a
fault inside a literal is not let pass; or a numeral that cannot be read; or a fault. -/
def Outcome (strings : StringReader) (p : Fault → Prop) (cursor : Cursor)
    (fits : List Token → α → Prop) : EStateM.Result Stop Cursor α → Prop
  | .ok value after => after.rest <:+ cursor.rest ∧ after.stop = cursor.stop ∧
      ∃ faults, after.faults = cursor.faults ++ faults ∧
        ((∀ fault ∈ faults, p fault) → fits after.rest value)
  | .error (.numeral _) _ => ∃ token ∈ cursor.rest, ¬ Readable strings token
  | .error (.fault _) _ => True

namespace Outcome

variable {cursor : Cursor} {fits : List Token → α → Prop} {fits' : List Token → β → Prop}

theorem pure {value : α} (h : fits cursor.rest value) :
    Outcome strings p cursor fits ((Pure.pure value : Reader α) cursor) :=
  ⟨suffix_rfl, rfl, [], (append_nil _).symm, fun _ => h⟩

theorem bind {x : Reader α} {f : α → Reader β} (hx : Outcome strings p cursor fits (x cursor))
    (hf : ∀ value after,
      Outcome strings p after (fun rest w => fits after.rest value → fits' rest w)
          (f value after)) :
    Outcome strings p cursor fits' ((x >>= f) cursor) := by
  change Outcome strings p cursor fits' (EStateM.bind x f cursor)
  unfold EStateM.bind
  cases hresult : x cursor with
  | error stop after =>
    rw [hresult] at hx
    cases stop <;> exact hx
  | ok value after =>
    rw [hresult] at hx
    obtain ⟨hrest, hstop, faults, hfaults, hfits⟩ := hx
    have hnext := hf value after
    dsimp only
    cases hagain : f value after with
    | error stop last =>
      rw [hagain] at hnext
      cases stop with
      | fault fault => trivial
      | numeral error =>
        obtain ⟨token, hmem, hbad⟩ := hnext
        exact ⟨token, hrest.subset hmem, hbad⟩
    | ok w last =>
      rw [hagain] at hnext
      obtain ⟨hrest', hstop', more, hmore, hfits'⟩ := hnext
      refine ⟨hrest'.trans hrest, hstop'.trans hstop, faults ++ more, ?_, fun hp => ?_⟩
      · rw [hmore, hfaults, append_assoc]
      · rw [forall_mem_append] at hp
        exact hfits' hp.2 (hfits hp.1)

theorem imp {fits' : List Token → α → Prop} {result : EStateM.Result Stop Cursor α}
    (h : Outcome strings p cursor fits result)
    (himp : ∀ rest value, fits rest value → fits' rest value) :
    Outcome strings p cursor fits' result := by
  match result, h with
  | .ok value after, ⟨hrest, hstop, faults, hfaults, hfits⟩ =>
    exact ⟨hrest, hstop, faults, hfaults, fun hp => himp _ _ (hfits hp)⟩
  | .error (.numeral _) _, h => exact h
  | .error (.fault _) _, h => exact h

theorem skip {f : Unit → Reader α} {ts : List Token} {stop : Position} {faults : List Fault}
    (h : Outcome strings p ⟨ts, stop, faults⟩ fits (f () ⟨ts, stop, faults⟩)) :
    Outcome strings p ⟨token :: ts, stop, faults⟩ fits
      ((Reader.skip >>= f) ⟨token :: ts, stop, faults⟩) := by
  rw [skip_bind]
  match f () ⟨ts, stop, faults⟩, h with
  | .ok value after, ⟨hrest, h⟩ => exact ⟨hrest.trans (suffix_cons token ts), h⟩
  | .error (.numeral _) _, ⟨bad, hmem, hbad⟩ => exact ⟨bad, mem_cons_of_mem token hmem, hbad⟩
  | .error (.fault _) _, h => exact h

theorem fail (cause : Fault.Found → Fault.Cause) :
    Outcome strings p cursor fits (fail cause cursor) :=
  trivial

theorem expect (kind : Token.Kind) :
    Outcome strings p cursor (fun rest token => cursor.rest = token :: rest ∧ token.kind = kind)
      (expect kind cursor) := by
  obtain ⟨ts, stop, faults⟩ := cursor
  cases ts with
  | nil => exact fail _
  | cons token ts =>
    by_cases hkind : token.kind = kind
    · have hresult : expect kind ⟨token :: ts, stop, faults⟩ =
          .ok token ⟨ts, stop, faults⟩ := by
        simp [expect, peek_bind, hkind]
        rfl
      rw [hresult]
      exact ⟨suffix_cons token ts, rfl, [], (append_nil _).symm, fun _ => ⟨rfl, hkind⟩⟩
    · have hresult : expect kind ⟨token :: ts, stop, faults⟩ =
          Reader.fail (.expected kind) ⟨token :: ts, stop, faults⟩ := by
        simp [expect, peek_bind, hkind]
      rw [hresult]
      exact fail _

theorem closing {kind : Token.Kind} {x : Reader α} {f : α → Token → Reader β}
    (hx : Outcome strings p cursor fits (x cursor))
    (hf : ∀ value close after, Outcome strings p after
      (fun rest w => close.kind = kind → fits (close :: after.rest) value → fits' rest w)
      (f value close after)) :
    Outcome strings p cursor fits'
      ((x >>= fun value => Reader.expect kind >>= fun close => f value close) cursor) := by
  refine hx.bind fun value after => (expect kind).bind fun close last => ?_
  exact (hf value close last).imp fun rest w h hclose hvalue => h hclose.2 (hclose.1 ▸ hvalue)

theorem skipNumeral {f : Literal → Reader α} {ts : List Token} {stop : Position}
    {faults : List Fault} (hreadable : Readable strings token → ∃ n, read text = .ok n)
    (h : ∀ n, read text = .ok n →
      Outcome strings p ⟨ts, stop, faults⟩ fits (f (.number n) ⟨ts, stop, faults⟩)) :
    Outcome strings p ⟨token :: ts, stop, faults⟩ fits
      ((Reader.skip >>= fun _ => numeral text >>= f) ⟨token :: ts, stop, faults⟩) := by
  cases hread : read text with
  | error error =>
    simp only [skip_bind, numeral, hread]
    refine ⟨token, mem_cons_self, fun hgood => ?_⟩
    obtain ⟨n, hn⟩ := hreadable hgood
    cases hread.symm.trans hn
  | ok number =>
    rw [numeral_of_read hread]
    exact skip (h number hread)

end Outcome

/-! ## The readers -/

def Phrase.run (strings : StringReader) : (phrase : Phrase) → Nat → Reader phrase.Value
  | tiers levels, fuel => readTiers strings fuel levels
  | tierTail tier tighter left, fuel => readTierTail strings fuel tier tighter left
  | sum, fuel => readSum strings fuel
  | sumTail left, fuel => readSumTail strings fuel left
  | product, 0 => fail .unexpected
  | product, fuel + 1 => do
      let first ← readSign strings fuel
      readProductTail strings fuel first
  | productTail left, fuel => readProductTail strings fuel left
  | sign, fuel => readSign strings fuel
  | suffixed, fuel => readPostfix strings fuel
  | suffixTail value, fuel => readPostfixTail strings fuel value
  | primary, fuel => readPrimary strings fuel
  | items closing, fuel => readItems strings fuel closing
  | entries, fuel => readEntries strings fuel

def Follows (strings : StringReader) (p : Fault → Prop) (fuel : Nat) (phrase : Phrase) : Prop :=
  ∀ cursor : Cursor, Outcome strings p cursor (Derives (Stands strings p) phrase cursor.rest)
    (phrase.run strings fuel cursor)

namespace Follows

variable {fuel : Nat} (ih : ∀ phrase, Follows strings p fuel phrase)
include ih

theorem tiers (levels : List Tier) : Follows strings p (fuel + 1) (.tiers levels) := by
  intro cursor
  cases levels with
  | nil => exact (ih .sum _).imp fun rest value h => .sum h
  | cons tier tighter =>
    refine (ih (.tiers tighter) _).bind fun left after => ?_
    exact (ih (.tierTail tier tighter left) after).imp fun rest value htail hleft =>
      .tier hleft htail

theorem tierTail (tier : Tier) (tighter : List Tier) (left : Expr) :
    Follows strings p (fuel + 1) (.tierTail tier tighter left) := by
  rintro ⟨ts, stop, faults⟩
  rw [Phrase.run, readTierTail, peek_bind]
  cases ts with
  | nil => exact .pure .tierStop
  | cons token ts =>
    dsimp only [head?_cons, Option.bind_some]
    cases hop : operator? tier token with
    | none => exact .pure .tierStop
    | some op =>
      obtain ⟨hmem, hspells⟩ := operator?_eq_some.mp hop
      refine .skip ((ih (.tiers tighter) _).bind fun right after => ?_)
      exact (ih (.tierTail tier tighter (join op left right)) after).imp
        fun rest value htail hright => .tierStep hmem hspells hright htail

theorem product : Follows strings p (fuel + 1) .product := by
  intro cursor
  refine (ih .sign cursor).bind fun first after => ?_
  exact (ih (.productTail first) after).imp fun rest value htail hfirst => .factors hfirst htail

theorem productTail (left : Expr) : Follows strings p (fuel + 1) (.productTail left) := by
  rintro ⟨ts, stop, faults⟩
  rw [Phrase.run, readProductTail, peek_bind]
  cases ts with
  | nil => exact .pure .productStop
  | cons token ts =>
    dsimp only [head?_cons, Option.bind_some]
    cases hop : operator? [.multiply, .divide, .remainder] token with
    | none => exact .pure .productStop
    | some op =>
      obtain ⟨hmem, hspells⟩ := operator?_eq_some.mp hop
      refine .skip ((ih .sign _).bind fun right after => ?_)
      exact (ih (.productTail (join op left right)) after).imp fun rest value htail hright =>
        .productStep (by simpa using hmem) hspells hright htail

theorem sum : Follows strings p (fuel + 1) .sum := by
  intro cursor
  rw [Phrase.run, readSum, ← bind_assoc]
  refine (product ih _).bind fun left after => ?_
  exact (ih (.sumTail left) after).imp fun rest value htail hleft => .terms hleft htail

theorem sumTail (left : Expr) : Follows strings p (fuel + 1) (.sumTail left) := by
  rintro ⟨ts, stop, faults⟩
  rw [Phrase.run, readSumTail, peek_bind]
  cases ts with
  | nil => exact .pure .sumStop
  | cons token ts =>
    dsimp only [head?_cons]
    cases hop : operator? [.add, .subtract] token with
    | some op =>
      obtain ⟨hmem, hspells⟩ := operator?_eq_some.mp hop
      refine .skip ?_
      rw [← bind_assoc]
      refine (product ih _).bind fun right after => ?_
      exact (ih (.sumTail (join op left right)) after).imp fun rest value htail hright =>
        .sumStep (by simpa using hmem) hspells hright htail
    | none =>
      cases hnegated : negated? token with
      | none => exact .pure .sumStop
      | some raw =>
        have hnegates := negated?_eq_some.mp hnegated
        dsimp only
        rw [unsigned, bind_assoc]
        refine .skipNumeral (·.negated raw hnegates) fun number hread => ?_
        refine (ih (.productTail _) _).bind fun right after => ?_
        exact (ih (.sumTail (join .subtract left right)) after).imp
          fun rest value htail hright => .sumNegated hnegates hread hright htail

theorem sign : Follows strings p (fuel + 1) .sign := by
  rintro ⟨ts, stop, faults⟩
  rw [Phrase.run, readSign, peek_bind]
  cases ts with
  | nil => exact (ih .suffixed _).imp fun rest value h => .unsigned h
  | cons token ts =>
    dsimp only [head?_cons]
    cases hop : sign? token with
    | none => exact (ih .suffixed _).imp fun rest value h => .unsigned h
    | some op =>
      refine .skip ((ih .sign _).bind fun argument after => ?_)
      exact .pure fun hargument => .signed (sign?_eq_some.mp hop) hargument

theorem suffixed : Follows strings p (fuel + 1) .suffixed := by
  intro cursor
  refine (ih .primary _).bind fun first after => ?_
  exact (ih (.suffixTail first) after).imp fun rest value htail hfirst => .suffixed hfirst htail

theorem suffixTail (value : Expr) : Follows strings p (fuel + 1) (.suffixTail value) := by
  rintro ⟨ts, stop, faults⟩
  rw [Phrase.run, readPostfixTail, peekKind_bind]
  cases ts with
  | nil => exact .pure .suffixStop
  | cons token ts =>
    dsimp only [head?_cons, Option.map_some]
    cases hkind : token.kind with
    | leftParen =>
      refine .skip ((ih (.items .rightParen) _).closing fun arguments close after => ?_)
      exact (ih (.suffixTail (.call ⟨value.span.start, close.span.stop⟩ value arguments)) after).imp
        fun rest w htail hclose hinner => .call hkind hclose hinner htail
    | leftBracket =>
      refine .skip ((ih .whole _).closing fun index close after => ?_)
      exact (ih (.suffixTail (.index ⟨value.span.start, close.span.stop⟩ value index)) after).imp
        fun rest w htail hclose hinner => .index hkind hclose hinner htail
    | dot =>
      refine .skip ((Outcome.expect .identifier).bind fun name after => ?_)
      refine (ih (.suffixTail (.member ⟨value.span.start, name.span.stop⟩ value
        ⟨name.span, name.text⟩)) after).imp fun rest w htail hname => ?_
      dsimp only at hname
      rw [hname.1]
      exact .member hkind hname.2 htail
    | _ => exact .pure .suffixStop

theorem items (closing : Token.Kind) : Follows strings p (fuel + 1) (.items closing) := by
  intro cursor
  rw [Phrase.run, readItems, peekKind_bind]
  split
  · exact .pure .noItems
  refine (ih .whole _).bind fun item after => ?_
  rw [peekKind_bind]
  split
  · rename_i hcomma
    obtain ⟨_ | ⟨comma, us⟩, stop, faults⟩ := after
    · cases hcomma
    refine .skip ((ih (.items closing) _).bind fun more last => ?_)
    exact .pure fun hmore hitem => .moreItems hitem (Option.some.inj hcomma) hmore
  · exact .pure fun hitem => .lastItem hitem

theorem entries : Follows strings p (fuel + 1) .entries := by
  intro cursor
  rw [Phrase.run, readEntries, peekKind_bind]
  split
  · exact .pure .noEntries
  refine (ih .whole _).closing fun key arrow afterArrow => ?_
  refine (ih .whole afterArrow).bind fun value last => ?_
  rw [peekKind_bind]
  split
  · rename_i hcomma
    obtain ⟨_ | ⟨comma, us⟩, stop, faults⟩ := last
    · cases hcomma
    refine .skip ((ih .entries _).bind fun more last => ?_)
    exact .pure fun hmore hvalue harrow hkey =>
      .moreEntries hkey harrow hvalue (Option.some.inj hcomma) hmore
  · exact .pure fun hvalue harrow hkey => .lastEntry hkey harrow hvalue

theorem primary : Follows strings p (fuel + 1) .primary := by
  rintro ⟨ts, stop, faults⟩
  rw [Phrase.run, readPrimary, peek_bind]
  cases ts with
  | nil => exact .fail _
  | cons token ts =>
    dsimp only [head?_cons]
    cases hkind : token.kind with
    | number =>
      exact .skipNumeral (·.number hkind) fun number hread => .pure (.number hkind hread)
    | string =>
      cases hstring : strings token with
      | error error =>
        dsimp only
        rw [skip_bind, string_of_error hstring]
        refine ⟨token, mem_cons_self, fun hreadable => ?_⟩
        obtain ⟨value, hvalue⟩ := hreadable.string hkind
        cases hstring.symm.trans hvalue
      | ok result =>
        obtain ⟨value, more⟩ := result
        refine .skip ?_
        rw [string_of_ok hstring]
        exact ⟨suffix_rfl, rfl, more, rfl, fun hp => .string hkind ⟨more, hstring, hp⟩⟩
    | identifier => exact .skip (.pure (.identifier hkind))
    | leftParen =>
      exact .skip ((ih .whole _).closing fun inner close after =>
        .pure fun hclose hinner => .bracketed hkind hclose hinner)
    | leftBracket =>
      exact .skip ((ih (.items .rightBracket) _).closing fun elements close after =>
        .pure fun hclose hinner => .array hkind hclose hinner)
    | leftBrace =>
      exact .skip ((ih .entries _).closing fun entries close after =>
        .pure fun hclose hinner => .object hkind hclose hinner)
    | _ => exact .fail _

end Follows

/-- By induction on the fuel: a reader is put together from readers with less. -/
theorem follows (strings : StringReader) (p : Fault → Prop) (fuel : Nat) (phrase : Phrase) :
    Follows strings p fuel phrase := by
  induction fuel generalizing phrase with
  | zero =>
    intro cursor
    cases phrase <;> simp only [Phrase.run, readTiers, readTierTail, readSum, readSumTail,
      readProductTail, readSign, readPostfix, readPostfixTail, readPrimary, readItems, readEntries]
    all_goals exact .fail _
  | succ fuel ih =>
    cases phrase with
    | tiers levels => exact .tiers ih levels
    | tierTail tier tighter left => exact .tierTail ih tier tighter left
    | sum => exact .sum ih
    | sumTail left => exact .sumTail ih left
    | product => exact .product ih
    | productTail left => exact .productTail ih left
    | sign => exact .sign ih
    | suffixed => exact .suffixed ih
    | suffixTail value => exact .suffixTail ih value
    | items closing => exact .items ih closing
    | entries => exact .entries ih
    | primary => exact .primary ih

end GuidedTrack.Expr
