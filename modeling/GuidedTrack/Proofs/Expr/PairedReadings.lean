import GuidedTrack.Proofs.Expr.LiteralContents

/-! # Expressions read side by side

Readers look at the kinds and the texts of tokens only. So two lists of tokens of the same kinds and
texts are read side by side: as trees made alike, with the same faults, at places that belong
together. What belongs together is up to a `Pairing`.
-/

namespace GuidedTrack

open List

variable {α β γ δ : Type} {strings : StringReader} {V : α → β → Prop} {W : γ → δ → Prop}

def Fault.Cause.isOfCode : Fault.Cause → Bool
  | missingExpression | leftover _ | unexpected _ | expected .. => true
  | _ => false

/-- Two faults of expressions, of one cause and at places that belong together. -/
structure Fault.Paired (Q : Position → Position → Prop) (fault other : Fault) : Prop where
  place : Q fault.position other.position
  cause : other.cause = fault.cause
  code : fault.cause.isOfCode = true

namespace Expr

open Reader

/-- What belongs together when tokens are read side by side. -/
structure Pairing where
  token : Token → Token → Prop
  place : Position → Position → Prop
  expr : Expr → Expr → Prop
  entry : Entry → Entry → Prop

namespace Pairing

section

variable (R : Pairing)

def part : Part → Part → Prop
  | .text value, .text other => other = value
  | .expr value, .expr other => R.expr value other
  | _, _ => False

/-- Tokens that belong together look alike, and what is made of them alike belongs together. -/
structure Lawful : Prop where
  shape : ∀ {t u}, R.token t u → u.kind = t.kind ∧ u.text = t.text
  start : ∀ {t u}, R.token t u → R.place t.span.start u.span.start
  stop : ∀ {t u}, R.token t u → R.place t.span.stop u.span.stop
  literal : ∀ {t u} value, R.token t u →
    R.expr (.literal t.span value t.text) (.literal u.span value u.text)
  negated : ∀ {t u} value raw, R.token t u →
    R.expr (.literal ⟨t.span.start.advance 1, t.span.stop⟩ value raw)
      (.literal ⟨u.span.start.advance 1, u.span.stop⟩ value raw)
  identifier : ∀ {t u}, R.token t u →
    R.expr (.identifier ⟨t.span, t.text⟩) (.identifier ⟨u.span, u.text⟩)
  join : ∀ {a b c d} op, R.expr a b → R.expr c d → R.expr (join op a c) (join op b d)
  unary : ∀ {t u a b} op, R.token t u → R.expr a b → R.expr
    (.unary ⟨t.span.start, a.span.stop⟩ op a) (.unary ⟨u.span.start, b.span.stop⟩ op b)
  call : ∀ {t u a b cs ds}, R.token t u → R.expr a b → Forall₂ R.expr cs ds →
    R.expr (.call ⟨a.span.start, t.span.stop⟩ a cs) (.call ⟨b.span.start, u.span.stop⟩ b ds)
  index : ∀ {t u a b c d}, R.token t u → R.expr a b → R.expr c d →
    R.expr (.index ⟨a.span.start, t.span.stop⟩ a c) (.index ⟨b.span.start, u.span.stop⟩ b d)
  member : ∀ {t u a b}, R.token t u → R.expr a b →
    R.expr (.member ⟨a.span.start, t.span.stop⟩ a ⟨t.span, t.text⟩)
      (.member ⟨b.span.start, u.span.stop⟩ b ⟨u.span, u.text⟩)
  array : ∀ {t u t' u' cs ds}, R.token t u → R.token t' u' → Forall₂ R.expr cs ds → R.expr
    (.array ⟨t.span.start, t'.span.stop⟩ cs) (.array ⟨u.span.start, u'.span.stop⟩ ds)
  object : ∀ {t u t' u' cs ds}, R.token t u → R.token t' u' → Forall₂ R.entry cs ds → R.expr
    (.object ⟨t.span.start, t'.span.stop⟩ cs) (.object ⟨u.span.start, u'.span.stop⟩ ds)
  entry : ∀ {a b c d}, R.expr a b → R.expr c d → R.entry
    (.mk ⟨a.span.start, c.span.stop⟩ a c) (.mk ⟨b.span.start, d.span.stop⟩ b d)
  interpolated : ∀ {t u cs ds}, R.token t u → Forall₂ R.part cs ds →
    R.expr (.interpolated t.span cs) (.interpolated u.span ds)
  embedded : ∀ {t u place content}, R.token t u → t.kind = .string →
    .braced place content ∈ pieces 0 (unquoted t.text) →
    Forall₂ R.token (embedded t place content) (embedded u place content)

structure Cursors (cursor other : Cursor) : Prop where
  rest : Forall₂ R.token cursor.rest other.rest
  stop : R.place cursor.stop other.stop
  faults : Forall₂ (Fault.Paired R.place) cursor.faults other.faults

/-- Both readers end with a value, with a fault, or at the same numeral. -/
inductive Ends (V : α → β → Prop) :
    EStateM.Result Stop Cursor α → EStateM.Result Stop Cursor β → Prop where
  | ok (value : V a b) (after : R.Cursors c d) : Ends V (.ok a c) (.ok b d)
  | fault (found : Fault.Paired R.place f g) (after : R.Cursors c d) :
      Ends V (.error (.fault f) c) (.error (.fault g) d)
  | numeral : Ends V (.error (.numeral error) c) (.error (.numeral error) d)

def Reads (V : α → β → Prop) (x : Reader α) (y : Reader β) : Prop :=
  ∀ cursor other, R.Cursors cursor other → R.Ends V (x cursor) (y other)

inductive Gives (V : α → β → Prop) :
    Except Numeral.Error (α × List Fault) → Except Numeral.Error (β × List Fault) → Prop where
  | ok (value : V a b) (faults : Forall₂ (Fault.Paired R.place) fs gs) :
      Gives V (.ok (a, fs)) (.ok (b, gs))
  | error : Gives V (.error error) (.error error)

end

variable {R : Pairing}

theorem rel_getLast? {ts us : List Token} (h : Forall₂ R.token ts us) :
    Option.Rel R.token ts.getLast? us.getLast? := by
  induction h with
  | nil => exact .none
  | cons htoken hrest ih =>
    cases hrest with
    | nil => exact .some htoken
    | cons _ _ => rwa [getLast?_cons_cons, getLast?_cons_cons]

theorem Gives.bind {x : Except Numeral.Error (α × List Fault)}
    {y : Except Numeral.Error (β × List Fault)}
    {f : α × List Fault → Except Numeral.Error (γ × List Fault)}
    {g : β × List Fault → Except Numeral.Error (δ × List Fault)} (hx : R.Gives V x y)
    (hf : ∀ a b fs gs, V a b → Forall₂ (Fault.Paired R.place) fs gs →
      R.Gives W (f (a, fs)) (g (b, gs))) : R.Gives W (x >>= f) (y >>= g) := by
  cases hx with
  | ok value faults => exact hf _ _ _ _ value faults
  | error => exact .error

namespace Reads

theorem pure {a : α} {b : β} (h : V a b) : R.Reads V (Pure.pure a) (Pure.pure b) :=
  fun _ _ hcursors => .ok h hcursors

theorem bind {x : Reader α} {y : Reader β} {f : α → Reader γ} {g : β → Reader δ}
    (hx : R.Reads V x y) (hf : ∀ a b, V a b → R.Reads W (f a) (g b)) :
    R.Reads W (x >>= f) (y >>= g) := by
  intro cursor other hcursors
  have hfirst := hx cursor other hcursors
  change R.Ends W (EStateM.bind x f cursor) (EStateM.bind y g other)
  unfold EStateM.bind
  generalize x cursor = result, y other = result' at hfirst
  cases hfirst with
  | ok value after => exact hf _ _ value _ _ after
  | fault found after => exact .fault found after
  | numeral => exact .numeral

theorem peek {f : Option Token → Reader α} {g : Option Token → Reader β}
    (hnone : R.Reads V (f none) (g none))
    (hsome : ∀ t u, R.token t u → R.Reads V (f (some t)) (g (some u))) :
    R.Reads V (Reader.peek >>= f) (Reader.peek >>= g) := by
  intro cursor other hcursors
  rw [peek_bind, peek_bind]
  cases hrest : cursor.rest with
  | nil =>
    obtain hnil := hcursors.rest
    rw [hrest, forall₂_nil_left_iff] at hnil
    rw [hnil]
    exact hnone _ _ hcursors
  | cons t ts =>
    obtain hcons := hcursors.rest
    rw [hrest, forall₂_cons_left_iff] at hcons
    obtain ⟨u, us, htoken, -, hother⟩ := hcons
    rw [hother]
    exact hsome t u htoken _ _ hcursors

theorem skip : R.Reads (fun _ _ => True) Reader.skip Reader.skip := by
  rintro ⟨rest, stop, faults⟩ ⟨rest', stop', faults'⟩ ⟨hrest, hstop, hfaults⟩
  refine .ok trivial ⟨?_, hstop, hfaults⟩
  cases hrest with
  | nil => exact .nil
  | cons _ hmore => exact hmore

theorem numeral (text : String) : R.Reads Eq (Reader.numeral text) (Reader.numeral text) := by
  intro cursor other hcursors
  unfold Reader.numeral
  cases Numeral.read text with
  | ok value => exact .ok rfl hcursors
  | error error => exact .numeral

theorem string {t u : Token} (h : R.Gives R.expr (strings t) (strings u)) :
    R.Reads R.expr (Reader.string strings t) (Reader.string strings u) := by
  intro cursor other hcursors
  unfold Reader.string
  generalize strings t = result, strings u = result' at h
  cases h with
  | ok value faults =>
    exact .ok value ⟨hcursors.rest, hcursors.stop, rel_append hcursors.faults faults⟩
  | error => exact .numeral

end Reads

/-- What the readers with some fuel make of tokens that belong together belongs together. -/
structure Agrees (R : Pairing) (strings : StringReader) (fuel : Nat) : Prop where
  tiers : ∀ levels, R.Reads R.expr (readTiers strings fuel levels) (readTiers strings fuel levels)
  tierTail : ∀ tier tighter {a b}, R.expr a b → R.Reads R.expr
    (readTierTail strings fuel tier tighter a) (readTierTail strings fuel tier tighter b)
  sum : R.Reads R.expr (readSum strings fuel) (readSum strings fuel)
  sumTail : ∀ {a b}, R.expr a b →
    R.Reads R.expr (readSumTail strings fuel a) (readSumTail strings fuel b)
  productTail : ∀ {a b}, R.expr a b →
    R.Reads R.expr (readProductTail strings fuel a) (readProductTail strings fuel b)
  sign : R.Reads R.expr (readSign strings fuel) (readSign strings fuel)
  suffixed : R.Reads R.expr (readPostfix strings fuel) (readPostfix strings fuel)
  suffixTail : ∀ {a b}, R.expr a b →
    R.Reads R.expr (readPostfixTail strings fuel a) (readPostfixTail strings fuel b)
  items : ∀ closing, R.Reads (Forall₂ R.expr) (readItems strings fuel closing)
    (readItems strings fuel closing)
  entries : R.Reads (Forall₂ R.entry) (readEntries strings fuel) (readEntries strings fuel)
  primary : R.Reads R.expr (readPrimary strings fuel) (readPrimary strings fuel)

namespace Lawful

variable (h : R.Lawful)

include h

theorem fail {cause : Fault.Found → Fault.Cause} (hcause : ∀ found, (cause found).isOfCode = true) :
    R.Reads V (Reader.fail cause) (Reader.fail cause) := by
  rintro ⟨rest, stop, faults⟩ ⟨rest', stop', faults'⟩ hcursors
  cases hcursors.rest with
  | nil => exact .fault ⟨hcursors.stop, rfl, hcause _⟩ hcursors
  | @cons t u ts us htoken _ =>
    refine .fault ⟨h.start htoken, congrArg cause ?_, hcause _⟩ hcursors
    obtain ⟨hkind, htext⟩ := h.shape htoken
    simp only [Fault.Found.ofTokens, hkind, htext]

theorem peekKind {f : Option Token.Kind → Reader α} {g : Option Token.Kind → Reader β}
    (hf : ∀ kind, R.Reads V (f kind) (g kind)) :
    R.Reads V (Reader.peekKind >>= f) (Reader.peekKind >>= g) := by
  refine Reads.peek (f := fun next => f (next.map Token.kind))
    (g := fun next => g (next.map Token.kind)) (hf none) fun t u htoken => ?_
  rw [Option.map_some, Option.map_some, (h.shape htoken).1]
  exact hf _

theorem expect (kind : Token.Kind) :
    R.Reads R.token (Reader.expect kind) (Reader.expect kind) := by
  refine .peek (h.fail fun _ => rfl) fun t u htoken => ?_
  dsimp only
  rw [(h.shape htoken).1]
  split
  · exact .bind .skip fun _ _ _ => .pure htoken
  · exact h.fail fun _ => rfl

/-- What readers look for in a token is told by its kind and its text. -/
theorem alike {t u : Token} (htoken : R.token t u) :
    (∀ tier, operator? tier u = operator? tier t) ∧ sign? u = sign? t ∧
        negated? u = negated? t := by
  obtain ⟨hkind, htext⟩ := h.shape htoken
  simp only [operator?, sign?, negated?, hkind, htext, implies_true, and_self]

section

variable {fuel : Nat} (ih : R.Agrees strings fuel) {a b : Expr}

include ih

theorem readTierTail (tier : Tier) (tighter : List Tier) (hleft : R.expr a b) :
    R.Reads R.expr (readTierTail strings (fuel + 1) tier tighter a)
      (readTierTail strings (fuel + 1) tier tighter b) := by
  refine .peek (.pure hleft) fun t u htoken => ?_
  rw [Option.bind_some, Option.bind_some, (h.alike htoken).1]
  split
  · exact .pure hleft
  · exact .bind .skip fun _ _ _ => (ih.tiers tighter).bind fun _ _ hright =>
      ih.tierTail tier tighter (h.join _ hleft hright)

theorem readProductTail (hleft : R.expr a b) :
    R.Reads R.expr (readProductTail strings (fuel + 1) a)
      (readProductTail strings (fuel + 1) b) := by
  refine .peek (.pure hleft) fun t u htoken => ?_
  rw [Option.bind_some, Option.bind_some, (h.alike htoken).1]
  split
  · exact .pure hleft
  · exact .bind .skip fun _ _ _ => ih.sign.bind fun _ _ hright =>
      ih.productTail (h.join _ hleft hright)

theorem readSumTail (hleft : R.expr a b) :
    R.Reads R.expr (readSumTail strings (fuel + 1) a) (readSumTail strings (fuel + 1) b) := by
  refine .peek (.pure hleft) fun t u htoken => ?_
  obtain ⟨hop, -, hnegated⟩ := h.alike htoken
  dsimp only
  rw [hop, hnegated]
  split
  · exact .bind .skip fun _ _ _ => ih.sign.bind fun _ _ hfirst =>
      (ih.productTail hfirst).bind fun _ _ hright => ih.sumTail (h.join _ hleft hright)
  · refine .bind .skip fun _ _ _ => .bind (V := R.expr) ?_ fun _ _ hfirst =>
      (ih.productTail hfirst).bind fun _ _ hright => ih.sumTail (h.join _ hleft hright)
    exact (Reads.numeral _).bind fun value _ heq => heq ▸ .pure (h.negated value _ htoken)
  · exact .pure hleft

theorem readSign :
    R.Reads R.expr (readSign strings (fuel + 1)) (readSign strings (fuel + 1)) := by
  refine .peek ih.suffixed fun t u htoken => ?_
  dsimp only
  rw [(h.alike htoken).2.1]
  split
  · exact ih.suffixed
  · exact .bind .skip fun _ _ _ => ih.sign.bind fun _ _ hargument =>
      .pure (h.unary _ htoken hargument)

theorem readPostfixTail (hvalue : R.expr a b) :
    R.Reads R.expr (readPostfixTail strings (fuel + 1) a)
      (readPostfixTail strings (fuel + 1) b) := by
  refine h.peekKind fun kind => ?_
  split
  · exact .bind .skip fun _ _ _ => (ih.items _).bind fun _ _ harguments =>
      (h.expect _).bind fun _ _ hclose => ih.suffixTail (h.call hclose hvalue harguments)
  · exact .bind .skip fun _ _ _ => (ih.tiers _).bind fun _ _ hindex =>
      (h.expect _).bind fun _ _ hclose => ih.suffixTail (h.index hclose hvalue hindex)
  · exact .bind .skip fun _ _ _ => (h.expect _).bind fun _ _ hname =>
      ih.suffixTail (h.member hname hvalue)
  · exact .pure hvalue

theorem readItems (closing : Token.Kind) :
    R.Reads (Forall₂ R.expr) (readItems strings (fuel + 1) closing)
      (readItems strings (fuel + 1) closing) := by
  refine h.peekKind fun kind => ?_
  split
  · exact .pure .nil
  · refine (ih.tiers _).bind fun _ _ hitem => h.peekKind fun next => ?_
    split
    · exact .bind .skip fun _ _ _ => (ih.items closing).bind fun _ _ hmore =>
        .pure (.cons hitem hmore)
    · exact .pure (.cons hitem .nil)

theorem readEntries :
    R.Reads (Forall₂ R.entry) (readEntries strings (fuel + 1))
      (readEntries strings (fuel + 1)) := by
  refine h.peekKind fun kind => ?_
  split
  · exact .pure .nil
  · refine (ih.tiers _).bind fun _ _ hkey => (h.expect _).bind fun _ _ _ =>
      (ih.tiers _).bind fun _ _ hvalue => h.peekKind fun next => ?_
    split
    · exact .bind .skip fun _ _ _ => ih.entries.bind fun _ _ hmore =>
        .pure (.cons (h.entry hkey hvalue) hmore)
    · exact .pure (.cons (h.entry hkey hvalue) .nil)

end

variable (hstrings : ∀ t u, R.token t u → t.kind = .string → R.Gives R.expr (strings t) (strings u))

include hstrings

theorem readPrimary {fuel : Nat} (ih : R.Agrees strings fuel) :
    R.Reads R.expr (readPrimary strings (fuel + 1)) (readPrimary strings (fuel + 1)) := by
  refine .peek (h.fail fun _ => rfl) fun t u htoken => ?_
  obtain ⟨hkind, htext⟩ := h.shape htoken
  dsimp only
  rw [hkind]
  split
  · rw [htext]
    exact .bind .skip fun _ _ _ => (Reads.numeral _).bind fun value _ heq =>
      heq ▸ .pure (htext ▸ h.literal value htoken)
  · rename_i hstring
    exact .bind .skip fun _ _ _ => .string (hstrings t u htoken hstring)
  · exact .bind .skip fun _ _ _ => .pure (h.identifier htoken)
  · exact .bind .skip fun _ _ _ => (ih.tiers _).bind fun _ _ hinner =>
      (h.expect _).bind fun _ _ _ => .pure hinner
  · exact .bind .skip fun _ _ _ => (ih.items _).bind fun _ _ helements =>
      (h.expect _).bind fun _ _ hclose => .pure (h.array htoken hclose helements)
  · exact .bind .skip fun _ _ _ => ih.entries.bind fun _ _ hentries =>
      (h.expect _).bind fun _ _ hclose => .pure (h.object htoken hclose hentries)
  · exact h.fail fun _ => rfl

/-- By induction on the fuel: a reader is put together from readers with less. -/
theorem agrees (fuel : Nat) : R.Agrees strings fuel := by
  induction fuel with
  | zero => constructor <;> intros <;> exact h.fail fun _ => rfl
  | succ fuel ih =>
    refine ⟨fun levels => ?_, fun tier tighter _ _ => h.readTierTail ih tier tighter,
      ih.sign.bind fun _ _ hfirst => (ih.productTail hfirst).bind fun _ _ => ih.sumTail,
      h.readSumTail ih, h.readProductTail ih, h.readSign ih,
      ih.primary.bind fun _ _ => ih.suffixTail, h.readPostfixTail ih, h.readItems ih,
      h.readEntries ih, h.readPrimary hstrings ih⟩
    cases levels with
    | nil => exact ih.sum
    | cons tier tighter => exact (ih.tiers tighter).bind fun _ _ => ih.tierTail tier tighter

theorem expression (assignment : Bool) (fuel : Nat) :
    R.Reads R.expr (readExpression strings assignment fuel)
      (readExpression strings assignment fuel) := by
  have hagrees := h.agrees hstrings fuel
  have hassign : R.Reads (Option.Rel R.expr) (readAssignment strings fuel)
      (readAssignment strings fuel) := by
    refine hagrees.suffixed.bind fun _ _ htarget => .peek (.pure .none) fun t u htoken => ?_
    rw [Option.bind_some, Option.bind_some, (h.alike htoken).1]
    split
    · exact .pure .none
    · exact .bind .skip fun _ _ _ => (hagrees.tiers _).bind fun _ _ hvalue =>
        .pure (.some (h.join _ htarget hvalue))
  intro cursor other hcursors
  have htry := hassign cursor other hcursors
  have htiers := hagrees.tiers Expr.tiers cursor other hcursors
  unfold readExpression
  split
  · generalize readAssignment strings fuel cursor = result,
      readAssignment strings fuel other = result' at htry
    cases htry with
    | ok value after =>
      cases value with
      | none => exact htiers
      | some hvalue => exact .ok hvalue after
    | fault => exact htiers
    | numeral => exact .numeral
  · exact htiers

theorem whole (assignment : Bool) (fuel : Nat) :
    R.Reads R.expr (readWhole strings assignment fuel) (readWhole strings assignment fuel) := by
  refine (h.expression hstrings assignment fuel).bind fun value other hvalue =>
    .peek (.pure hvalue) fun t u htoken _ _ hcursors => ?_
  exact .fault ⟨h.start htoken, congrArg Fault.Cause.leftover (h.shape htoken).2, rfl⟩ hcursors

theorem ofTokensWith {ts us : List Token} (htokens : Forall₂ R.token ts us) {p q : Position}
    (hanchor : R.place p q) (assignment : Bool) :
    R.Gives (Option.Rel R.expr) (ofTokensWith strings assignment p ts)
      (ofTokensWith strings assignment q us) := by
  have hcode : Forall₂ R.token (ts.filter (·.kind ≠ .comment)) (us.filter (·.kind ≠ .comment)) := by
    induction htokens with
    | nil => exact .nil
    | cons htoken _ ih =>
      rw [filter_cons, filter_cons, (h.shape htoken).1]
      split
      · exact .cons htoken ih
      · exact ih
  unfold Expr.ofTokensWith
  generalize ts.filter (·.kind ≠ .comment) = ts at hcode ⊢
  generalize us.filter (·.kind ≠ .comment) = us at hcode ⊢
  have hlast := rel_getLast? hcode
  dsimp only
  rw [← hcode.length_eq]
  generalize ts.getLast? = last at hlast ⊢
  generalize us.getLast? = last' at hlast ⊢
  cases hlast with
  | none => exact .ok .none (.cons ⟨hanchor, rfl, rfl⟩ .nil)
  | @some t u htoken =>
    have hread := h.whole hstrings assignment (fuelFor ts.length)
      ⟨ts, t.span.stop, []⟩ ⟨us, u.span.stop, []⟩ ⟨hcode, h.stop htoken, .nil⟩
    dsimp only
    generalize readWhole strings assignment (fuelFor ts.length) ⟨ts, t.span.stop, []⟩ = result,
      readWhole strings assignment (fuelFor ts.length) ⟨us, u.span.stop, []⟩ = result' at hread
    cases hread with
    | ok value after => exact .ok (.some value) after.faults
    | fault found after => exact .ok .none (rel_append after.faults (.cons found .nil))
    | numeral => exact .error

/-- The pieces of a literal are read alike if the tokens that they embed belong together. -/
theorem readPieces {t u : Token} (htoken : R.token t u) {pieces : List Piece}
    (hembedded : ∀ place content, Piece.braced place content ∈ pieces →
      Forall₂ R.token (Expr.embedded t place content) (Expr.embedded u place content)) :
    R.Gives (Forall₂ R.part) (readPieces strings t pieces) (readPieces strings u pieces) := by
  induction pieces with
  | nil => exact .ok .nil .nil
  | cons piece pieces ih =>
    have hrest := ih fun place content hmem => hembedded place content (mem_cons_of_mem _ hmem)
    cases piece with
    | text content => exact hrest.bind fun _ _ _ _ hparts hfaults => .ok (.cons rfl hparts) hfaults
    | braced place content =>
      have hvalue := h.ofTokensWith hstrings (hembedded place content mem_cons_self)
        (h.start htoken) false
      refine hvalue.bind fun _ _ _ _ hvalue hfaults => hrest.bind fun _ _ _ _ hparts hmore =>
        .ok (.cons ?_ hparts) (rel_append hfaults hmore)
      cases hvalue with
      | none => exact rfl
      | some hvalue => exact hvalue

omit hstrings

theorem readString (depth : Nat) {t u : Token} (htoken : R.token t u) (hkind : t.kind = .string) :
    R.Gives R.expr (readString depth t) (readString depth u) := by
  have hplain := h.literal (.text (String.ofList (unquoted t.text))) htoken
  obtain ⟨-, htext⟩ := h.shape htoken
  induction depth generalizing t u with
  | zero =>
    rw [Expr.readString, Expr.readString, htext]
    exact .ok (htext ▸ hplain) .nil
  | succ depth ih =>
    rw [Expr.readString, Expr.readString, htext]
    dsimp only
    split
    · have hparts := h.readPieces (fun t u htoken hkind => ih htoken hkind
        (h.literal _ htoken) (h.shape htoken).2) htoken fun place content hmem =>
          h.embedded htoken hkind hmem
      exact hparts.bind fun _ _ _ _ hparts hfaults => .ok (h.interpolated htoken hparts) hfaults
    · exact .ok (htext ▸ hplain) .nil

theorem ofTokens {ts us : List Token} (htokens : Forall₂ R.token ts us) {p q : Position}
    (hanchor : R.place p q) (assignment : Bool) :
    R.Gives (Option.Rel R.expr) (ofTokens assignment p ts) (ofTokens assignment q us) := by
  have hdepth (n : Nat) : us.foldl (fun n token => max n token.text.length) n =
      ts.foldl (fun n token => max n token.text.length) n := by
    induction htokens generalizing n with
    | nil => rfl
    | cons htoken _ ih => rw [foldl_cons, foldl_cons, (h.shape htoken).2, ih]
  rw [Expr.ofTokens, Expr.ofTokens, hdepth]
  exact h.ofTokensWith (fun t u => h.readString _) htokens hanchor assignment

end Lawful
end Pairing
end Expr
end GuidedTrack
