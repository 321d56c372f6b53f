import GuidedTrack.Proofs.Expr.ReaderSoundness

/-! # Readers find every phrase

A phrase in front of tokens that cannot go on with it is read to its end, whatever else the tokens
hold. `Takes` says so of one reader; the fuel a phrase needs grows with the tokens in sight.
-/

namespace GuidedTrack.Expr

open Reader List Phrase Token Nat

variable {α β : Type} {strings : StringReader} {p : Fault → Prop} {op : BinaryOp}
  {left right value : Expr} {tighter : List Tier} {n fuel : Nat} {phrase : Phrase} {tier : Tier}
  {token : Token}

/-- The reader takes what stands before `rest` for `value`, with no faults but those let pass. -/
def Takes (p : Fault → Prop) (x : Reader α) (ts rest : List Token) (value : α) : Prop :=
  ∀ stop faults, ∃ more, x ⟨ts, stop, faults⟩ = .ok value ⟨rest, stop, faults ++ more⟩ ∧
    ∀ fault ∈ more, p fault

namespace Takes

variable {ts us rest : List Token}

theorem pure (ts : List Token) (value : α) : Takes p (Pure.pure value : Reader α) ts ts value := by
  intro stop faults
  exact ⟨[], by rw [append_nil]; rfl, by simp⟩

theorem bind {x : Reader α} {f : α → Reader β} {value : α} {w : β} (hx : Takes p x ts us value)
    (hf : Takes p (f value) us rest w) : Takes p (x >>= f) ts rest w := by
  intro stop faults
  obtain ⟨more, hresult, hmore⟩ := hx stop faults
  obtain ⟨others, hagain, hothers⟩ := hf stop (faults ++ more)
  refine ⟨more ++ others, ?_, ?_⟩
  · change EStateM.bind x f _ = _
    unfold EStateM.bind
    rw [hresult, ← append_assoc]
    exact hagain
  · rw [forall_mem_append]
    exact ⟨hmore, hothers⟩

theorem skip {f : Unit → Reader β} {w : β} (h : Takes p (f ()) ts rest w) :
    Takes p (Reader.skip >>= f) (token :: ts) rest w :=
  h

theorem peek {f : Option Token → Reader β} {w : β} (h : Takes p (f ts.head?) ts rest w) :
    Takes p (Reader.peek >>= f) ts rest w :=
  h

theorem peekKind {f : Option Kind → Reader β} {w : β}
    (h : Takes p (f (ts.head?.map kind)) ts rest w) :
    Takes p (Reader.peekKind >>= f) ts rest w :=
  h

theorem expect {kind : Kind} (h : token.kind = kind) :
    Takes p (Reader.expect kind) (token :: ts) ts token := by
  refine peek ?_
  dsimp only [head?_cons]
  rw [if_pos h]
  exact skip (pure ts token)

theorem closing {kind : Kind} {x : Reader α} {f : α → Token → Reader β} {value : α} {w : β}
    (hx : Takes p x ts (token :: us) value) (hkind : token.kind = kind)
    (hf : Takes p (f value token) us rest w) :
    Takes p (x >>= fun value => Reader.expect kind >>= f value) ts rest w :=
  hx.bind ((expect hkind).bind hf)

end Takes

theorem operator?_head {ts : List Token} (h : ∀ token ∈ ts.head?, operator? tier token = none) :
    ts.head?.bind (operator? tier) = none := by
  cases ts with
  | nil => rfl
  | cons token ts => exact h token rfl

def opensSuffix (token : Token) : Bool :=
  token.kind == .leftParen || token.kind == .leftBracket || token.kind == .dot

/-! ## What may follow a phrase -/

/-- The token goes on neither with a sum nor with the operators of the given tiers. -/
structure Separates (levels : List Tier) (token : Token) : Prop where
  suffix : opensSuffix token = false
  factor : operator? [.multiply, .divide, .remainder] token = none
  term : operator? [.add, .subtract] token = none
  negated : negated? token = none
  levels : ∀ tier ∈ levels, operator? tier token = none

def tightOps : List BinaryOp :=
  [.add, .subtract, .multiply, .divide, .remainder]

namespace Phrase

def Ends : Phrase → List Token → Prop
  | tiers levels, rest => ∀ token ∈ rest.head?, Separates levels token
  | tierTail tier tighter _, rest => ∀ token ∈ rest.head?, Separates (tier :: tighter) token
  | sum, rest | sumTail _, rest => ∀ token ∈ rest.head?, Separates [] token
  | product, rest | productTail _, rest => ∀ token ∈ rest.head?,
      opensSuffix token = false ∧ operator? [.multiply, .divide, .remainder] token = none
  | sign, rest | suffixed, rest | suffixTail _, rest => ∀ token ∈ rest.head?,
      opensSuffix token = false
  | primary, _ => True
  | items closing, rest => rest.head?.map kind = some closing
  | entries, rest => rest.head?.map kind = some .rightBrace

/-- No operator belongs to two tiers of a phrase, and lists end with a bracket. -/
def Proper : Phrase → Prop
  | tiers levels => (levels.flatten ++ tightOps).Nodup
  | tierTail tier tighter _ => ((tier :: tighter).flatten ++ tightOps).Nodup
  | items closing => closing = .rightParen ∨ closing = .rightBracket
  | _ => True

/-- The fuel a phrase needs beyond that for the tokens in sight. -/
def rank : Phrase → Nat
  | tiers levels => levels.length + 6
  | tierTail _ tighter _ => tighter.length + 1
  | sum => 5
  | product => 4
  | sign => 3
  | suffixed => 2
  | sumTail _ | productTail _ | suffixTail _ | primary => 1
  | items _ | entries => 12

theorem proper_whole : whole.Proper := by
  unfold Proper
  decide

end Phrase

theorem separates_of_kind {levels : List Tier} (hop : token.kind ≠ .operator)
    (hnumber : token.kind ≠ .number) (hopens : opensSuffix token = false) :
    Separates levels token where
  suffix := hopens
  factor := by simp [operator?, hop]
  term := by simp [operator?, hop]
  negated := by
    cases h : negated? token with
    | none => rfl
    | some raw => exact absurd (negated?_eq_some.mp h).1 hnumber
  levels := by simp [operator?, hop]

theorem operator?_eq_none (hspells : Spells token op) (hmem : op ∉ tier) :
    operator? tier token = none := by
  cases h : operator? tier token with
  | none => rfl
  | some other =>
    obtain ⟨hother, -, htext⟩ := operator?_eq_some.mp h
    rw [hspells.2] at htext
    exact absurd (symbol_injective htext ▸ hother) hmem

theorem opensSuffix_of_spells (h : Spells token op) : opensSuffix token = false := by
  simp [opensSuffix, h.1]

theorem negated?_of_spells (h : Spells token op) : negated? token = none := by
  simp [negated?, h.1]

/-! ## The front of a phrase -/

def atomKinds : List Kind :=
  [.number, .string, .identifier, .leftParen, .leftBracket, .leftBrace]

def Phrase.Starts : Phrase → List Token → Prop
  | suffixed, ts | primary, ts => ∃ token us, ts = token :: us ∧ token.kind ∈ atomKinds
  | tiers _, ts | sum, ts | product, ts | sign, ts =>
    ∃ token us, ts = token :: us ∧ token.kind ∈ .operator :: atomKinds
  | _, _ => True

variable {S : Token → Expr → Prop} {phrase : Phrase} {ts us rest : List Token}

theorem Derives.starts {value : phrase.Value} (h : Derives S phrase ts rest value) :
    phrase.Starts ts := by
  induction h with
  | sum inner ih | tier operand tail ih _ | terms operand tail ih _ | factors operand tail ih _
  | suffixed inner tail ih _ => exact ih
  | signed spells operand ih => exact ⟨_, _, rfl, by simp [spells.1]⟩
  | unsigned inner ih =>
    obtain ⟨token, us, rfl, hkind⟩ := ih
    exact ⟨token, us, rfl, mem_cons_of_mem _ hkind⟩
  | number kind read | string kind stands | identifier kind =>
    exact ⟨_, _, rfl, by simp [kind, atomKinds]⟩
  | bracketed opens closes inner ih | array opens closes inner ih | object opens closes inner ih =>
    exact ⟨_, _, rfl, by simp [opens, atomKinds]⟩
  | _ => trivial

theorem Derives.length_le {value : phrase.Value} (h : Derives S phrase ts rest value) :
    rest.length ≤ ts.length := by
  induction h <;> grind

theorem sign?_of_starts (h : suffixed.Starts ts) : ∀ token ∈ ts.head?, sign? token = none := by
  obtain ⟨token, us, rfl, hkind⟩ := h
  rintro _ ⟨⟩
  have hop : token.kind ≠ .operator := by
    intro h
    rw [h] at hkind
    revert hkind
    decide
  simp [sign?, hop]

theorem head_of_starts (h : whole.Starts ts) (closing : Kind)
    (hclosing : closing ∉ Token.Kind.operator :: atomKinds) :
    ts.head?.map kind ≠ none ∧ ts.head?.map kind ≠ some closing := by
  obtain ⟨token, us, rfl, hkind⟩ := h
  refine ⟨by simp, ?_⟩
  intro heq
  rw [head?_cons, Option.map_some, Option.some.injEq] at heq
  exact hclosing (heq ▸ hkind)

/-! ## Between the parts of a phrase -/

theorem Derives.ends_of_tierTail (h : Derives S (.tierTail tier tighter left) ts rest value)
    (hproper : (tierTail tier tighter left).Proper)
    (hends : (Phrase.tierTail tier tighter left).Ends rest) : (Phrase.tiers tighter).Ends ts := by
  cases h with
  | tierStop =>
    intro token htoken
    obtain ⟨hsuffix, hfactor, hterm, hnegated, hlevels⟩ := hends token htoken
    exact ⟨hsuffix, hfactor, hterm, hnegated,
      fun other hother => hlevels other (mem_cons_of_mem tier hother)⟩
  | @tierStep _ _ token op us _ _ _ _ _ mem spells operand tail =>
    rintro _ ⟨⟩
    have hapart : op ∉ tighter.flatten ++ tightOps := by
      simp only [Proper, flatten_cons, append_assoc] at hproper
      exact fun hmem => (nodup_append.mp hproper).2.2 op mem op hmem rfl
    rw [mem_append, not_or] at hapart
    refine ⟨opensSuffix_of_spells spells, operator?_eq_none spells ?_,
      operator?_eq_none spells ?_, negated?_of_spells spells, ?_⟩
    · exact fun hmem => hapart.2 (mem_of_mem_drop (i := 2) hmem)
    · exact fun hmem => hapart.2 (mem_of_mem_take (i := 2) hmem)
    · intro other hother
      exact operator?_eq_none spells fun hmem =>
        hapart.1 (mem_flatten.mpr ⟨other, hother, hmem⟩)

theorem Derives.ends_of_sumTail (h : Derives S (.sumTail left) ts rest value)
    (hends : (sumTail left).Ends rest) : product.Ends ts := by
  cases h with
  | sumStop => exact fun token htoken => ⟨(hends token htoken).suffix, (hends token htoken).factor⟩
  | @sumStep token op us _ _ _ _ _ mem spells operand tail =>
    rintro _ ⟨⟩
    refine ⟨opensSuffix_of_spells spells, operator?_eq_none spells ?_⟩
    rcases mem with rfl | rfl <;> decide
  | @sumNegated token raw number us _ _ _ _ _ negates read operand tail =>
    rintro _ ⟨⟩
    simp [opensSuffix, operator?, negates.1]

theorem Derives.ends_of_productTail (h : Derives S (.productTail left) ts rest value)
    (hends : (productTail left).Ends rest) : sign.Ends ts := by
  cases h with
  | productStop => exact fun token htoken => (hends token htoken).1
  | productStep mem spells operand tail =>
    rintro _ ⟨⟩
    exact opensSuffix_of_spells spells

def closingKinds : List Kind :=
  [.rightParen, .rightBracket, .rightBrace, .comma, .arrow]

theorem ends_of_kind {levels : List Tier} {kind : Kind}
    (h : rest.head?.map Token.kind = some kind) (hkind : kind ∈ closingKinds) :
    (Phrase.tiers levels).Ends rest := by
  intro token htoken
  rw [Option.mem_def] at htoken
  obtain rfl : token.kind = kind := by simpa [htoken] using h
  have hfacts : token.kind ≠ .operator ∧ token.kind ≠ .number ∧ opensSuffix token = false := by
    unfold opensSuffix
    generalize token.kind = kind at hkind ⊢
    simp only [closingKinds, mem_cons, not_mem_nil, or_false] at hkind
    rcases hkind with rfl | rfl | rfl | rfl | rfl <;> decide
  exact separates_of_kind hfacts.1 hfacts.2.1 hfacts.2.2

theorem Phrase.proper_tighter (h : (tiers (tier :: tighter)).Proper) :
    (tiers tighter).Proper := by
  simp only [Proper, flatten_cons, append_assoc] at h ⊢
  exact (nodup_append.mp h).2.1

theorem closing_not_starter {closing : Kind} (h : (items closing).Proper) :
    closing ∉ Token.Kind.operator :: atomKinds := by
  rcases h with rfl | rfl <;> decide

theorem closing_mem {closing : Kind} (h : (items closing).Proper) :
    closing ∈ closingKinds := by
  rcases h with rfl | rfl <;> decide

theorem Phrase.rank_pos (phrase : Phrase) : 1 ≤ phrase.rank := by
  cases phrase <;> simp [rank]

theorem fuel_below {inner : Phrase} {m : Nat} (h : 16 * n + phrase.rank ≤ fuel + 1) (hle : m ≤ n)
    (hrank : Nat.blt inner.rank phrase.rank = true) : 16 * m + inner.rank ≤ fuel := by
  rw [Nat.blt_eq] at hrank
  omega

theorem fuel_past {inner : Phrase} {m : Nat} (h : 16 * n + phrase.rank ≤ fuel + 1) (hlt : m < n)
    (hrank : Nat.ble inner.rank (phrase.rank + 15) = true) : 16 * m + inner.rank ≤ fuel := by
  rw [Nat.ble_eq] at hrank
  omega

/-- With some fuel a phrase is read to its end where the tokens behind it cannot go on with it. -/
def Finds (strings : StringReader) (p : Fault → Prop) (fuel : Nat) (phrase : Phrase) : Prop :=
  ∀ ⦃ts rest : List Token⦄ ⦃value : phrase.Value⦄,
    Derives (Stands strings p) phrase ts rest value → phrase.Proper → phrase.Ends rest →
      16 * ts.length + phrase.rank ≤ fuel → Takes p (phrase.run strings fuel) ts rest value

namespace Finds

variable (ih : ∀ phrase, Finds strings p fuel phrase)
include ih

theorem tiers (levels : List Tier) : Finds strings p (fuel + 1) (.tiers levels) := by
  intro ts rest value h hproper hends hfuel
  cases h with
  | sum inner => exact ih .sum inner trivial hends (fuel_below hfuel Nat.le.refl rfl)
  | tier operand tail =>
    exact Takes.bind
      (ih _ operand (proper_tighter hproper) (tail.ends_of_tierTail hproper hends)
        (fuel_below hfuel Nat.le.refl (by simp [rank])))
      (ih _ tail hproper hends (fuel_below hfuel operand.length_le (by simp [rank])))

theorem tierTail (tier : Tier) (tighter : List Tier) (left : Expr) :
    Finds strings p (fuel + 1) (.tierTail tier tighter left) := by
  intro ts rest value h hproper hends hfuel
  refine Takes.peek ?_
  cases h with
  | tierStop =>
    rw [operator?_head fun token htoken => (hends token htoken).levels _ mem_cons_self]
    exact .pure _ _
  | tierStep mem spells operand tail =>
    simp only [head?_cons, Option.bind_some, operator?_eq_some.mpr ⟨mem, spells⟩]
    exact .skip (.bind
      (ih _ operand (proper_tighter hproper) (tail.ends_of_tierTail hproper hends)
        (fuel_past hfuel Nat.le.refl (by simp [rank])))
      (ih _ tail hproper hends
        (fuel_past hfuel (lt_succ_of_le operand.length_le) (by simp [rank]))))

theorem product : Finds strings p (fuel + 1) .product := by
  intro ts rest value h _ hends hfuel
  cases h with
  | factors operand tail =>
    exact Takes.bind
      (ih _ operand trivial (tail.ends_of_productTail hends) (fuel_below hfuel Nat.le.refl rfl))
      (ih _ tail trivial hends (fuel_below hfuel operand.length_le rfl))

theorem productTail (left : Expr) : Finds strings p (fuel + 1) (.productTail left) := by
  intro ts rest value h _ hends hfuel
  refine Takes.peek ?_
  cases h with
  | productStop =>
    rw [operator?_head fun token htoken => (hends token htoken).2]
    exact .pure _ _
  | @productStep token op _ _ _ _ _ _ mem spells operand tail =>
    have hop : operator? [.multiply, .divide, .remainder] token = some op :=
      operator?_eq_some.mpr ⟨by simpa using mem, spells⟩
    simp only [head?_cons, Option.bind_some, hop]
    exact .skip (.bind
      (ih _ operand trivial (tail.ends_of_productTail hends) (fuel_past hfuel Nat.le.refl rfl))
      (ih _ tail trivial hends (fuel_past hfuel (lt_succ_of_le operand.length_le) rfl)))

theorem sum : Finds strings p (fuel + 1) .sum := by
  intro ts rest value h _ hends hfuel
  cases h with
  | terms operand tail =>
    rw [run, readSum, ← bind_assoc]
    exact Takes.bind
      (product ih operand trivial (tail.ends_of_sumTail hends)
        (Nat.le_succ_of_le (fuel_below hfuel Nat.le.refl rfl)))
      (ih _ tail trivial hends (fuel_below hfuel operand.length_le rfl))

theorem sumTail (left : Expr) : Finds strings p (fuel + 1) (.sumTail left) := by
  intro ts rest value h _ hends hfuel
  refine Takes.peek ?_
  cases h with
  | sumStop =>
    cases ts with
    | nil => exact .pure _ _
    | cons token ts =>
      simp only [head?_cons, (hends token rfl).term, (hends token rfl).negated]
      exact .pure _ _
  | @sumStep token op _ _ _ _ _ _ mem spells operand tail =>
    have hop : operator? [.add, .subtract] token = some op :=
      operator?_eq_some.mpr ⟨by simpa using mem, spells⟩
    simp only [head?_cons, hop]
    refine .skip ?_
    rw [← bind_assoc]
    exact Takes.bind
      (product ih operand trivial (tail.ends_of_sumTail hends)
        (le_succ_of_le (fuel_past hfuel Nat.le.refl rfl)))
      (ih _ tail trivial hends (fuel_past hfuel (lt_succ_of_le operand.length_le) rfl))
  | @sumNegated token _ _ _ _ _ _ _ _ negates read operand tail =>
    have hop : operator? [.add, .subtract] token = none := by simp [operator?, negates.1]
    simp only [head?_cons, hop, negated?_eq_some.mpr negates]
    refine .skip ?_
    rw [Expr.unsigned, bind_assoc, numeral_of_read read, pure_bind, pure_bind]
    exact Takes.bind
      (ih _ operand trivial (tail.ends_of_sumTail hends) (fuel_past hfuel Nat.le.refl rfl))
      (ih _ tail trivial hends (fuel_past hfuel (lt_succ_of_le operand.length_le) rfl))

theorem sign : Finds strings p (fuel + 1) .sign := by
  intro ts rest value h _ hends hfuel
  refine Takes.peek ?_
  cases h with
  | signed spells operand =>
    simp only [head?_cons, sign?_eq_some.mpr spells]
    exact .skip (.bind (ih _ operand trivial hends (fuel_past hfuel Nat.le.refl rfl)) (.pure _ _))
  | unsigned inner =>
    obtain ⟨token, us, rfl, -⟩ := inner.starts
    simp only [head?_cons, sign?_of_starts inner.starts token rfl]
    exact ih _ inner trivial hends (fuel_below hfuel Nat.le.refl rfl)

theorem suffixed : Finds strings p (fuel + 1) .suffixed := by
  intro ts rest value h _ hends hfuel
  cases h with
  | suffixed inner tail =>
    exact Takes.bind
      (ih _ inner trivial trivial (fuel_below hfuel Nat.le.refl rfl))
      (ih _ tail trivial hends (fuel_below hfuel inner.length_le rfl))

theorem suffixTail (value : Expr) : Finds strings p (fuel + 1) (.suffixTail value) := by
  intro ts rest value h _ hends hfuel
  refine Takes.peekKind ?_
  cases h with
  | suffixStop =>
    cases ts with
    | nil => exact .pure _ _
    | cons token ts =>
      have hkind := hends token rfl
      rw [opensSuffix] at hkind
      rw [head?_cons, Option.map_some]
      cases hcase : token.kind <;> first | exact .pure _ _ | simp [hcase] at hkind
  | call opens closes inner tail =>
    simp only [head?_cons, Option.map_some, opens]
    exact .skip (.closing
      (ih _ inner (.inl rfl) (congrArg some closes) (fuel_past hfuel Nat.le.refl rfl)) closes
      (ih _ tail trivial hends
        (fuel_past hfuel (lt_succ_of_le (le_of_succ_le inner.length_le)) rfl)))
  | index opens closes inner tail =>
    simp only [head?_cons, Option.map_some, opens]
    exact .skip (.closing
      (ih _ inner proper_whole (ends_of_kind (congrArg some closes) (by decide))
        (fuel_past hfuel Nat.le.refl rfl)) closes
      (ih _ tail trivial hends
        (fuel_past hfuel (lt_succ_of_le (le_of_succ_le inner.length_le)) rfl)))
  | member opens names tail =>
    simp only [head?_cons, Option.map_some, opens]
    exact .skip (.bind (.expect names)
      (ih _ tail trivial hends (fuel_past hfuel (lt_succ_of_le (le_succ _)) rfl)))

theorem primary : Finds strings p (fuel + 1) .primary := by
  intro ts rest value h _ _ hfuel
  refine Takes.peek ?_
  cases h with
  | number kind read =>
    simp only [head?_cons, kind, numeral_of_read read, pure_bind]
    exact .skip (.pure _ _)
  | string kind stands =>
    obtain ⟨more, hstring, hmore⟩ := stands
    simp only [head?_cons, kind]
    exact .skip fun stop faults => ⟨more, string_of_ok hstring _ stop faults, hmore⟩
  | identifier kind =>
    simp only [head?_cons, kind]
    exact .skip (.pure _ _)
  | bracketed opens closes inner =>
    simp only [head?_cons, opens]
    exact .skip (.closing (ih _ inner proper_whole (ends_of_kind (congrArg some closes) (by decide))
      (fuel_past hfuel Nat.le.refl rfl)) closes (.pure _ _))
  | array opens closes inner =>
    simp only [head?_cons, opens]
    exact .skip (.closing (ih _ inner (.inr rfl) (congrArg some closes)
      (fuel_past hfuel Nat.le.refl rfl)) closes (.pure _ _))
  | object opens closes inner =>
    simp only [head?_cons, opens]
    exact .skip (.closing (ih _ inner trivial (congrArg some closes)
      (fuel_past hfuel Nat.le.refl rfl)) closes (.pure _ _))

theorem items (closing : Kind) : Finds strings p (fuel + 1) (.items closing) := by
  intro ts rest value h hproper hends hfuel
  refine Takes.peekKind ?_
  cases h with
  | noItems =>
    rw [hends, if_pos (by simp)]
    exact .pure _ _
  | lastItem inner =>
    have hstart := head_of_starts inner.starts _ (closing_not_starter hproper)
    rw [if_neg (by simp [hstart])]
    refine .bind (ih _ inner proper_whole (ends_of_kind hends (closing_mem hproper))
      (fuel_below hfuel Nat.le.refl rfl)) (.peekKind ?_)
    rw [hends, if_neg (by rcases hproper with rfl | rfl <;> simp)]
    exact .pure _ _
  | moreItems inner divides more =>
    have hstart := head_of_starts inner.starts _ (closing_not_starter hproper)
    rw [if_neg (by simp [hstart])]
    refine .bind (ih _ inner proper_whole (ends_of_kind (congrArg some divides) (by decide))
      (fuel_below hfuel Nat.le.refl rfl)) (.peekKind ?_)
    rw [head?_cons, Option.map_some, if_pos (congrArg some divides)]
    exact .skip (.bind (ih _ more hproper hends (fuel_past hfuel inner.length_le rfl)) (.pure _ _))

theorem entries : Finds strings p (fuel + 1) .entries := by
  intro ts rest value h _ hends hfuel
  refine Takes.peekKind ?_
  cases h with
  | noEntries =>
    rw [hends, if_pos (by simp)]
    exact .pure _ _
  | lastEntry left points right =>
    have hstart := head_of_starts left.starts .rightBrace (by decide)
    rw [if_neg (by simp [hstart])]
    refine .closing (ih _ left proper_whole (ends_of_kind (congrArg some points) (by decide))
      (fuel_below hfuel Nat.le.refl rfl)) points
        (.bind (ih _ right proper_whole (ends_of_kind hends (by decide))
          (fuel_past hfuel left.length_le rfl)) (.peekKind ?_))
    rw [hends, if_neg (by simp)]
    exact .pure _ _
  | moreEntries left points right divides more =>
    have hstart := head_of_starts left.starts .rightBrace (by decide)
    have hmore :=
      Nat.lt_trans (Nat.lt_of_succ_le right.length_le) (Nat.lt_of_succ_le left.length_le)
    rw [if_neg (by simp [hstart])]
    refine .closing (ih _ left proper_whole (ends_of_kind (congrArg some points) (by decide))
      (fuel_below hfuel Nat.le.refl rfl)) points
        (.bind (ih _ right proper_whole (ends_of_kind (congrArg some divides) (by decide))
          (fuel_past hfuel left.length_le rfl)) (.peekKind ?_))
    rw [head?_cons, Option.map_some, if_pos (congrArg some divides)]
    exact .skip (.bind (ih _ more trivial hends (fuel_past hfuel hmore rfl)) (.pure _ _))

end Finds

/-- By induction on the fuel, one nonterminal at a time. -/
theorem finds (strings : StringReader) (p : Fault → Prop) (fuel : Nat) (phrase : Phrase) :
    Finds strings p fuel phrase := by
  induction fuel generalizing phrase with
  | zero =>
    intro ts rest value _ _ _ hfuel
    have hpos := phrase.rank_pos
    omega
  | succ fuel ih =>
    cases phrase with
    | tiers levels => exact .tiers ih levels
    | tierTail tier tighter left => exact .tierTail ih tier tighter left
    | sum => exact .sum ih
    | sumTail left => exact .sumTail ih left
    | product => exact .product ih
    | productTail left => exact .productTail ih left
    | sign => exact .sign ih
    | suffixed => exact .suffixed ih
    | suffixTail value => exact .suffixTail ih value
    | items closing => exact .items ih closing
    | entries => exact .entries ih
    | primary => exact .primary ih

/-- A phrase before tokens that cannot go on with it is read to its end. -/
theorem Derives.takes {value : phrase.Value} (h : Derives (Stands strings p) phrase ts rest value)
    (hproper : phrase.Proper) (hends : phrase.Ends rest)
    (hfuel : 16 * ts.length + phrase.rank ≤ fuel) :
    Takes p (phrase.run strings fuel) ts rest value :=
  finds strings p fuel phrase h hproper hends hfuel

end GuidedTrack.Expr
