import GuidedTrack.Proofs.Expr.SimilarTrees
import GuidedTrack.Proofs.Expr.WholeExpressions
import GuidedTrack.Proofs.Token.LexemeText
import Mathlib.Logic.Basic

/-! # Unfolded subtractions

Behind an operand, `-1` may be one numeral or a minus and a numeral, and both are read as the same
subtraction. So a derivation over some tokens is carried over to tokens in which such numerals are
unfolded, and to other places: the trees differ in their places only, and their names stand at
corresponding offsets if those of the tokens do.
-/

namespace GuidedTrack.Expr

open List GuidedTrack.Expr

variable {op : BinaryOp} {value : Expr} {rest : List Token}

/-- The tokens say the same, names at corresponding offsets and literals by what `S` and `T` make of
them. -/
structure Alike (ρ : Int → Int → Prop) (S T : Token → Expr → Prop) (t u : Token) : Prop where
  kind : u.kind = t.kind
  text : u.text = t.text
  place : t.kind = .identifier → ρ t.span.start.offset u.span.start.offset
  string : t.kind = .string → ∀ value, S t value → ∃ other, T u other ∧ value.Like (Offsets ρ) other

/-- `Unfolds R operand ts us`: the tokens `us` stand for `ts` one by one as `R` says, but where no
operand is due, a minus may be set apart from the numeral that it was folded into. -/
inductive Unfolds (R : Token → Token → Prop) : Bool → List Token → List Token → Prop where
  | nil {operand : Bool} : Unfolds R operand [] []
  | same {operand : Bool} {t u : Token} {ts us : List Token} (alike : R t u)
      (rest : Unfolds R t.kind.opensOperand ts us) : Unfolds R operand (t :: ts) (u :: us)
  | split {t minus number : Token} {raw : String} {ts us : List Token} (negates : Negates t raw)
      (spells : Spells minus .subtract) (kind : number.kind = .number) (text : number.text = raw)
      (rest : Unfolds R false ts us) : Unfolds R false (t :: ts) (minus :: number :: us)

variable {ρ : Int → Int → Prop} {S T : Token → Expr → Prop} {operand : Bool} {t : Token}
    {ts us : List Token}

theorem Unfolds.cons {kind : Token.Kind} (h : Unfolds (Alike ρ S T) operand (t :: ts) us)
    (hkind : t.kind = kind) (hnumber : operand = true ∨ kind ≠ .number) :
    ∃ u vs, us = u :: vs ∧ u.kind = kind ∧ Alike ρ S T t u ∧
      Unfolds (Alike ρ S T) kind.opensOperand ts vs := by
  subst hkind
  cases h with
  | same alike rest => exact ⟨_, _, rfl, alike.kind, alike, rest⟩
  | split negates => exact absurd negates.1 (hnumber.resolve_left (by decide))

def Phrase.Like (ρ : Int → Int → Prop) : (phrase : Phrase) → phrase.Value → phrase.Value → Prop
  | items _, values, others => LikeList (Offsets ρ) values others
  | entries, values, others => Entry.LikeList (Offsets ρ) values others
  | tiers _, value, other | tierTail _ _ _, value, other | sum, value, other
  | sumTail _, value, other | product, value, other | productTail _, value, other
  | sign, value, other | suffixed, value, other | suffixTail _, value, other
  | primary, value, other => Expr.Like (Offsets ρ) value other

/-- Some phrase `D` can be read whose value is like `value`, and what is left then corresponds to
`rest`. -/
def Lands {α : Type} (ρ : Int → Int → Prop) (S T : Token → Expr → Prop) (D : List Token → α → Prop)
    (like : α → α → Prop) (rest : List Token) (value : α) : Prop :=
  ∃ operand left other, D left other ∧ Unfolds (Alike ρ S T) operand rest left ∧ like value other

theorem Lands.bind {α β : Type} {D : List Token → α → Prop}
    {E : List Token → α → List Token → β → Prop} {F : List Token → β → Prop} {like : α → α → Prop}
    {like' : β → β → Prop} {us : List Token} {first : α} {value : β}
    (h : Lands ρ S T D like us first)
    (hnext : ∀ k vs other, Unfolds (Alike ρ S T) k us vs → like first other →
      Lands ρ S T (E vs other) like' rest value)
    (hjoin : ∀ vs other left result, D vs other → E vs other left result → F left result) :
    Lands ρ S T F like' rest value := by
  obtain ⟨k, vs, other, hother, hvs, hsame⟩ := h
  obtain ⟨k', left, result, hresult, hleft, hlike⟩ := hnext k vs other hvs hsame
  exact ⟨k', left, result, hjoin vs other left result hother hresult, hleft, hlike⟩

/-- The right operand of `op`, and then the tail behind both operands. -/
theorem Lands.join {D F : List Token → Expr → Prop}
    {E : List Token → Expr → List Token → Expr → Prop} {us : List Token} {left left' right : Expr}
    (h : Lands ρ S T D (Like (Offsets ρ)) us right) (hleft : left.Like (Offsets ρ) left')
    (htail : ∀ k vs other, Unfolds (Alike ρ S T) k us vs →
      (join op left right).Like (Offsets ρ) other →
        Lands ρ S T (E vs other) (Like (Offsets ρ)) rest value)
    (hjoin : ∀ vs other remaining result, D vs other →
      E vs (join op left' other) remaining result → F remaining result) :
    Lands ρ S T F (Like (Offsets ρ)) rest value :=
  h.bind (E := fun vs other => E vs (Expr.join op left' other))
    (fun k vs _ hvs hsame => htail k vs _ hvs (.binary hleft hsame)) hjoin

theorem Lands.imp {α : Type} {D F : List Token → α → Prop} {like : α → α → Prop} {value : α}
    (h : Lands ρ S T D like rest value) (himp : ∀ left other, D left other → F left other) :
    Lands ρ S T F like rest value := by
  obtain ⟨k, left, other, hother, hleft, hlike⟩ := h
  exact ⟨k, left, other, himp left other hother, hleft, hlike⟩

/-- What is left starts with a token that is no numeral. -/
theorem Lands.next {α : Type} {D : List Token → α → Prop} {like : α → α → Prop} {value : α}
    {kind : Token.Kind} (h : Lands ρ S T D like (t :: rest) value) (hkind : t.kind = kind)
    (hnumber : kind ≠ .number) :
    ∃ u us other, D (u :: us) other ∧ u.kind = kind ∧
      Unfolds (Alike ρ S T) kind.opensOperand rest us ∧ like value other := by
  obtain ⟨k, left, other, hother, hleft, hlike⟩ := h
  obtain ⟨u, us, rfl, hu, -, hus⟩ := hleft.cons hkind (.inr hnumber)
  exact ⟨u, us, other, hother, hu, hus, hlike⟩

/-- What a derivation over `ts` comes to over the tokens that correspond to them: any other left
operand will do that is alike, and a phrase that starts with an operand starts where
one is due. -/
def Carried (ρ : Int → Int → Prop) (S T : Token → Expr → Prop) (ts rest : List Token) :
    (phrase : Phrase) → phrase.Value → Prop
  | .tierTail tier tighter left, value => ∀ operand us other,
      Unfolds (Alike ρ S T) operand ts us → left.Like (Offsets ρ) other →
        Lands ρ S T (Derives T (.tierTail tier tighter other) us) (Like (Offsets ρ)) rest value
  | .sumTail left, value => ∀ operand us other,
      Unfolds (Alike ρ S T) operand ts us → left.Like (Offsets ρ) other →
        Lands ρ S T (Derives T (.sumTail other) us) (Like (Offsets ρ)) rest value
  | .productTail left, value => ∀ operand us other,
      Unfolds (Alike ρ S T) operand ts us → left.Like (Offsets ρ) other →
        Lands ρ S T (Derives T (.productTail other) us) (Like (Offsets ρ)) rest value
  | .suffixTail left, value => ∀ operand us other,
      Unfolds (Alike ρ S T) operand ts us → left.Like (Offsets ρ) other →
        Lands ρ S T (Derives T (.suffixTail other) us) (Like (Offsets ρ)) rest value
  | phrase, value => ∀ us, Unfolds (Alike ρ S T) true ts us →
      Lands ρ S T (Derives T phrase us) (phrase.Like ρ) rest value

theorem Alike.spells {u : Token} (h : Alike ρ S T t u) (hspells : Spells t op) :
    Spells u op :=
  ⟨h.kind.trans hspells.1, h.text.trans hspells.2⟩

theorem Unfolds.operator (h : Unfolds (Alike ρ S T) operand (t :: ts) us) (hspells : Spells t op) :
    ∃ u vs, us = u :: vs ∧ Spells u op ∧ Unfolds (Alike ρ S T) true ts vs := by
  obtain ⟨u, vs, hus, -, halike, hvs⟩ := h.cons hspells.1 (.inr (by decide))
  exact ⟨u, vs, hus, halike.spells hspells, hvs⟩

/-- Unfolded or not, a numeral with a minus starts a product that is subtracted. -/
theorem Carried.negated {token : Token} {raw : String} {number : Number} {left right : Expr}
    (negates : Negates token raw) (read : Numeral.read raw = .ok number)
    (ih : Carried ρ S T ts us (.productTail (.literal
      ⟨token.span.start.advance 1, token.span.stop⟩ (.number number) raw)) right)
    (ihTail : Carried ρ S T us rest (.sumTail (join .subtract left right)) value) :
    Carried ρ S T (token :: ts) rest (.sumTail left) value := by
  intro k us first hus hfirst
  cases hus with
  | @same _ _ u _ vs alike rest =>
    have hnegates : Negates u raw := ⟨alike.kind.trans negates.1, alike.text ▸ negates.2⟩
    have hproduct := ih _ vs
      (.literal ⟨u.span.start.advance 1, u.span.stop⟩ (.number number) raw) rest .literal
    exact hproduct.join hfirst ihTail fun _ _ _ _ => .sumNegated hnegates read
  | @split _ minus digits _ _ vs negates' spells kind text rest =>
    have hraw : digits.text = raw := by
      have hlist := negates.2.symm.trans negates'.2
      rw [text, String.ext_iff, (List.cons.inj hlist).2]
    have hread : Numeral.read digits.text = .ok number := hraw ▸ read
    -- the numeral is now an operand of its own, and the rest of the product follows it
    have hfactors := ih _ vs (.literal digits.span (.number number) digits.text) rest
      (by rw [hraw]; exact .literal)
    refine hfactors.join hfirst ihTail ?_
    intro _ _ _ _ hproduct hsum
    exact .sumStep (.inr rfl) spells
      (.factors (.unsigned (.suffixed (.number kind hread) .suffixStop)) hproduct) hsum

theorem Derives.carried {phrase : Phrase} {value : phrase.Value}
    (h : Derives S phrase ts rest value) : Carried ρ S T ts rest phrase value := by
  induction h with
  | sum inner ih => exact fun us hus => (ih us hus).imp fun _ _ => .sum
  | tier operand tail ih ihTail =>
    exact fun us hus => (ih us hus).bind ihTail fun _ _ _ _ => .tier
  | terms operand tail ih ihTail =>
    exact fun us hus => (ih us hus).bind ihTail fun _ _ _ _ => .terms
  | factors operand tail ih ihTail =>
    exact fun us hus => (ih us hus).bind ihTail fun _ _ _ _ => .factors
  | suffixed inner tail ih ihTail =>
    exact fun us hus => (ih us hus).bind ihTail fun _ _ _ _ => .suffixed
  | tierStop => exact fun k us other hus hsame => ⟨k, us, other, .tierStop, hus, hsame⟩
  | sumStop => exact fun k us other hus hsame => ⟨k, us, other, .sumStop, hus, hsame⟩
  | productStop => exact fun k us other hus hsame => ⟨k, us, other, .productStop, hus, hsame⟩
  | suffixStop => exact fun k us other hus hsame => ⟨k, us, other, .suffixStop, hus, hsame⟩
  | tierStep mem spells operand tail ih ihTail =>
    intro k us first hus hfirst
    obtain ⟨u, vs, rfl, hspells, hvs⟩ := hus.operator spells
    exact (ih vs hvs).join hfirst ihTail fun _ _ _ _ => .tierStep mem hspells
  | sumStep mem spells operand tail ih ihTail =>
    intro k us first hus hfirst
    obtain ⟨u, vs, rfl, hspells, hvs⟩ := hus.operator spells
    exact (ih vs hvs).join hfirst ihTail fun _ _ _ _ => .sumStep mem hspells
  | productStep mem spells operand tail ih ihTail =>
    intro k us first hus hfirst
    obtain ⟨u, vs, rfl, hspells, hvs⟩ := hus.operator spells
    exact (ih vs hvs).join hfirst ihTail fun _ _ _ _ => .productStep mem hspells
  | sumNegated negates read operand tail ih ihTail => exact .negated negates read ih ihTail
  | @signed token op _ _ _ spells operand ih =>
    intro us hus
    obtain ⟨u, vs, rfl, hkind, halike, hvs⟩ := hus.cons spells.1 (.inr (by decide))
    obtain ⟨k, left, argument, hargument, hleft, hlike⟩ := ih vs hvs
    exact ⟨k, left, _, .signed ⟨hkind, halike.text.trans spells.2⟩ hargument, hleft, .unary hlike⟩
  | unsigned inner ih => exact fun us hus => (ih us hus).imp fun _ _ => .unsigned
  | call opens closes inner tail ih ihTail =>
    intro k us callee hus hcallee
    obtain ⟨u, vs, rfl, hopens, -, hvs⟩ := hus.cons opens (.inr (by decide))
    obtain ⟨v, ws, arguments, harguments, hcloses, hws, hsame⟩ := (ih vs hvs).next closes nofun
    exact (ihTail _ ws (.call ⟨callee.span.start, v.span.stop⟩ callee arguments) hws
      (.call hcallee hsame)).imp fun _ _ => .call hopens hcloses harguments
  | index opens closes inner tail ih ihTail =>
    intro k us object hus hobject
    obtain ⟨u, vs, rfl, hopens, -, hvs⟩ := hus.cons opens (.inr (by decide))
    obtain ⟨v, ws, index, hindex, hcloses, hws, hsame⟩ := (ih vs hvs).next closes nofun
    exact (ihTail _ ws (.index ⟨object.span.start, v.span.stop⟩ object index) hws
      (.index hobject hsame)).imp fun _ _ => .index hopens hcloses hindex
  | member opens names tail ihTail =>
    intro k us object hus hobject
    obtain ⟨u, vs, rfl, hopens, -, hvs⟩ := hus.cons opens (.inr (by decide))
    obtain ⟨v, ws, rfl, hnames, halike, hws⟩ := hvs.cons names (.inr (by decide))
    exact (ihTail _ ws (.member ⟨object.span.start, v.span.stop⟩ object ⟨v.span, v.text⟩) hws
      (.member hobject ⟨halike.text, halike.place names⟩)).imp fun _ _ => .member hopens hnames
  | number kind read =>
    intro us hus
    obtain ⟨u, vs, rfl, hkind, halike, hvs⟩ := hus.cons kind (.inl rfl)
    refine ⟨_, vs, _, .number hkind (halike.text ▸ read), hvs, ?_⟩
    rw [halike.text]
    exact .literal
  | string kind stands =>
    intro us hus
    obtain ⟨u, vs, rfl, hkind, halike, hvs⟩ := hus.cons kind (.inl rfl)
    obtain ⟨other, hother, hlike⟩ := halike.string kind _ stands
    exact ⟨_, vs, other, .string hkind hother, hvs, hlike⟩
  | identifier kind =>
    intro us hus
    obtain ⟨u, vs, rfl, hkind, halike, hvs⟩ := hus.cons kind (.inl rfl)
    exact ⟨_, vs, _, .identifier hkind, hvs, .identifier ⟨halike.text, halike.place kind⟩⟩
  | bracketed opens closes inner ih =>
    intro us hus
    obtain ⟨u, vs, rfl, hopens, -, hvs⟩ := hus.cons opens (.inl rfl)
    obtain ⟨v, ws, other, hother, hcloses, hws, hlike⟩ := (ih vs hvs).next closes nofun
    exact ⟨_, ws, other, .bracketed hopens hcloses hother, hws, hlike⟩
  | array opens closes inner ih =>
    intro us hus
    obtain ⟨u, vs, rfl, hopens, -, hvs⟩ := hus.cons opens (.inl rfl)
    obtain ⟨v, ws, elements, helements, hcloses, hws, hlike⟩ := (ih vs hvs).next closes nofun
    exact ⟨_, ws, _, .array hopens hcloses helements, hws, .array hlike⟩
  | object opens closes inner ih =>
    intro us hus
    obtain ⟨u, vs, rfl, hopens, -, hvs⟩ := hus.cons opens (.inl rfl)
    obtain ⟨v, ws, entries, hentries, hcloses, hws, hlike⟩ := (ih vs hvs).next closes nofun
    exact ⟨_, ws, _, .object hopens hcloses hentries, hws, .object hlike⟩
  | noItems => exact fun us hus => ⟨true, us, [], .noItems, hus, .nil⟩
  | lastItem inner ih =>
    intro us hus
    obtain ⟨k, left, other, hother, hleft, hlike⟩ := ih us hus
    exact ⟨k, left, [other], .lastItem hother, hleft, .cons hlike .nil⟩
  | moreItems inner divides more ih ihMore =>
    intro us hus
    obtain ⟨v, vs, item, hitem, hdivides, hvs, hsame⟩ := (ih us hus).next divides nofun
    obtain ⟨k, left, items, hitems, hleft, hlike⟩ := ihMore vs hvs
    exact ⟨k, left, item :: items, .moreItems hitem hdivides hitems, hleft, .cons hsame hlike⟩
  | noEntries => exact fun us hus => ⟨true, us, [], .noEntries, hus, .nil⟩
  | lastEntry left points right ihLeft ihRight =>
    intro us hus
    obtain ⟨v, vs, key, hkey, hpoints, hvs, hsame⟩ := (ihLeft us hus).next points nofun
    obtain ⟨k, rest', other, hother, hrest, hlike⟩ := ihRight vs hvs
    exact ⟨k, rest', _, .lastEntry hkey hpoints hother, hrest, .cons hsame hlike .nil⟩
  | moreEntries left points right divides more ihLeft ihRight ihMore =>
    intro us hus
    obtain ⟨v, vs, key, hkey, hpoints, hvs, hsame⟩ := (ihLeft us hus).next points nofun
    obtain ⟨w, ws, other, hother, hdivides, hws, hlike⟩ := (ihRight vs hvs).next divides nofun
    obtain ⟨k, rest', entries, hentries, hrest, hmore⟩ := ihMore ws hws
    exact ⟨k, rest', _, .moreEntries hkey hpoints hother hdivides hentries, hrest,
      .cons hsame hlike hmore⟩

/-! ## Whole expressions -/

theorem Unfolds.head? {left : List Token} (h : Unfolds (Alike ρ S T) operand rest left) :
    ∀ u ∈ left.head?, Spells u .subtract ∨
      ∃ t, rest.head? = some t ∧ u.kind = t.kind ∧ u.text = t.text := by
  intro u hu
  cases h with
  | nil => cases hu
  | same alike rest =>
    cases hu
    exact .inr ⟨_, rfl, alike.kind, alike.text⟩
  | split negates spells =>
    cases hu
    exact .inl spells

theorem Plain.carried (h : Plain S ts) (hus : Unfolds (Alike ρ S T) true ts us) : Plain T us := by
  cases h with
  | signed split kind =>
    subst split
    obtain ⟨u, vs, rfl, hkind, -, -⟩ := hus.cons kind (.inl rfl)
    exact .signed rfl hkind
  | suffixed derives ends unequal =>
    obtain ⟨k, left, other, hother, hleft, -⟩ := derives.carried us hus
    refine .suffixed hother (fun u hu => ?_) fun u hu hspells => ?_
    · rcases hleft.head? u hu with hspells | ⟨t, ht, hkind, -⟩
      · exact opensSuffix_of_spells hspells
      · have hends := ends t ht
        simpa only [opensSuffix, hkind] using hends
    · rcases hleft.head? u hu with hminus | ⟨t, ht, hkind, htext⟩
      · cases symbol_injective (hspells.2.symm.trans hminus.2)
      · exact unequal t ht ⟨hkind ▸ hspells.1, htext ▸ hspells.2⟩

section

variable {strings strings' : StringReader} {p : Fault → Prop} {assignment : Bool} {value : Expr}

theorem Derives.carried_whole (h : Derives S .whole ts [] value)
    (hus : Unfolds (Alike ρ S T) true ts us) :
    ∃ other, Derives T .whole us [] other ∧ value.Like (Offsets ρ) other := by
  obtain ⟨k, left, other, hother, hleft, hlike⟩ := h.carried us hus
  cases hleft
  exact ⟨other, hother, hlike⟩

theorem Assigns.carried (h : Assigns S ts [] value) (hus : Unfolds (Alike ρ S T) true ts us) :
    ∃ other, Assigns T us [] other ∧ value.Like (Offsets ρ) other := by
  obtain ⟨target, token, vs, source, htarget, hspells, hsource, rfl⟩ := h
  obtain ⟨k, left, target', htarget', hleft, hsame⟩ := htarget.carried us hus
  obtain ⟨u, ws, rfl, hspells', hws⟩ := hleft.operator hspells
  obtain ⟨source', hsource', hlike⟩ := hsource.carried_whole hws
  exact ⟨_, ⟨target', u, ws, source', htarget', hspells', hsource', rfl⟩,
    .binary hsame hlike⟩

/-- What is read as a whole from `ts` is read as a whole from the tokens that stand for them. -/
theorem Whole.carried (h : Whole (Stands strings p) assignment ts value)
    (hus : Unfolds (Alike ρ (Stands strings p) (Stands strings' p)) true ts us) :
    ∃ other, Takes p (readWhole strings' assignment (fuelFor us.length)) us [] other ∧
      value.Like (Offsets ρ) other := by
  have hfuel := Nat.le_refl (fuelFor us.length)
  cases assignment with
  | false =>
    have hwhole : Derives (Stands strings p) .whole ts [] value := h
    obtain ⟨other, hother, hlike⟩ := hwhole.carried_whole hus
    exact ⟨other, takes_readWhole (hother.takes_whole hfuel), hlike⟩
  | true =>
    rcases h with hassigns | ⟨hnone, hwhole⟩
    · obtain ⟨other, hother, hlike⟩ := hassigns.carried hus
      exact ⟨other, takes_readWhole (hother.takes hfuel), hlike⟩
    · obtain ⟨other, hother, hlike⟩ := hwhole.carried_whole hus
      have hplain := (hwhole.assigns_or_plain.resolve_left hnone).carried hus
      exact ⟨other, takes_readWhole (hplain.takes hother hfuel), hlike⟩

end

theorem Derives.ne_error {phrase : Phrase} {value : phrase.Value}
    (h : Derives S phrase ts rest value) : ∀ t ∈ ts, t ∈ rest ∨ t.kind ≠ .error := by
  induction h <;> grind [Spells, SpellsSign, Negates]

theorem Whole.ne_error {assignment : Bool} (h : Whole S assignment ts value) :
    ∀ t ∈ ts, t.kind ≠ .error := by
  intro t ht
  have hwhole (hderives : Derives S .whole ts [] value) : t.kind ≠ .error :=
    (hderives.ne_error t ht).resolve_left not_mem_nil
  cases assignment with
  | false => exact hwhole h
  | true =>
    rcases h with ⟨target, token, us, source, htarget, hspells, hsource, -⟩ | ⟨-, hderives⟩
    · rcases htarget.ne_error t ht with hmem | hne
      · rcases mem_cons.mp hmem with rfl | hmem
        · rw [hspells.1]
          decide
        · exact (hsource.ne_error t hmem).resolve_left not_mem_nil
      · exact hne
    · exact hwhole hderives

/-! ## Readings without faults -/

abbrev Clean (strings : StringReader) : Token → Expr → Prop :=
  Stands strings fun _ => False

theorem clean_iff {strings : StringReader} {token : Token} :
    Clean strings token value ↔ strings token = .ok (value, []) := by
  constructor
  · rintro ⟨faults, hread, hfaults⟩
    rw [hread, eq_nil_iff_forall_not_mem.mpr hfaults]
  · intro hread
    exact ⟨[], hread, by simp⟩

section

variable {strings strings' : StringReader} {assignment : Bool} {anchor : Position}
  {tokens : List Token}

theorem whole_of_clean {value? : Option Expr}
    (h : ofTokensWith strings assignment anchor tokens = .ok (value?, [])) :
    ∃ value, value? = some value ∧
      Whole (Clean strings) assignment (tokens.filter (·.kind ≠ .comment)) value :=
  (whole_of_ofTokensWith h fun _ hfault => absurd hfault not_mem_nil).resolve_right
    fun hnone => hnone.2 rfl

theorem ofTokensWith_of_takes (hne : tokens.filter (·.kind ≠ .comment) ≠ [])
    (h : Takes (fun _ => False) (readWhole strings assignment
      (fuelFor (tokens.filter (·.kind ≠ .comment)).length))
      (tokens.filter (·.kind ≠ .comment)) [] value) :
    ofTokensWith strings assignment anchor tokens = .ok (some value, []) := by
  unfold ofTokensWith
  generalize tokens.filter (·.kind ≠ .comment) = ts at h hne ⊢
  obtain ⟨more, hresult, hmore⟩ := h (ts.getLast hne).span.stop []
  obtain rfl := eq_nil_iff_forall_not_mem.mpr hmore
  simp only [getLast?_eq_getLast_of_ne_nil hne, hresult, append_nil]

end

end GuidedTrack.Expr
