import GuidedTrack.Proofs.Expr.MovedReadings

/-! # Offsets of the same rank

A text and a text with other gaps have the same ink in the same order. Two offsets correspond if as
much ink stands before the one as before the other.
-/

namespace GuidedTrack.Token

open Text List

variable {p a b : Int} {cs : List Char} {i j : Nat}

def inks (p : Int) : List Char → List Int
  | [] => []
  | c :: cs => if isInk c then p :: inks (p + 1) cs else inks (p + 1) cs

def Ranked (ρ : Int → Int → Prop) (p : Int) (cs : List Char) (q : Int) (t : List Char) : Prop :=
  ∀ (i : Nat) (a b : Int), (inks p cs)[i]? = some a → (inks q t)[i]? = some b → ρ a b

def SameRank (p : Int) (cs : List Char) (q : Int) (t : List Char) (a b : Int) : Prop :=
  ∃ i : Nat, (inks p cs)[i]? = some a ∧ (inks q t)[i]? = some b

theorem inks_append (p : Int) (as cs : List Char) :
    inks p (as ++ cs) = inks p as ++ inks (p + as.length) cs := by
  induction as generalizing p with
  | nil => simp [inks]
  | cons c as ih =>
    simp only [cons_append, inks, ih, length_cons, Int.natCast_add, Int.natCast_one,
      Int.add_assoc, Int.add_comm 1]
    split <;> rfl

theorem length_inks (p : Int) (cs : List Char) :
    (inks p cs).length = cs.countP isInk := by
  induction cs generalizing p with
  | nil => rfl
  | cons c cs ih =>
    rw [inks, countP_cons]
    split <;> simp [ih]

theorem inks_eq_nil (h : ∀ c ∈ cs, isInk c = false) (p : Int) : inks p cs = [] := by
  rw [← length_eq_zero_iff, length_inks, countP_eq_zero]
  intro c hc
  simp [h c hc]

theorem le_of_mem_inks (h : a ∈ inks p cs) : p ≤ a := by
  induction cs generalizing p with
  | nil => cases h
  | cons c cs ih =>
    rw [inks] at h
    split at h
    · rcases mem_cons.mp h with rfl | h
      · exact Int.le_refl _
      · have := ih h
        omega
    · have := ih h
      omega

theorem pairwise_inks (p : Int) (cs : List Char) : (inks p cs).Pairwise (· < ·) := by
  induction cs generalizing p with
  | nil => exact .nil
  | cons c cs ih =>
    rw [inks]
    split
    · refine .cons (fun a ha => ?_) (ih _)
      have := le_of_mem_inks ha
      omega
    · exact ih _

theorem isInk_of_isGap {c : Char} (h : isGap c = true) : isInk c = false := by
  rw [isInk, h, Bool.not_true, Bool.and_false]

/-! ## Offsets of the same rank -/

section

variable {p q : Int} {cs t : List Char}

theorem ranked_sameRank : Ranked (SameRank p cs q t) p cs q t :=
  fun i _ _ ha hb => ⟨i, ha, hb⟩

theorem le_iff_rank (hi : (inks p cs)[i]? = some a) (hj : (inks p cs)[j]? = some b) :
    a ≤ b ↔ i ≤ j := by
  have hordered := pairwise_iff_getElem.mp (pairwise_inks p cs)
  obtain ⟨hi', rfl⟩ := List.getElem?_eq_some_iff.mp hi
  obtain ⟨hj', rfl⟩ := List.getElem?_eq_some_iff.mp hj
  rcases Nat.lt_trichotomy i j with hlt | rfl | hlt
  · have := hordered i j hi' hj' hlt
    omega
  · simp
  · have := hordered j i hj' hi' hlt
    omega

theorem rank_unique (hi : (inks p cs)[i]? = some a) (hj : (inks p cs)[j]? = some a) : i = j :=
  Nat.le_antisymm ((le_iff_rank hi hj).mp (Int.le_refl a)) ((le_iff_rank hj hi).mp (Int.le_refl a))

end

/-! ## Stretches of a text -/

namespace Ranked

variable {ρ : Int → Int → Prop} {p q : Int} {cs t : List Char}

/-- Behind fronts with as much ink, and in the fronts themselves. -/
theorem cut (as bs : List Char) (h : Ranked ρ p (as ++ cs) q (bs ++ t))
    (hcount : as.countP isInk = bs.countP isInk) :
    Ranked ρ p as q bs ∧ Ranked ρ (p + as.length) cs (q + bs.length) t := by
  have hlength : (inks p as).length = (inks q bs).length := by
    rw [length_inks, length_inks, hcount]
  constructor
  · intro i a b ha hb
    have hi := (List.getElem?_eq_some_iff.mp ha).1
    refine h i a b ?_ ?_
    · rwa [inks_append, getElem?_append_left hi]
    · rwa [inks_append, getElem?_append_left (hlength ▸ hi)]
  · intro i a b ha hb
    refine h ((inks p as).length + i) a b ?_ ?_
    · rwa [inks_append, getElem?_append_right (Nat.le_add_right _ _), Nat.add_sub_cancel_left]
    · rwa [inks_append, hlength, getElem?_append_right (Nat.le_add_right _ _),
        Nat.add_sub_cancel_left]

theorem fits (h : Ranked ρ p cs q cs) : Fits ρ p q cs := by
  intro k c hc hink
  have hcut := take_append_drop k cs
  have hdrop : cs.drop k = c :: cs.drop (k + 1) := by
    rw [drop_eq_getElem?_toList_append, hc]
    rfl
  have hk := (List.getElem?_eq_some_iff.mp hc).1
  rw [← hcut] at h
  have hbehind := (h.cut _ _ rfl).2
  rw [hdrop, length_take_of_le (Nat.le_of_lt hk)] at hbehind
  exact hbehind 0 _ _ (by simp [inks, hink]) (by simp [inks, hink])

theorem drop_front (as bs : List Char) (h : Ranked ρ p (as ++ cs) q (bs ++ t))
    (has : ∀ c ∈ as, isInk c = false) (hbs : ∀ c ∈ bs, isInk c = false) :
    Ranked ρ (p + as.length) cs (q + bs.length) t := by
  refine (h.cut as bs ?_).2
  rw [← length_inks p, ← length_inks q, inks_eq_nil has, inks_eq_nil hbs]

theorem through {m c : Int} {u : List Char} (h : Ranked ρ p cs q t) (hab : SameRank p cs m u a b)
    (hbc : SameRank m u q t b c) : ρ a c := by
  obtain ⟨i, ha, hb⟩ := hab
  obtain ⟨j, hb', hc⟩ := hbc
  obtain rfl := rank_unique hb hb'
  exact h i a c ha hc

end Ranked

end GuidedTrack.Token
