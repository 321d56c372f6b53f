import Mathlib.Data.List.Sort

/-! # Stable sorting

A sorted list keeps the order of what it does not tell apart. So sorting goes along with picking
some items, and a list sorted by a key is known from its items of each key.
-/

namespace GuidedTrack

open List

section

variable {α : Type} {le : α → α → Bool}

theorem mergeSort_cons_cut (trans : ∀ a b c, le a b = true → le b c = true → le a c = true)
    (total : ∀ a b, (le a b || le b a) = true) (a : α) (items : List α) :
    ∃ front tail, (a :: items).mergeSort le = front ++ a :: tail ∧
      items.mergeSort le = front ++ tail ∧ (∀ b ∈ front, le a b = false) ∧
      ∀ b ∈ tail, le a b = true := by
  obtain ⟨front, tail, hsorted, hrest, hfront⟩ := mergeSort_cons trans total a items
  refine ⟨front, tail, hsorted, hrest, by simpa using hfront, ?_⟩
  have hpairwise := pairwise_mergeSort trans total (a :: items)
  rw [hsorted] at hpairwise
  exact (pairwise_cons.mp (pairwise_append.mp hpairwise).2.1).1

theorem takeWhile_cut {front tail : List α} {a : α} (hfront : ∀ b ∈ front, le a b = false)
    (htail : ∀ b ∈ tail, le a b = true) :
    (front ++ tail).takeWhile (fun b => !le a b) = front := by
  rw [takeWhile_append_of_pos (by simpa using hfront)]
  cases tail with
  | nil => simp
  | cons b tail => simp [htail b mem_cons_self]

/-- Sorting by insertion, which the kernel can evaluate, gives the same list. -/
theorem mergeSort_eq_insertion (trans : ∀ a b c, le a b = true → le b c = true → le a c = true)
    (total : ∀ a b, (le a b || le b a) = true) (items : List α) :
    items.mergeSort le = items.insertionSort (le · ·) := by
  induction items with
  | nil => simp
  | cons a items ih =>
    obtain ⟨front, tail, hsorted, hrest, hfront, htail⟩ := mergeSort_cons_cut trans total a items
    rw [hsorted, insertionSort_cons, ← ih, hrest]
    clear hsorted hrest ih
    induction front with
    | nil => cases tail <;> simp_all
    | cons b front ih => simp_all

/-- Sorting is stable: what is picked from a sorted list is the sorted list of what is picked. -/
theorem filter_mergeSort (trans : ∀ a b c, le a b = true → le b c = true → le a c = true)
    (total : ∀ a b, (le a b || le b a) = true) (pick : α → Bool) (items : List α) :
    (items.mergeSort le).filter pick = (items.filter pick).mergeSort le := by
  induction items with
  | nil => simp
  | cons a items ih =>
    obtain ⟨front, tail, hsorted, hrest, hfront, htail⟩ := mergeSort_cons_cut trans total a items
    rw [hrest, filter_append] at ih
    rw [hsorted, filter_append, filter_cons, filter_cons]
    split
    · obtain ⟨front', tail', hsorted', hrest', hfront', htail'⟩ :=
        mergeSort_cons_cut trans total a (items.filter pick)
      -- both cuts of the picked list are where `a` belongs, so they are the same cut
      have hcut : front.filter pick ++ tail.filter pick = front' ++ tail' := ih.trans hrest'
      have hwhile := congrArg (takeWhile fun b => !le a b) hcut
      rw [takeWhile_cut (fun b hb => hfront b (mem_filter.mp hb).1)
        (fun b hb => htail b (mem_filter.mp hb).1), takeWhile_cut hfront' htail'] at hwhile
      rw [hwhile] at hcut ⊢
      rw [hsorted', append_cancel_left hcut]
    · exact ih

end

/-! ## Sorting by a key -/

section

variable {α : Type} (key : α → Int)

/-- Two lists in the order of a key are the same if they hold the same items of each key in the same
order. -/
theorem eq_of_filter_key {items others : List α}
    (hitems : items.Pairwise fun a b => key a ≤ key b)
    (hothers : others.Pairwise fun a b => key a ≤ key b)
    (h : ∀ k, items.filter (key · = k) = others.filter (key · = k)) : items = others := by
  induction items generalizing others with
  | nil =>
    cases others with
    | nil => rfl
    | cons b others =>
      have hb := h (key b)
      simp at hb
  | cons a items ih =>
    cases others with
    | nil =>
      have ha := h (key a)
      simp at ha
    | cons b others =>
      have hbound {c : α} {l : List α} (hl : (c :: l).Pairwise fun a b => key a ≤ key b)
          {d : α} (hd : d ∈ c :: l) : key c ≤ key d := by
        rcases mem_cons.mp hd with rfl | hd
        · exact Int.le_refl _
        · exact (pairwise_cons.mp hl).1 d hd
      have hmem {c : α} {l m : List α} (hc : c ∈ l)
          (hk : l.filter (key · = key c) = m.filter (key · = key c)) : c ∈ m := by
        have hfiltered : c ∈ l.filter (key · = key c) := by simp [hc]
        rw [hk] at hfiltered
        exact (mem_filter.mp hfiltered).1
      -- the first items have the same key, the least of both lists
      have hkey : key a = key b := by
        apply Int.le_antisymm
        · exact hbound hitems (hmem mem_cons_self (h (key b)).symm)
        · exact hbound hothers (hmem mem_cons_self (h (key a)))
      obtain rfl : a = b := by
        have hfirst := h (key a)
        rw [filter_cons_of_pos (by simp), filter_cons_of_pos (by simp [hkey])] at hfirst
        exact (List.cons.inj hfirst).1
      refine congrArg (a :: ·) (ih (pairwise_cons.mp hitems).2
        (pairwise_cons.mp hothers).2 fun k => ?_)
      have hk := h k
      rw [filter_cons, filter_cons] at hk
      split at hk
      · exact (List.cons.inj hk).2
      · exact hk

end

end GuidedTrack
