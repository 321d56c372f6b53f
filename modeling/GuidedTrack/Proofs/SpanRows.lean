import GuidedTrack.Source

/-! # Spans in a row

Spans between two offsets that are not empty and do not overlap, in the order of the text. Tokens of
a document and nodes of its tree both stand like that.
-/

namespace GuidedTrack

open List

/-- Spans in a row between two offsets: none is empty, and each ends before the next one starts. -/
inductive Chained : Int → Int → List Span → Prop where
  | nil {lo hi : Int} (le : lo ≤ hi) : Chained lo hi []
  | cons {lo hi : Int} {span : Span} {spans : List Span} (after : lo ≤ span.start.offset)
      (filled : span.start.offset < span.stop.offset) (rest : Chained span.stop.offset hi spans) :
      Chained lo hi (span :: spans)

namespace Chained

variable {lo mid hi : Int} {span : Span} {spans others : List Span}

theorem le (h : Chained lo hi spans) : lo ≤ hi := by
  induction h with
  | nil le => exact le
  | cons after filled rest ih => omega

theorem widen {first last : Int} (h : Chained lo hi spans) (hfirst : first ≤ lo)
    (hlast : hi ≤ last) : Chained first last spans := by
  induction h generalizing first with
  | nil le => exact .nil (by omega)
  | cons after filled rest ih => exact .cons (by omega) filled (ih (Int.le_refl _) hlast)

theorem append (h : Chained lo mid spans) (hothers : Chained mid hi others) :
    Chained lo hi (spans ++ others) := by
  induction h with
  | nil le => exact hothers.widen le (Int.le_refl _)
  | cons after filled rest ih => exact .cons after filled (ih hothers)

theorem split (h : Chained lo hi (spans ++ others)) :
    ∃ mid, Chained lo mid spans ∧ Chained mid hi others := by
  induction spans generalizing lo with
  | nil => exact ⟨lo, .nil (Int.le_refl _), h⟩
  | cons span spans ih =>
    cases h with
    | cons after filled rest =>
      obtain ⟨mid, hspans, hothers⟩ := ih rest
      exact ⟨mid, .cons after filled hspans, hothers⟩

theorem sublist (h : Chained lo hi spans) (hsub : others.Sublist spans) :
    Chained lo hi others := by
  induction hsub generalizing lo with
  | slnil => exact h
  | cons span hsub ih =>
    cases h with
    | cons after filled rest => exact ih (rest.widen (by omega) (Int.le_refl _))
  | cons_cons span hsub ih =>
    cases h with
    | cons after filled rest => exact .cons after filled (ih rest)

theorem bounds (h : Chained lo hi spans) (hmem : span ∈ spans) :
    lo ≤ span.start.offset ∧ span.start.offset < span.stop.offset ∧ span.stop.offset ≤ hi := by
  induction h with
  | nil => cases hmem
  | cons after filled rest ih =>
    rcases mem_cons.mp hmem with rfl | hmem
    · exact ⟨after, filled, rest.le⟩
    · obtain ⟨hlo, hfilled, hhi⟩ := ih hmem
      exact ⟨by omega, hfilled, hhi⟩

theorem pairwise (h : Chained lo hi spans) :
    spans.Pairwise fun a b => a.stop.offset ≤ b.start.offset := by
  induction h with
  | nil => exact .nil
  | cons after filled rest ih => exact .cons (fun other hother => (rest.bounds hother).1) ih

theorem upTo_last (h : Chained lo hi spans) (hlast : spans.getLast? = some span) :
    Chained lo span.stop.offset spans := by
  induction h with
  | nil => cases hlast
  | @cons lo hi first spans after filled rest ih =>
    cases spans with
    | nil =>
      cases hlast
      exact .cons after filled (.nil (Int.le_refl _))
    | cons second spans =>
      rw [getLast?_cons_cons] at hlast
      exact .cons after filled (ih hlast)

theorem cut (h : Chained lo hi (spans ++ others)) (hlast : spans.getLast? = some span) :
    Chained lo span.stop.offset spans ∧ Chained span.stop.offset hi others := by
  obtain ⟨mid, hspans, hothers⟩ := h.split
  have hmid := (hspans.bounds (mem_of_getLast? hlast)).2.2
  exact ⟨hspans.upTo_last hlast, hothers.widen hmid (Int.le_refl _)⟩

theorem singleton_iff :
    Chained lo hi [span] ↔
      lo ≤ span.start.offset ∧ span.start.offset < span.stop.offset ∧ span.stop.offset ≤ hi := by
  constructor
  · intro h
    exact h.bounds mem_cons_self
  · rintro ⟨hlo, hfilled, hhi⟩
    exact .cons hlo hfilled (.nil hhi)

end Chained

/-- Spans that are not empty and stand in the order of the text are a row between any two offsets
around them. -/
theorem chained_of_pairwise {lo hi : Int} {spans : List Span} (hle : lo ≤ hi)
    (hordered : spans.Pairwise fun a b => a.stop.offset ≤ b.start.offset)
    (hbounds : ∀ span ∈ spans, lo ≤ span.start.offset ∧ span.start.offset < span.stop.offset ∧
      span.stop.offset ≤ hi) : Chained lo hi spans := by
  induction spans generalizing lo with
  | nil => exact .nil hle
  | cons span spans ih =>
    obtain ⟨hafter, hspans⟩ := pairwise_cons.mp hordered
    obtain ⟨⟨hlo, hfilled, hhi⟩, hrest⟩ := forall_mem_cons.mp hbounds
    refine .cons hlo hfilled (ih hhi hspans fun other hother => ?_)
    exact ⟨hafter other hother, (hrest other hother).2⟩

end GuidedTrack
