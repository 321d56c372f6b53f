import GuidedTrack.Proofs.LineErasure
import GuidedTrack.Proofs.Program.LineAccounting
import GuidedTrack.Proofs.Program.RelocatedReadings

/-! # Lines of code that keep to themselves

What stands behind the mark of an expression on its line, well formed or not, bears on that line
only. Two documents that differ there have the same tree and the same faults everywhere else.
-/

namespace GuidedTrack

open List Outline Statement Position Fault

/-! ## Outlines -/

namespace Outline

def Level (t u : Token) : Prop :=
  u.span.start.line = t.span.start.line ∧ u.span.start.column = t.span.start.column

structure CodeRow (line : Int) (row : List Token) : Prop where
  kind : ∀ token ∈ row.head?, token.kind = .expressionStart
  solid : ∀ token ∈ row, ∃ piece, token.Solid (fun p => p.line = line) piece

/-- A row and the same row some characters further on, or two rows of code on the given line. -/
def RowPair (line : Int) (row other : List Token) : Prop :=
  (∃ chars, row.map (Token.relocate (shift 0 0 chars)) = other) ∨
    CodeRow line row ∧ CodeRow line other

theorem RowPair.refl (line : Int) (row : List Token) : RowPair line row row := by
  refine .inl ⟨0, (map_congr_left fun token _ => ?_).trans (map_id row)⟩
  simp [Token.relocate, Span.relocate, shift]

end Outline

/-! ## Lines -/

namespace Program

open Outline (RowPair CodeRow Level)

variable {line : Int}

def Block.elsewhere (line : Int) (block : Block) : List Statement × List SubKeyword :=
  (eraseList (withoutList line block.body),
    SubKeyword.eraseList (SubKeyword.withoutList line block.subKeywords))

theorem Block.elsewhere_append {a b c d : Block} (h : a.elsewhere line = c.elsewhere line)
    (hmore : b.elsewhere line = d.elsewhere line) :
    (a ++ b).elsewhere line = (c ++ d).elsewhere line := by
  obtain ⟨hbody, hsubs⟩ := Prod.mk.inj h
  obtain ⟨hbody', hsubs'⟩ := Prod.mk.inj hmore
  change (Block.append a b).elsewhere line = (Block.append c d).elsewhere line
  simp only [Block.elsewhere, Block.append, withoutList_append, eraseList_append,
    SubKeyword.withoutList_append, SubKeyword.eraseList_append, hbody, hbody', hsubs, hsubs']

theorem Fault.elsewhere_relocate (chars : Int) (faults : List Fault) :
    Fault.elsewhere line (faults.map (Fault.relocate (shift 0 0 chars))) =
      elsewhere line faults := by
  rw [elsewhere, filter_map, map_map, elsewhere]
  have hline (fault : Fault) : (fault.relocate (shift 0 0 chars)).position.line =
      fault.position.line := Int.add_zero _
  have hcolumn (fault : Fault) : (fault.relocate (shift 0 0 chars)).position.column =
      fault.position.column := Int.add_zero _
  simp only [Function.comp_def, hline]
  refine map_congr_left fun fault _ => ?_
  rw [message, hline, hcolumn]
  rfl

/-- Where both computations return, their values are related and what they add to the faults before
them is the same elsewhere. -/
def Agree (line : Int) {α β : Type} (V : α → β → Prop) (x : Recorder α) (y : Recorder β) : Prop :=
  ∀ before before' a b after after', x.run before = .ok (a, after) →
      y.run before' = .ok (b, after') →
    V a b ∧ ∃ found found', after = before ++ found ∧ after' = before' ++ found' ∧
      elsewhere line found = elsewhere line found'

namespace Agree

variable {α β γ δ : Type} {V : α → β → Prop} {W : γ → δ → Prop} {x : Recorder α} {y : Recorder β}

theorem pure {a : α} {b : β} (h : V a b) : Agree line V (Pure.pure a) (Pure.pure b) := by
  intro before before' _ _ _ _ hx hy
  cases hx
  cases hy
  exact ⟨h, [], [], by simp, by simp, rfl⟩

theorem bind {f : α → Recorder γ} {g : β → Recorder δ} (hx : Agree line V x y)
    (hf : ∀ a b, V a b → Agree line W (f a) (g b)) : Agree line W (x >>= f) (y >>= g) := by
  intro before before' c d after after' hrun hrun'
  obtain ⟨a, mid, hfirst, hrest⟩ := exists_of_run_bind hrun
  obtain ⟨b, mid', hfirst', hrest'⟩ := exists_of_run_bind hrun'
  obtain ⟨hab, found, found', rfl, rfl, hfound⟩ := hx _ _ _ _ _ _ hfirst hfirst'
  obtain ⟨hcd, more, more', rfl, rfl, hmore⟩ := hf a b hab _ _ _ _ _ _ hrest hrest'
  refine ⟨hcd, found ++ more, found' ++ more', by simp, by simp, ?_⟩
  rw [elsewhere_append, elsewhere_append, hfound, hmore]

theorem record {p q : Position} (hline : q.line = p.line) (hcolumn : q.column = p.column)
    (cause : Cause) :
    Agree line (fun _ _ => True) (record p cause) (record q cause) := by
  intro before before' _ _ _ _ hx hy
  cases hx
  cases hy
  refine ⟨trivial, _, _, rfl, rfl, ?_⟩
  by_cases h : p.line = line
  · simp [elsewhere, hline, h]
  · simp [elsewhere, message, hline, hcolumn, h]

end Agree

theorem Carries.agree {α β : Type} {V : α → β → Prop} {x : Recorder α} {y : Recorder β}
    {chars : Int} (h : Carries (shift 0 0 chars) V x y) : Agree line V x y := by
  intro before before' a b after after' hx hy
  obtain ⟨error, hrun, -⟩ | ⟨_, _, found, hrun, hrun', hab⟩ := h before before'
  · rw [hrun] at hx
    cases hx
  · rw [hrun] at hx
    rw [hrun'] at hy
    cases hx
    cases hy
    exact ⟨hab, found, _, rfl, rfl, (Fault.elsewhere_relocate chars found).symm⟩

def Heading.Agree (line : Int) (heading heading' : Heading) (start start' : Position) : Prop :=
  ∀ {block block' : Block}, block.elsewhere line = block'.elsewhere line → ∀ stop stop',
    (heading.close start stop block).elsewhere line =
      (heading'.close start' stop' block').elsewhere line

theorem argument_relocate (m : Position → Position) (argument : Option Argument) :
    (argument.map (Argument.relocate m)).map Argument.erase = argument.map Argument.erase := by
  cases argument <;> simp

section

variable (span : Span) (name : String) (argument : Option Argument) (text : Prose) (block : Block)

theorem elsewhere_keyword :
    (Block.ofStatement (.keyword span name argument block.subKeywords block.body)).elsewhere line =
      ([.keyword default name (argument.map Argument.erase) (block.elsewhere line).2
        (block.elsewhere line).1], []) :=
  rfl

theorem elsewhere_answer :
    (Block.ofStatement (.answer span text block.body)).elsewhere line =
      ([.answer default text.erase (block.elsewhere line).1], []) :=
  rfl

theorem elsewhere_subKeyword :
    (Block.ofSubKeyword (.mk span name argument block.body)).elsewhere line =
      ([], [.mk default name (argument.map Argument.erase) (block.elsewhere line).1]) :=
  rfl

theorem elsewhere_prose :
    (Block.ofStatement (.prose text)).elsewhere line = ([.prose text.erase], []) :=
  rfl

theorem elsewhere_expression (value : Expr) :
    (Block.ofStatement (.expression span value)).elsewhere line =
      (if span.start.line = line then [] else [.expression default value.erase], []) := by
  by_cases hline : span.start.line = line
  · simp [Block.elsewhere, Block.ofStatement, withoutList, isExpressionOn, hline,
      eraseList, SubKeyword.withoutList, SubKeyword.eraseList]
  · simp [Block.elsewhere, Block.ofStatement, Statement.withoutList,
      Statement.isExpressionOn, hline,
      Statement.eraseList, Statement.erase, Statement.without, SubKeyword.withoutList,
      SubKeyword.eraseList]

end

theorem Heads.agree {parent : Option String} {first : Token} {row : List Token}
    {before after : List Fault} {heading : Heading}
    (h : Heads parent first row before heading after)
    (chars : Int) :
    heading.Agree line (heading.relocate (shift 0 0 chars)) first.span.start
      (first.span.start.shift 0 0 chars) := by
  intro block block' hblock stop stop'
  have hkeyword (name : String) (argument : Option Argument) :
      (Heading.close first.span.start stop block (.keyword name argument)).elsewhere line =
        (Heading.close (first.span.start.shift 0 0 chars) stop' block'
          (.keyword name (argument.map (Argument.relocate (shift 0 0 chars))))).elsewhere
            line := by
    rw [Heading.close, Heading.close, elsewhere_keyword, elsewhere_keyword,
      argument_relocate, hblock]
  cases h with
  | comment kind => rfl
  | @expression value? faults kind hvalue =>
    cases value? with
    | none => rfl
    | some value =>
      have hline : (first.span.start.shift 0 0 chars).line = first.span.start.line :=
        Int.add_zero _
      refine (elsewhere_expression _ value).trans (.trans ?_ (elsewhere_expression _ _).symm)
      rw [Expr.erase_relocate]
      simp only [Span.relocate, hline]
  | keyword kind reads => exact hkeyword _ _
  | stray kind alone reads => exact hkeyword _ _
  | subKeyword kind owned reads =>
    rw [Heading.relocate, Heading.close, Heading.close, elsewhere_subKeyword, elsewhere_subKeyword,
      argument_relocate, hblock]
  | answer kind owned reads =>
    rw [Heading.relocate, Heading.close, Heading.close, elsewhere_answer, elsewhere_answer,
      Prose.erase_relocate, hblock]
  | @prose text after kind alone reads =>
    refine (elsewhere_prose text).trans (.trans ?_ (elsewhere_prose _).symm)
    rw [Prose.erase_relocate]

/-- A line of code leaves nothing elsewhere, and its faults are found on it. -/
theorem Heads.elsewhere_code {parent : Option String} {first : Token} {row : List Token}
    {before after : List Fault} {heading : Heading}
    (h : Heads parent first row before heading after)
    (hcode : CodeRow line (first :: row)) :
    (∃ found, after = before ++ found ∧ elsewhere line found = []) ∧
      ∀ start stop block, (heading.close start stop block).elsewhere line = ([], []) := by
  have hkind := hcode.kind first rfl
  obtain ⟨⟨piece, hfirst⟩, hrow⟩ := forall_mem_cons.mp hcode.solid
  cases h with
  | @expression value? faults kind hvalue =>
    have hfaults := Expr.faults_ofTokens hvalue hrow hfirst.start_place
    refine ⟨⟨faults, rfl, elsewhere_eq_nil hfaults⟩, fun start stop block => ?_⟩
    cases value? with
    | none => rfl
    | some value =>
      refine (elsewhere_expression _ value).trans ?_
      rw [if_pos hfirst.start_place]
  | comment kind | keyword kind reads | stray kind alone reads | subKeyword kind owned reads =>
    simp [hkind] at kind
  | answer kind owned reads | prose kind alone reads => simp [hkind, Token.Kind.opensProse] at kind

/-- Lines of code on one line are read alike elsewhere. -/
theorem parallel_elsewhere (line : Int) :
    Parallel (Agree line) (fun a b => a.elsewhere line = b.elsewhere line) (fun _ _ => True) Level
      (RowPair line) (fun _ _ => True) where
  pure := .pure
  bind hx _ hf := hx.bind hf
  record h cause := .record h.1 h.2 cause
  empty := rfl
  append := Block.elsewhere_append
  row h parent := by
    rcases h with ⟨chars, h⟩ | ⟨hcode, hcode'⟩
    · obtain ⟨rfl, rfl⟩ := List.cons.inj h
      exact ⟨rfl, rfl, trivial⟩
    · simp [Role.of, hcode.kind _ rfl, hcode'.kind _ rfl, Role.owner]
  heading h parent := by
    intro before before' heading heading' after after' hread hread'
    have hheads := heads_of_readHeading hread
    have hheads' := heads_of_readHeading hread'
    rcases h with ⟨chars, h⟩ | ⟨hcode, hcode'⟩
    · obtain ⟨rfl, rfl⟩ := List.cons.inj h
      obtain ⟨rfl, hfaults⟩ := (readHeading_relocate ⟨0, chars, rfl⟩ _ _ _).agree _ _ _ _ _ _
        hread hread'
      exact ⟨⟨trivial, fun hblock _ _ _ => hheads.agree chars hblock _ _⟩, hfaults⟩
    · obtain ⟨⟨found, hfound, hnone⟩, hclose⟩ := hheads.elsewhere_code hcode
      obtain ⟨⟨found', hfound', hnone'⟩, hclose'⟩ := hheads'.elsewhere_code hcode'
      refine ⟨⟨trivial, fun _ _ _ _ => ?_⟩, found, found', hfound, hfound', hnone.trans hnone'.symm⟩
      rw [hclose, hclose']

end Program
end GuidedTrack
