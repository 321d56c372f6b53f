import GuidedTrack.Proofs.OutlineLines
import GuidedTrack.Proofs.Program.RecordedFaults

/-! # Documents read side by side

Two outlines of the same shape are read step by step in parallel. Whatever is asked of two readings
and goes through returns and binds holds of the readings of the outlines if it holds line by line.
-/

namespace GuidedTrack.Program

open List Outline

theorem adds_readItems (parent : Option String) (items : List Item) :
    Adds (readItems parent items) := by
  intro before block after h
  obtain ⟨nodes, hreads, -⟩ := reads_of_readItems h
  exact hreads.adds

theorem readItems_line_block (parent : Option String) (first : Token) (more : List Token)
    (indent : Token) (items rest : List Item) :
    readItems parent (.line first more :: .block indent items :: rest) = (do
      let heading ← readHeading (Role.of parent first) first more
      if (Role.of parent first).ownsBlock then
        let block ← readItems ((Role.of parent first).owner first) items
        let stop := (Outline.lastToken (more.getLastD first) items).span.stop
        let others ← readItems parent rest
        return heading.close first.span.start stop block ++ others
      else
        let others ← readItems parent (.block indent items :: rest)
        return heading.close first.span.start (more.getLastD first).span.stop {} ++ others) := by
  conv_lhs => rw [readItems]

theorem readItems_line (parent : Option String) (first : Token) (more : List Token)
    {rest : List Item} (hrest : ∀ indent items others, rest = .block indent items :: others →
        False) :
    readItems parent (.line first more :: rest) = (do
      let heading ← readHeading (Role.of parent first) first more
      let others ← readItems parent rest
      return heading.close first.span.start (more.getLastD first).span.stop {} ++ others) := by
  rw [readItems]
  exact hrest

/-- What `J` asks of two computations and of the values they return, it asks of readings of outlines
whose lines are related by `R` and whose marks are by `M`. The blocks that are read are related by
`B`, the last tokens of their lines by `S`, and by `L` the lines that have been read. -/
structure Parallel (J : ∀ {α β : Type}, (α → β → Prop) → Recorder α → Recorder β → Prop)
    (B : Block → Block → Prop) (S M : Token → Token → Prop) (R L : List Token → List Token → Prop) :
    Prop where
  pure {α β : Type} {V : α → β → Prop} {a : α} {b : β} (h : V a b) : J V (Pure.pure a) (Pure.pure b)
  bind {α β γ δ : Type} {V : α → β → Prop} {W : γ → δ → Prop} {x : Recorder α} {y : Recorder β}
    {f : α → Recorder γ} {g : β → Recorder δ} (hx : J V x y) (hadds : ∀ a, Adds (f a))
    (hf : ∀ a b, V a b → J W (f a) (g b)) : J W (x >>= f) (y >>= g)
  record {t u : Token} (h : M t u) (cause : Fault.Cause) :
    J (fun _ _ => True) (record t.span.start cause) (record u.span.start cause)
  empty : B {} {}
  append {a b c d : Block} (h : B a b) (more : B c d) : B (a ++ c) (b ++ d)
  row {t u : Token} {ts us : List Token} (h : R (t :: ts) (u :: us)) (parent : Option String) :
    Role.of parent u = Role.of parent t ∧
      (Role.of parent u).owner u = (Role.of parent t).owner t ∧ S (ts.getLastD t) (us.getLastD u)
  heading {t u : Token} {ts us : List Token} (h : R (t :: ts) (u :: us)) (parent : Option String) :
    J (fun heading other => L (t :: ts) (u :: us) ∧ ∀ {block block' : Block}, B block block' →
        ∀ {last last' : Token}, S last last' → B (heading.close t.span.start last.span.stop block)
          (other.close u.span.start last'.span.stop block'))
      (readHeading (Role.of parent t) t ts) (readHeading (Role.of parent u) u us)

namespace Parallel

variable {J : ∀ {α β : Type}, (α → β → Prop) → Recorder α → Recorder β → Prop}
  {B : Block → Block → Prop} {S M : Token → Token → Prop} {R L : List Token → List Token → Prop}

theorem mono (h : Parallel J B S M R L) {α β : Type} {V W : α → β → Prop} {x : Recorder α}
    {y : Recorder β} (hx : J V x y) (hV : ∀ a b, V a b → W a b) : J W x y := by
  have hbind := h.bind hx (fun _ => .pure _) fun a b hab => h.pure (hV a b hab)
  rwa [bind_pure, bind_pure] at hbind

theorem readItems (h : Parallel J B S M R L) {items items' : List Item}
    (htwin : ItemsTwin R M items items') (parent : Option String) :
    J (fun block other => B block other ∧ ItemsTwin L M items items')
      (readItems parent items) (readItems parent items') := by
  induction parent, items using readItems.induct generalizing items' with
  | case1 parent =>
    cases htwin
    rw [Program.readItems]
    exact h.pure ⟨h.empty, .nil⟩
  | case2 parent rest ih =>
    cases htwin with
    | newline more =>
      rw [Program.readItems, Program.readItems]
      exact h.mono (ih more) fun _ _ hblock => ⟨hblock.1, .newline hblock.2⟩
  | case3 parent indent items rest ihItems ih =>
    cases htwin with
    | block mark inner more =>
      rw [Program.readItems, Program.readItems]
      refine h.bind (h.record mark _) (fun _ => (adds_readItems _ _).bind fun _ =>
        (adds_readItems _ _).bind fun _ => .pure _) fun _ _ _ => ?_
      refine h.bind (ihItems inner) (fun _ => (adds_readItems _ _).bind fun _ => .pure _)
        fun nested nested' hnested => ?_
      refine h.bind (ih more) (fun _ => .pure _) fun others others' hothers => h.pure ?_
      exact ⟨h.append hnested.1 hothers.1, .block mark hnested.2 hothers.2⟩
  | case4 parent first line indent items rest role ihItems ih =>
    rename_i ihRest
    cases htwin with
    | @line _ first' _ line' _ _ row more =>
    cases more with
    | @block _ indent' _ inside' _ rest' mark inner more =>
    obtain ⟨hrole, howner, hlast⟩ := h.row row parent
    rw [readItems_line_block, readItems_line_block]
    refine h.bind (h.heading row parent) (fun heading => ?_) fun heading heading' hheading => ?_
    · split
      · exact (adds_readItems _ _).bind fun _ => (adds_readItems _ _).bind fun _ => .pure _
      · exact (adds_readItems _ _).bind fun _ => .pure _
    rw [hrole] at howner ⊢
    rw [howner]
    split
    · refine h.bind (ihItems inner) (fun _ => (adds_readItems _ _).bind fun _ => .pure _)
        fun block block' hblock => ?_
      refine h.bind (ih more) (fun _ => .pure _) fun others others' hothers => h.pure ?_
      exact ⟨h.append (hheading.2 hblock.1 (inner.lastToken (h.row · parent |>.2.2) hlast))
          hothers.1,
        .line hheading.1 (.block mark hblock.2 hothers.2)⟩
    · refine h.bind (ihRest (.block mark inner more)) (fun _ => .pure _)
        fun others others' hothers => h.pure ?_
      exact ⟨h.append (hheading.2 h.empty hlast) hothers.1, .line hheading.1 hothers.2⟩
  | case5 parent first line rest hrest ih =>
    cases htwin with
    | @line _ first' _ line' _ rest' row more =>
    have hrest' : ∀ indent items others, rest' = .block indent items :: others → False := by
      rintro indent items others rfl
      cases more
      exact hrest _ _ _ rfl
    rw [readItems_line _ _ _ hrest, readItems_line _ _ _ hrest']
    refine h.bind (h.heading row parent) (fun _ => (adds_readItems _ _).bind fun _ => .pure _)
      fun heading heading' hheading => ?_
    refine h.bind (ih more) (fun _ => .pure _) fun others others' hothers => h.pure ?_
    exact ⟨h.append (hheading.2 h.empty (h.row row parent).2.2) hothers.1,
      .line hheading.1 hothers.2⟩

end Parallel
end GuidedTrack.Program
