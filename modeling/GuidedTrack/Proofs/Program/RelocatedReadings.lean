import GuidedTrack.Proofs.Expr.RelocatedReadings
import GuidedTrack.Proofs.Program.ParallelReadings

/-! # Documents read at other places

Tokens some lines down and some characters further on are read as the same document with the same
faults, as far down and as far on: line by line, block by block and as a whole.
-/

namespace GuidedTrack

open List

namespace IsShift

variable {m : Position → Position}

theorem offset (h : IsShift m) : ∃ chars : Int, ∀ p, (m p).offset = p.offset + chars := by
  obtain ⟨lines, chars, rfl⟩ := h
  exact ⟨chars, fun _ => rfl⟩

end IsShift

namespace Program

variable {m : Position → Position}

/-! ## Recorded faults -/

section

variable {α β γ δ : Type}

/-- Whatever has been recorded before, the second computation does what the first does, with the
faults it adds elsewhere. -/
def Carries (m : Position → Position) (V : α → β → Prop) (x : Recorder α) (y : Recorder β) : Prop :=
  ∀ before before',
    (∃ error, x.run before = .error error ∧ y.run before' = .error error) ∨
      ∃ a b found, x.run before = .ok (a, before ++ found) ∧
        y.run before' = .ok (b, before' ++ found.map (Fault.relocate m)) ∧ V a b

namespace Carries

theorem mono {V W : α → β → Prop} {x : Recorder α} {y : Recorder β} (hx : Carries m V x y)
    (hV : ∀ a b, V a b → W a b) : Carries m W x y := by
  intro before before'
  obtain herror | ⟨a, b, found, hrun, hrun', hab⟩ := hx before before'
  · exact .inl herror
  · exact .inr ⟨a, b, found, hrun, hrun', hV a b hab⟩

theorem pure {V : α → β → Prop} {a : α} {b : β} (h : V a b) :
    Carries m V (Pure.pure a : Recorder α) (Pure.pure b) := by
  intro before before'
  refine .inr ⟨a, b, [], ?_, ?_, h⟩
  · rw [append_nil]
    rfl
  · rw [map_nil, append_nil]
    rfl

theorem bind_rel {V : α → β → Prop} {W : γ → δ → Prop} {x : Recorder α} {y : Recorder β}
    {f : α → Recorder γ} {f' : β → Recorder δ} (hx : Carries m V x y)
    (hf : ∀ a b, V a b → Carries m W (f a) (f' b)) : Carries m W (x >>= f) (y >>= f') := by
  intro before before'
  rw [StateT.run_bind, StateT.run_bind]
  obtain ⟨error, hrun, hrun'⟩ | ⟨a, b, found, hrun, hrun', hab⟩ := hx before before'
  · rw [hrun, hrun']
    exact .inl ⟨error, rfl, rfl⟩
  · rw [hrun, hrun']
    obtain herror | ⟨c, d, more, hmore, hmore', hcd⟩ :=
      hf a b hab (before ++ found) (before' ++ found.map (Fault.relocate m))
    · exact .inl herror
    · rw [append_assoc] at hmore
      rw [append_assoc, ← map_append] at hmore'
      exact .inr ⟨c, d, found ++ more, hmore, hmore', hcd⟩

theorem bind {g : α → β} {W : γ → δ → Prop} {x : Recorder α} {y : Recorder β}
    {f : α → Recorder γ} {f' : β → Recorder δ} (hx : Carries m (g · = ·) x y)
    (hf : ∀ a, Carries m W (f a) (f' (g a))) : Carries m W (x >>= f) (y >>= f') :=
  hx.bind_rel fun a _ heq => heq ▸ hf a

theorem record (position : Position) (cause : Fault.Cause) :
    Carries m (id · = ·) (record position cause) (record (m position) cause) :=
  fun _ _ => .inr ⟨(), (), [⟨position, cause⟩], rfl, rfl, rfl⟩

theorem readExpr (hm : IsShift m) (assignment : Bool) (anchor : Token) (tokens : List Token) :
    Carries m (Option.map (Expr.relocate m) · = ·) (readExpr assignment anchor tokens)
      (readExpr assignment (anchor.relocate m) (tokens.map (Token.relocate m))) := by
  intro before before'
  have hother := Expr.ofTokens_relocate hm assignment anchor.span.start tokens
  change Expr.ofTokens assignment (anchor.relocate m).span.start _ = _ at hother
  unfold Program.readExpr
  rw [hother]
  cases Expr.ofTokens assignment anchor.span.start tokens with
  | error error => exact .inl ⟨error, rfl, rfl⟩
  | ok result => exact .inr ⟨_, _, result.2, rfl, rfl, rfl⟩

end Carries
end

/-! ## Lines -/

theorem gap_shift (start stop chars : Int) :
    gap (start + chars) (stop + chars) = gap start stop := by
  rw [gap, gap, show stop + chars - (start + chars) = stop - start by omega]

theorem textPart_relocate (text : String) :
    (textPart text).map (Part.relocate m) = textPart text := by
  unfold textPart
  split <;> rfl

theorem readParts_relocate (hm : IsShift m) {chars : Int}
    (hoffset : ∀ p, (m p).offset = p.offset + chars) (cursor : Option Int) (text : String)
    (tokens : List Token) :
    Carries m (List.map (Part.relocate m) · = ·) (readParts cursor text tokens)
      (readParts (cursor.map (· + chars)) text (tokens.map (Token.relocate m))) := by
  have hmap (tokens : List Token) (kind : Token.Kind) (h : ∀ t ∈ tokens, t.kind ≠ kind) :
      ∀ t ∈ tokens.map (Token.relocate m), t.kind ≠ kind :=
    forall_mem_map.mpr h
  have hparts (text : String) (value? : Option Expr) :
      (textPart text ++ value?.toList.map Part.expr).map (Part.relocate m) =
        textPart text ++ (value?.map (Expr.relocate m)).toList.map .expr := by
    rw [map_append, textPart_relocate]
    cases value? <;> rfl
  have hgap (cursor : Option Int) (token : Token) :
      gap ((cursor.map (· + chars)).getD (token.relocate m).span.start.offset)
          (token.relocate m).span.start.offset =
        gap (cursor.getD token.span.start.offset) token.span.start.offset := by
    rw [show (token.relocate m).span.start.offset = _ from hoffset _]
    cases cursor <;> exact gap_shift _ _ _
  have hstop (token : Token) : some (token.relocate m).span.stop.offset =
      (some token.span.stop.offset).map (· + chars) := congrArg some (hoffset _)
  induction tokens using parts_induction generalizing cursor text with
  | nil =>
    rw [map_nil, readParts, readParts]
    exact .pure (textPart_relocate text)
  | comment token rest hkind ih =>
    rw [map_cons, readParts_comment _ _ _ hkind,
      readParts_comment _ _ _ (show (token.relocate m).kind = _ from hkind)]
    exact ih _ _
  | plain token rest hcomment hstart ih =>
    rw [map_cons, readParts_plain _ _ _ hcomment hstart,
      readParts_plain _ _ _ (show (token.relocate m).kind ≠ _ from hcomment) hstart, hgap, hstop]
    exact ih _ _
  | unclosed token inner hkind hinner =>
    rw [map_cons, readParts_open _ _ hkind hinner,
      readParts_open _ _ (show (token.relocate m).kind = _ from hkind) (hmap _ _ hinner), hgap]
    exact (Carries.readExpr hm false token _).bind fun value? =>
      (Carries.record _ _).bind fun _ => .pure (hparts _ value?)
  | hole token inner close more hkind hinner hclose ih =>
    rw [map_cons, map_append, map_cons, readParts_hole _ _ hkind hinner hclose,
      readParts_hole _ _ (show (token.relocate m).kind = _ from hkind) (hmap _ _ hinner)
        (show (close.relocate m).kind = _ from hclose), hgap, hstop]
    refine (Carries.readExpr hm false token _).bind fun value? => (ih _ _).bind fun others =>
      .pure ?_
    rw [map_append, hparts]

theorem getLastD_relocate (first : Token) (rest : List Token) :
    (rest.map (Token.relocate m)).getLastD (first.relocate m) =
      (rest.getLastD first).relocate m := by
  simp only [getLastD_eq_getLast?, getLast?_map, Option.getD_map]

theorem readProse_relocate (hm : IsShift m) (first : Token) (rest : List Token) :
    Carries m (Prose.relocate m · = ·) (readProse first rest)
      (readProse (first.relocate m) (rest.map (Token.relocate m))) := by
  obtain ⟨chars, hoffset⟩ := hm.offset
  refine (readParts_relocate hm hoffset none "" (first :: rest)).bind fun parts => .pure ?_
  rw [spanOf, spanOf, getLastD_relocate]
  rfl

theorem spelling_relocate {chars : Int} (hoffset : ∀ p, (m p).offset = p.offset + chars)
    (cursor : Int) (tokens : List Token) :
    spelling (cursor + chars) (tokens.map (Token.relocate m)) = spelling cursor tokens := by
  induction tokens generalizing cursor with
  | nil => rfl
  | cons token tokens ih =>
    have hstart : (token.relocate m).span.start.offset = token.span.start.offset + chars :=
      hoffset _
    have hstop : (token.relocate m).span.stop.offset = token.span.stop.offset + chars :=
      hoffset _
    rw [map_cons, spelling, hstart, gap_shift, hstop, ih]
    rfl

theorem expressionTokens_relocate (hm : IsShift m) (first : Token) (rest : List Token) :
    expressionTokens (first.relocate m) (rest.map (Token.relocate m)) =
      (expressionTokens first rest).map (Token.relocate m) := by
  obtain ⟨chars, hoffset⟩ := hm.offset
  have hstart : (first.relocate m).span.start.offset = first.span.start.offset + chars := hoffset _
  have hprose : ((first :: rest).map (Token.relocate m)).any (·.kind.isProse) =
      (first :: rest).any (·.kind.isProse) := any_map
  unfold expressionTokens
  dsimp only
  rw [← map_cons, hprose, hstart, spelling_relocate hoffset]
  split
  · rw [map_dropLast]
    exact congrArg dropLast (hm.ofExpression _ _)
  · rfl

theorem readArgument_relocate (hm : IsShift m) (parent : Option String) (name : String)
    (head : Token) (tokens : List Token) :
    Carries m (Option.map (Argument.relocate m) · = ·) (readArgument parent name head tokens)
      (readArgument parent name (head.relocate m) (tokens.map (Token.relocate m))) := by
  cases tokens with
  | nil => exact .pure rfl
  | cons first rest =>
    have hkind : (first.relocate m).kind = first.kind := rfl
    unfold readArgument
    rw [map_cons]
    dsimp only
    rw [hkind]
    split
    · cases rest with
      | nil => exact .pure rfl
      | cons second rest =>
        rw [map_cons]
        dsimp only
        split
        · rw [expressionTokens_relocate hm]
          refine (Carries.readExpr hm false head _).bind fun value? => .pure ?_
          cases value? <;> rfl
        · exact (readProse_relocate hm second rest).bind fun text => .pure rfl
    · have hfind : ((first :: rest).map (Token.relocate m)).find?
            (fun token => decide (token.kind ≠ .comment)) =
          ((first :: rest).find? fun token => decide (token.kind ≠ .comment)).map
            (Token.relocate m) :=
        find?_map
      rw [← map_cons, hfind]
      cases (first :: rest).find? fun token => decide (token.kind ≠ .comment) with
      | none => exact .pure rfl
      | some token => exact (Carries.record _ _).bind fun _ => .pure rfl

section

variable (m : Position → Position)

def Block.relocate (block : Block) : Block :=
  ⟨block.body.map (Statement.relocate m), block.subKeywords.map (SubKeyword.relocate m)⟩

def Heading.relocate : Heading → Heading
  | complete block => .complete (block.relocate m)
  | keyword name argument => .keyword name (argument.map (Argument.relocate m))
  | subKeyword name argument => .subKeyword name (argument.map (Argument.relocate m))
  | answer text => .answer (text.relocate m)

end

theorem readHeading_relocate (hm : IsShift m) (role : Role) (first : Token) (rest : List Token) :
    Carries m (Heading.relocate m · = ·) (readHeading role first rest)
      (readHeading role (first.relocate m) (rest.map (Token.relocate m))) := by
  have hargument (parent : Option String) :=
    readArgument_relocate hm parent (Text.lower first.text) first rest
  cases role with
  | comment => exact .pure rfl
  | expression =>
    refine (Carries.readExpr hm true first rest).bind fun value? => .pure ?_
    cases value? with
    | none => rfl
    | some value =>
      simp only [Option.map_some, Option.toList_some, map_singleton, Expr.span_relocate]
      rfl
  | keyword => exact (hargument none).bind fun argument => .pure rfl
  | strayDirective =>
    exact (Carries.record _ _).bind fun _ => (hargument none).bind fun argument => .pure rfl
  | subKeyword parent => exact (hargument (some parent)).bind fun argument => .pure rfl
  | answer | prose => exact (readProse_relocate hm first rest).bind fun text => .pure rfl

/-! ## Blocks -/

theorem Block.append_relocate (a b : Block) :
    a.relocate m ++ b.relocate m = (a ++ b).relocate m := by
  change Block.append _ _ = Block.relocate m (Block.append _ _)
  simp only [Block.append, Block.relocate, map_append]

theorem Heading.close_relocate (heading : Heading) (start stop : Position) (block : Block) :
    (heading.relocate m).close (m start) (m stop) (block.relocate m) =
      (heading.close start stop block).relocate m := by
  cases heading with
  | complete whole => rfl
  | _ =>
    simp only [Heading.relocate, Heading.close, Block.ofStatement, Block.ofSubKeyword,
      Block.relocate, map_singleton, map_nil, Statement.relocate, SubKeyword.relocate,
      Span.relocate, Statement.relocateList_eq, SubKeyword.relocateList_eq]

theorem parallel_relocate (hm : IsShift m) :
    Parallel (Carries m) (Block.relocate m · = ·) (Token.relocate m · = ·) (Token.relocate m · = ·)
      (List.map (Token.relocate m) · = ·) fun _ _ => True where
  pure := .pure
  bind hx _ hf := hx.bind_rel hf
  record h cause := h ▸ (Carries.record _ cause).mono fun _ _ _ => trivial
  empty := rfl
  append h more := h ▸ more ▸ (Block.append_relocate _ _).symm
  row h parent := by
    obtain ⟨rfl, rfl⟩ := List.cons.inj h
    exact ⟨rfl, rfl, (getLastD_relocate _ _).symm⟩
  heading h parent := by
    obtain ⟨rfl, rfl⟩ := List.cons.inj h
    refine (readHeading_relocate hm _ _ _).mono fun heading other hheading => ⟨trivial, ?_⟩
    rintro block _ rfl last _ rfl
    rw [← hheading]
    exact (Heading.close_relocate heading _ _ block).symm

end Program
end GuidedTrack
