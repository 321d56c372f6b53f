import GuidedTrack.Proofs.Lint.FixTexts
import GuidedTrack.Proofs.Program.RelocatedReadings
import GuidedTrack.Proofs.Program.SpanNesting
import GuidedTrack.Proofs.Rule.RelocatedReports

/-! # Remarks in front of a document

A remark on a line of its own in front of a document changes nothing about it. All messages move one
line down and all fixes as many characters further on as the remark is long; the fixed text is the
remark and the fixed document.
-/

namespace GuidedTrack

open List

open Source (Line)
open Source Statement

variable {fixes : List Fix} {text : String} {comment : Token}

def Source.remark (text : String) : String :=
  "--" ++ text ++ "\n"

def Source.remarkLine (text : String) : Line :=
  ⟨'-' :: '-' :: text.toList, ['\n']⟩

open Source (remark remarkLine)

theorem Source.toList_remark (text : String) :
    (remark text).toList = (remarkLine text).content ++ ['\n'] := by
  simp [remark, remarkLine]

theorem Source.length_remarkLine (text : String) :
    (remarkLine text).length = (remark text).length := by
  rw [← String.length_toList, toList_remark, length_append]
  rfl

/-! ## Tokens -/

namespace Token

theorem lines_remark (htext : Inline text.toList) (source : String) :
    lines (remark text ++ source).toList = remarkLine text :: lines source.toList := by
  have hinline : Inline ((remarkLine text).content) :=
    forall_mem_cons.mpr ⟨by decide, forall_mem_cons.mpr ⟨by decide, htext⟩⟩
  rw [String.toList_append, toList_remark, append_assoc]
  exact lines_feed hinline source.toList

theorem ofSource_remark (htext : Inline text.toList) (source : String) :
    ∃ comment feed : Token, comment.kind = .comment ∧ feed.kind = .newline ∧
      comment.span.start.offset < (remarkLine text).length ∧
      feed.span.start.offset < (remarkLine text).length ∧
      ofSource (remark text ++ source) = comment :: feed ::
        (ofSource source).map (Token.relocate (Position.shift 1 0 (remarkLine text).length)) := by
  have hafter : (remarkLine text).after .origin =
      Position.shift 1 0 (remarkLine text).length .origin := rfl
  refine ⟨comment .origin (remarkLine text).content,
    spelled .newline (Position.origin.advance (remarkLine text).content.length) ['\n'],
    rfl, rfl, ?_, ?_, ?_⟩
  · change (0 : Int) < ((remarkLine text).content.length + 1 : Nat)
    omega
  · change (0 : Int) + (remarkLine text).content.length <
      ((remarkLine text).content.length + 1 : Nat)
    omega
  · rw [ofSource, lines_remark htext, scanLines_cons, hafter]
    exact congrArg (_ :: _ :: ·) (scanLines_shift 1 _ [] .origin (lines source.toList))

end Token

/-! ## Programs -/

namespace Program

open Outline (Item)

variable {m : Position → Position}

theorem readItems_comment (hcomment : comment.kind = .comment) (items : List Item) :
    readItems none (.line comment [] :: items) = (do
      let others ← readItems none items
      return .ofStatement (.comment comment.span comment.text) ++ others) := by
  have hrole : Role.of none comment = .comment := by
    unfold Role.of
    rw [hcomment]
  by_cases hblock : ∃ indent inner others, items = .block indent inner :: others
  · obtain ⟨indent, inner, others, rfl⟩ := hblock
    rw [readItems_line_block, hrole]
    rfl
  · rw [readItems_line none comment [] fun indent inner others heq => hblock ⟨_, _, _, heq⟩, hrole]
    rfl

theorem readOutline_comment (hcomment : comment.kind = .comment) (outline : Outline) :
    readOutline { outline with items := .line comment [] :: outline.items } = (do
      let body ← readOutline outline
      return .comment comment.span comment.text :: body) := by
  unfold readOutline
  rw [readItems_comment hcomment]
  simp only [bind_assoc, pure_bind]
  rfl

theorem ofTokens_remark (hm : IsShift m) {feed : Token} (hcomment : comment.kind = .comment)
    (hfeed : feed.kind = .newline) {tokens : List Token}
    (hstrays : (Outline.ofTokens tokens).strays = []) :
    ∃ stop, ofTokens (comment :: feed :: tokens.map (Token.relocate m)) =
      (ofTokens tokens).map fun result =>
        (⟨⟨.origin, stop⟩, .comment comment.span comment.text ::
          result.1.body.map (Statement.relocate m)⟩, result.2.map (Fault.relocate m)) := by
  have htwin := Outline.twin_map (f := Token.relocate m) (fun _ => rfl) tokens
  have houtline : Outline.ofTokens (comment :: feed :: tokens.map (Token.relocate m)) =
      { Outline.ofTokens (tokens.map (Token.relocate m)) with
        items := .line comment [] ::
          (Outline.ofTokens (tokens.map (Token.relocate m))).items } := by
    rw [← singleton_append, ← singleton_append (x := feed),
      Outline.ofTokens_append (by simp [hcomment]), Outline.ofTokens_append (by simp [hfeed])]
    simp [Outline.cons, hcomment, hfeed, Outline.prepend]
  let last := (comment :: feed :: tokens.map (Token.relocate m)).getLast?
  refine ⟨(last.map fun token => token.span.stop).getD .origin, ?_⟩
  rw [ofTokens, houtline, readOutline_comment hcomment, ofTokens, readOutline_eq hstrays,
    readOutline_eq (htwin.strays_eq_nil hstrays)]
  simp only [StateT.run_bind]
  obtain ⟨error, hread, hread'⟩ | ⟨block, _, found, hread, hread', rfl, -⟩ :=
    (parallel_relocate hm).readItems htwin.items none [] []
  · rw [hread, hread']
    rfl
  · rw [hread, hread']
    rfl

end Program

/-! ## Tours -/

open Node (Tours) in
/-- Behind a new comment at the front of a program, all else on its tour is the same. -/
theorem Rule.steps_remark {m : Position → Position} {N : Int → Int → Prop}
    (hm : Program.KeepsOrder (Moves m)) {program : Program}
    (hloops : ∀ inner ∈ (Node.program program).walk,
      N inner.span.start.offset (m inner.span.start).offset) (span remark : Span) (text : String) :
    Forall₂ (Visit.Twin (Moves m) (Moves m) N)
      (((Node.program program).tour [] 0).filter (!isRemark ·.node))
      (((Node.program ⟨span, .comment remark text :: program.body.map (relocate m)⟩).tour
        [] 0).filter (!isRemark ·.node)) := by
  let other : Program := ⟨span, .comment remark text :: program.body.map (relocate m)⟩
  let comment : Node := .statement (.comment remark text)
  have hchildren : (Node.program other).children =
      comment :: (program.body.map (relocate m)).map .statement := rfl
  have hcomment (ancestors : List Node) (place : Nat) : comment.tour ancestors place =
      [⟨.enter, comment, ancestors, place⟩, ⟨.leave, comment, ancestors, place⟩] := by
    rw [Node.tour_eq]
    rfl
  have hbody : Forall₂ (Tours (Moves m) (Moves m) N) (program.body.map .statement)
      ((program.body.map (relocate m)).map .statement) := by
    rw [Node.map_statement_relocate, forall₂_map_right_iff]
    rw [Node.walk_eq, forall_mem_cons, forall_mem_flatMap] at hloops
    exact forall₂_same.mpr fun child hchild => Node.tours_relocate hm (hloops.2 child hchild)
  have hinner := Node.forall₂_flatMap_zipIdx hbody 1
    (f := fun child => child.1.tour [.program program] child.2)
    (g := fun child => child.1.tour [.program other] child.2)
    (V := Visit.Twin (Moves m) (Moves m) N)
    (fun a b i hab => @hab [.program program] [.program other] i (i + 1) rfl rfl) 0
  have hends (phase : Phase) : Visit.Twin (Moves m) (Moves m) N ⟨phase, .program program, [], 0⟩
      ⟨phase, .program other, [], 0⟩ := ⟨.program, rfl, rfl⟩
  have htour : ((Node.program other).tour [] 0).filter (!isRemark ·.node) =
      ⟨.enter, .program other, [], 0⟩ :: filter (!isRemark ·.node)
        ((((program.body.map (relocate m)).map Node.statement).zipIdx 1).flatMap
          (fun child => child.1.tour [.program other] child.2) ++
              [⟨.leave, .program other, [], 0⟩]) := by
    rw [Node.tour_eq, hchildren, zipIdx_cons, flatMap_cons, hcomment]
    rfl
  rw [htour, Node.tour_eq]
  refine .cons (hends .enter) (forall₂_filter (fun visit visit' htwin => ?_)
    (rel_append hinner (.cons (hends .leave) .nil)))
  obtain ⟨same, -, -⟩ := htwin
  cases same <;> rfl

/-! ## Fixes -/

namespace Fix

section

variable {front source : List Char}

theorem clampBound_shift {bound : Int} (h : 0 ≤ bound) :
    Text.clampBound (front ++ source).length (bound + front.length) =
      front.length + Text.clampBound source.length bound := by
  simp only [Text.clampBound, length_append]
  omega

theorem slice_shift {start stop : Int} (hstart : 0 ≤ start) (hstop : 0 ≤ stop) :
    Text.slice (front ++ source) (start + front.length) (stop + front.length) =
      Text.slice source start stop := by
  rw [Text.slice, clampBound_shift hstart, clampBound_shift hstop, take_length_add_append,
    drop_length_add_append]
  rfl

theorem applyFrom_shift {cursor : Int} (hcursor : 0 ≤ cursor)
    (h : ∀ fix ∈ fixes, 0 ≤ fix.start ∧ 0 ≤ fix.stop) :
    applyFrom (front ++ source) (cursor + front.length) (fixes.map (shift front.length)) =
      applyFrom source cursor fixes := by
  induction fixes generalizing cursor with
  | nil =>
    rw [map_nil, applyFrom, applyFrom, Text.sliceFrom, clampBound_shift hcursor,
      drop_length_add_append]
    rfl
  | cons fix fixes ih =>
    obtain ⟨⟨hstart, hstop⟩, hfixes⟩ := forall_mem_cons.mp h
    have hbefore : (fix.shift front.length).start < cursor + front.length ↔ fix.start < cursor :=
      Int.add_lt_add_iff_right _
    rw [map_cons, applyFrom, applyFrom]
    simp only [hbefore]
    split
    · exact ih hcursor hfixes
    · rw [← ih hstop hfixes, ← slice_shift hcursor hstart]
      rfl

end

theorem applyAll_shift {front source : String} (h : ∀ fix ∈ fixes, 0 ≤ fix.start ∧ 0 ≤ fix.stop) :
    applyAll (front ++ source) (fixes.map (shift front.length)) =
      front ++ applyAll source fixes := by
  have hsorted : sorted (fixes.map (shift front.length)) =
      (sorted fixes).map (shift front.length) := by
    refine (map_mergeSort fun a _ b _ => decide_eq_decide.mpr ?_).symm
    change a.start ≤ b.start ↔ a.start + front.length ≤ b.start + front.length
    omega
  have hall : ∀ fix ∈ sorted fixes, 0 ≤ fix.start ∧ 0 ≤ fix.stop :=
    fun fix hfix => h fix (mem_mergeSort.mp hfix)
  refine String.toList_inj.mp ?_
  rw [applyAll, applyAll, hsorted, String.toList_append, String.toList_append]
  simp only [String.toList_ofList, ← String.length_toList]
  rw [← applyFrom_shift (Int.le_refl 0) hall, Int.zero_add]
  refine (applyFrom_advance (i := 0) (drop_zero ..) (Nat.zero_le _) ?_).trans ?_
  · rw [forall_mem_map]
    intro fix hfix
    have hstart := (hall fix hfix).1
    change _ ≤ fix.start + front.toList.length
    omega
  · rw [Nat.zero_add]

end Fix

namespace Lint

def Message.shift (lines chars : Int) (message : Message) : Message :=
  { message with report := message.report.shift lines chars }

theorem document_remark (htext : Inline text.toList) (source : String) :
    (∀ error, document source = .error error → document (remark text ++ source) = .error error) ∧
      ∀ a, document source = .ok a →
        ∃ b, document (remark text ++ source) = .ok b ∧ Rule.Behind (remarkLine text) a b := by
  obtain ⟨comment, feed, hcomment, hfeed, hstart, hstop, htokens⟩ :=
    Token.ofSource_remark htext source
  have hm : IsShift (Position.shift 1 0 (remarkLine text).length) := ⟨_, _, rfl⟩
  have hprogram := Program.ofTokens_remark hm hcomment hfeed (Token.strays_ofSource source)
  rw [← htokens] at hprogram
  obtain ⟨stop, hprogram⟩ := hprogram
  unfold document
  dsimp only
  rw [hprogram]
  cases hread : Program.ofTokens (Token.ofSource source) with
  | error error =>
    refine ⟨fun other heq => ?_, fun a heq => (by cases heq)⟩
    cases heq
    rfl
  | ok result =>
    refine ⟨fun error heq => (by cases heq), fun a heq => ?_⟩
    obtain ⟨program, faults⟩ := result
    obtain rfl := Except.ok.inj heq
    refine ⟨_, rfl, rfl, Token.lines_remark htext source,
      ⟨comment, feed, hcomment, hfeed, hstart, hstop, htokens⟩, ?_⟩
    refine Rule.steps_remark (Rule.keepsOrder_lower _) (fun inner hinner => ⟨?_, rfl⟩) _ _ _
    obtain ⟨items, last, hreading⟩ := Program.reading_ofSource hread
    obtain ⟨i, -, hplace⟩ := (hreading.nested.of_mem_walk hinner).start
    rw [hplace]
    exact Int.natCast_nonneg i

theorem messagesOn_behind {front : Line} {a b : Document} (h : Rule.Behind front a b)
    (settings : Settings) :
    messagesOn settings b = (messagesOn settings a).map (Message.shift 1 front.length) := by
  have hsort : ∀ x ∈ a.visits.flatMap (messagesAt settings a), ∀ y ∈ a.visits.flatMap
      (messagesAt settings a), x.precedes y =
        (x.shift 1 front.length).precedes (y.shift 1 front.length) := by
    intro x _ y _
    rw [Bool.eq_iff_iff, precedes_iff, precedes_iff]
    dsimp only [Message.shift, Report.shift]
    omega
  rw [messagesOn, messagesOn, map_mergeSort hsort]
  have hremark (document : Document) (visit : Visit) (hvisit : Rule.isRemark visit.node = true) :
      messagesAt settings document visit = [] := by
    refine flatMap_eq_nil_iff.mpr fun rule hrule => ?_
    rw [Rule.check_remark document hvisit rule hrule]
    split <;> rfl
  refine congrArg (mergeSort · Message.precedes) ?_
  rw [← Rule.flatMap_steps (hremark a), ← Rule.flatMap_steps (hremark b)]
  have hsteps := h.steps
  generalize Rule.steps a = visits, Rule.steps b = others at hsteps
  induction hsteps with
  | nil => rfl
  | @cons visit other visits others first rest ih =>
    have hfirst : messagesAt settings b other =
        (messagesAt settings a visit).map (Message.shift 1 front.length) := by
      rw [messagesAt, messagesAt, map_flatMap]
      refine flatMap_congr fun rule hrule => ?_
      rw [h.check first rule hrule]
      split
      · rfl
      · rw [map_map, map_map]
        rfl
    rw [flatMap_cons, flatMap_cons, map_append, ih, hfirst]

theorem fixableCount_shift (severity : Severity) (lines chars : Int) (messages : List Message) :
    fixableCount severity (messages.map (Message.shift lines chars)) =
      fixableCount severity messages := by
  rw [fixableCount, countP_map, fixableCount]
  refine countP_congr fun message _ => ?_
  change (decide (message.severity = severity) && (message.report.fix.map _).isSome) = true ↔ _
  rw [Option.isSome_map]

/-- A remark in front of a document moves its messages down and leaves them as they are otherwise.
-/
theorem messages_remark {text : String} (htext : ∀ c ∈ text.toList, c ≠ '\n' ∧ c ≠ '\r')
    (settings : Settings) (source : String) :
    messages settings (remark text ++ source) =
        (messages settings source).map (List.map (Message.shift 1 (remark text).length)) ∧
      (∀ severity, (messages settings (remark text ++ source)).map (count severity) =
          (messages settings source).map (count severity) ∧
        (messages settings (remark text ++ source)).map (fixableCount severity) =
          (messages settings source).map (fixableCount severity)) ∧
      fixed settings (remark text ++ source) =
        (fixed settings source).map (remark text ++ ·) := by
  have hinline : ∀ c ∈ text.toList, Source.isInline c = true := by
    simpa [Source.isInline] using htext
  obtain ⟨hfailed, hbehind⟩ := document_remark hinline source
  have hmessages : messages settings (remark text ++ source) =
      (messages settings source).map (List.map (Message.shift 1 (remark text).length)) := by
    rw [messages_eq, messages_eq]
    cases ha : document source with
    | error error =>
      rw [hfailed error ha]
      rfl
    | ok a =>
      obtain ⟨b, hb, hab⟩ := hbehind a ha
      rw [hb, ← Source.length_remarkLine]
      exact congrArg Except.ok (messagesOn_behind hab settings)
  refine ⟨hmessages, fun severity => ?_, ?_⟩
  · rw [hmessages]
    cases messages settings source with
    | error error => exact ⟨rfl, rfl⟩
    | ok found =>
      refine ⟨congrArg Except.ok ?_, congrArg Except.ok (fixableCount_shift ..)⟩
      rw [count, countP_map]
      rfl
  · rw [fixed, hmessages, fixed]
    cases hfound : messages settings source with
    | error error => rfl
    | ok found =>
      have hfixes : fixes (found.map (Message.shift 1 (remark text).length)) =
          (fixes found).map (Fix.shift (remark text).length) := by
        rw [fixes, filterMap_map, fixes, map_filterMap]
        rfl
      refine congrArg Except.ok ?_
      rw [hfixes]
      refine Fix.applyAll_shift fun fix hfix => ?_
      obtain ⟨⟨i, j, hstart, hstop, -⟩, -⟩ := mild_of_mem_fixes hfound fix hfix
      omega

/-- A document with two fixes, behind a remark. -/
theorem messages_remark_fixed :
    (∀ c ∈ " note".toList, c ≠ '\n' ∧ c ≠ '\r') ∧
      messages [] (remark " note" ++ "*foo\n  >> \"a") =
        (messages [] "*foo\n  >> \"a").map (List.map (Message.shift 1 8)) ∧
      fixed [] "*foo\n  >> \"a" = .ok "*foo\n\t>> \"a\"" ∧
      fixed [] (remark " note" ++ "*foo\n  >> \"a") =
        .ok (remark " note" ++ "*foo\n\t>> \"a\"") := by
  have hall : (" note".toList.all fun c => c != '\n' && c != '\r') = true := by decide
  have htext : ∀ c ∈ " note".toList, c ≠ '\n' ∧ c ≠ '\r' := by
    simpa only [all_eq_true, Bool.and_eq_true, bne_iff_ne] using hall
  have hlength : (remark " note").length = 8 := by decide
  have hfixed : fixed [] "*foo\n  >> \"a" = .ok "*foo\n\t>> \"a\"" := by
    simp only [fixed, messages_eq_insertion, Fix.applyAll, Fix.sorted_eq_insertion]
    decide +kernel
  obtain ⟨hmessages, -, hbehind⟩ := messages_remark htext [] "*foo\n  >> \"a"
  rw [hlength] at hmessages
  rw [hfixed] at hbehind
  exact ⟨htext, hmessages, hfixed, hbehind⟩

end Lint
end GuidedTrack
