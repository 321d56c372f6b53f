import GuidedTrack.Proofs.Rule.RelocatedReports

/-! # Brackets that nothing closes

The check of brackets says of every line exactly what is wrong with it. It is silent if the brackets
of the line are well nested, and where all closing ones meet their own, it names the openers that
nothing closes, with a text that closes them.
-/

namespace GuidedTrack.Rule

open List Token

variable {token : Token} {tokens openers row inner : List Token}

/-- Every opening bracket is followed by its closing one, with nothing but such rows between them
and behind. What is no bracket stands anywhere. -/
inductive WellNested : List Token → Prop where
  | nil : WellNested []
  | other {token : Token} {row : List Token} (opens : closerOf? token.kind = none)
      (closes : closerSpelling? token.kind = none) (rest : WellNested row) :
          WellNested (token :: row)
  | wrap {opener closer : Token} {inner row : List Token}
      (pair : closerOf? opener.kind = some closer.kind) (inside : WellNested inner)
      (rest : WellNested row) : WellNested (opener :: (inner ++ closer :: row))

/-- The openers of a row that nothing closes, innermost first: before, between and behind them the
row is well nested. -/
inductive Leaves : List Token → List Token → Prop where
  | none {row : List Token} (nested : WellNested row) : Leaves row []
  | opener {opener : Token} {row openers inner : List Token} (before : Leaves row openers)
      (opens : (closerOf? opener.kind).isSome = true) (nested : WellNested inner) :
      Leaves (row ++ opener :: inner) (opener :: openers)

theorem WellNested.append (h : WellNested row) (hmore : WellNested inner) :
    WellNested (row ++ inner) := by
  induction h with
  | nil => exact hmore
  | other opens closes rest ih => exact .other opens closes ih
  | wrap pair inside rest _ ih =>
    rw [cons_append, append_assoc]
    exact .wrap pair inside ih

theorem Leaves.append (h : Leaves row openers) (hmore : WellNested inner) :
    Leaves (row ++ inner) openers := by
  cases h with
  | none nested => exact .none (nested.append hmore)
  | opener before opens nested =>
    rw [append_assoc]
    exact .opener before opens (nested.append hmore)

theorem Leaves.isSome_closerOf? (h : Leaves row openers) :
    ∀ opener ∈ openers, (closerOf? opener.kind).isSome = true := by
  induction h with
  | none => simp
  | opener before opens nested ih => exact forall_mem_cons.mpr ⟨opens, ih⟩

/-! ## The run of the check over a row -/

theorem rowFaults_append (openers row others : List Token) :
    rowFaults openers (row ++ others) =
      rowFaults openers row ++ rowFaults (row.foldl afterToken openers) others := by
  induction row generalizing openers with
  | nil => rfl
  | cons token row ih => rw [cons_append, rowFaults, rowFaults, ih, append_assoc, foldl_cons]

def Passing (openers row after : List Token) : Prop :=
  rowFaults openers row = [] ∧ row.foldl afterToken openers = after

theorem Passing.append {mid after others : List Token} (h : Passing openers row mid)
    (hmore : Passing mid others after) : Passing openers (row ++ others) after := by
  refine ⟨?_, by rw [foldl_append, h.2, hmore.2]⟩
  rw [rowFaults_append, h.1, h.2, hmore.1, append_nil]

theorem passing_opener (h : (closerOf? token.kind).isSome = true) (openers : List Token) :
    Passing openers [token] (token :: openers) := by
  refine ⟨?_, if_pos h⟩
  rw [rowFaults, closerReports.eq_def, closerSpelling?_opener h]
  rfl

theorem passing_closer {opener : Token} (h : closerOf? opener.kind = some token.kind)
    (openers : List Token) : Passing (opener :: openers) [token] openers := by
  have hcloses : (closerSpelling? token.kind).isSome = true ∧ closerOf? token.kind = none := by
    revert h
    generalize token.kind = kind
    cases opener.kind <;> rintro ⟨⟩ <;> exact ⟨rfl, rfl⟩
  refine ⟨?_, ?_⟩
  · rw [rowFaults, closerReports.eq_def, if_pos hcloses.1]
    simp [h, rowFaults]
  · rw [foldl_cons, afterToken, hcloses.2, if_neg (by simp), if_pos hcloses.1]
    rfl

theorem WellNested.passing (h : WellNested row) (openers : List Token) :
    Passing openers row openers := by
  induction h generalizing openers with
  | nil => exact ⟨rfl, rfl⟩
  | @other token row opens closes rest ih =>
    have hfirst : Passing openers [token] openers := by
      simp [Passing, rowFaults, closerReports, afterToken, opens, closes]
    exact hfirst.append (ih openers)
  | @wrap opener closer inner row pair inside rest ihInside ih =>
    have hopens : (closerOf? opener.kind).isSome = true := by rw [pair]; rfl
    exact (passing_opener hopens openers).append
      ((ihInside _).append ((passing_closer pair openers).append (ih openers)))

theorem Leaves.passing (h : Leaves row openers) : Passing [] row openers := by
  induction h with
  | none nested => exact nested.passing []
  | opener before opens nested ih =>
    exact ih.append ((passing_opener opens _).append (nested.passing _))

/-- What stays open behind a row without faults are the openers that nothing closes. -/
theorem leaves_of_rowFaults (h : rowFaults [] row = []) : Leaves row (row.foldl afterToken []) := by
  induction row using reverseRecOn with
  | nil => exact .none .nil
  | append_singleton row token ih =>
    rw [rowFaults_append, append_eq_nil_iff] at h
    have hrow := ih h.1
    have hcloser := closerReports_eq_nil_iff.mp (append_eq_nil_iff.mp h.2).1
    rw [foldl_append]
    generalize row.foldl afterToken [] = openers at hrow hcloser
    rw [foldl_cons, foldl_nil, afterToken]
    split
    · exact .opener hrow ‹_› .nil
    · rename_i hopens
      have hnone : closerOf? token.kind = none := by simpa using hopens
      split
      · rename_i hcloses
        have hpair := hcloser hcloses
        cases hrow with
        | none => cases hpair
        | opener before opens nested =>
          rw [append_assoc, cons_append]
          exact before.append (.wrap hpair nested .nil)
      · rename_i hcloses
        exact hrow.append (.other hnone (by simpa using hcloses) .nil)

theorem wellNested_iff : WellNested row ↔ Passing [] row [] := by
  refine ⟨fun h => h.passing [], fun h => ?_⟩
  have hleaves := leaves_of_rowFaults h.1
  rw [h.2] at hleaves
  cases hleaves with
  | none nested => exact nested

/-- Behind the closing brackets that are missed, innermost first, the row is well nested. -/
theorem Leaves.wellNested (h : Leaves row openers) {closing : List Token}
    (hclosing : closing.map (·.kind) = openers.filterMap (closerOf? ·.kind)) :
    WellNested (row ++ closing) := by
  induction openers generalizing row closing with
  | nil =>
    obtain rfl := map_eq_nil_iff.mp hclosing
    cases h with
    | none nested => simpa using nested
  | cons opener openers ih =>
    cases h with
    | @opener _ row _ inner before opens nested =>
      obtain ⟨kind, hkind⟩ := Option.isSome_iff_exists.mp opens
      rw [filterMap_cons_some (f := fun opener : Token => closerOf? opener.kind) hkind] at hclosing
      obtain ⟨closer, closing, rfl, rfl, hrest⟩ := map_eq_cons_iff.mp hclosing
      have hrow := ih (before.append (.wrap hkind nested .nil)) hrest
      simpa using hrow

/-! ## Lines -/

/-- A line among the tokens: what stands between two tokens that end lines or shape blocks. -/
structure IsLine (tokens front row : List Token) (stop : Token) (back : List Token) : Prop where
  tokens : tokens = front ++ (row ++ stop :: back)
  starts : ∀ token ∈ front.getLast?, token.kind.isStructural = true
  content : ∀ token ∈ row, token.kind.isStructural = false
  stops : stop.kind.isStructural = true

theorem bracketReports_front (openers init : List Token) {last : Token}
    (hlast : last.kind.isStructural = true) (lineEnd : Int) (rest : List Token) :
    bracketReports openers lineEnd (init ++ last :: rest) =
      bracketReports openers lineEnd (init ++ [last]) ++ bracketReports [] 0 rest := by
  induction init generalizing openers lineEnd with
  | nil =>
    rw [nil_append, nil_append, bracketReports_stop hlast, bracketReports_stop hlast, append_assoc,
      bracketReports_lineEnd lineEnd 0 rest]
    rfl
  | cons token init ih =>
    rw [cons_append, cons_append]
    cases hkind : token.kind.isStructural with
    | true => rw [bracketReports_stop hkind, bracketReports_stop hkind, ih, append_assoc]
    | false => rw [bracketReports_cons hkind, bracketReports_cons hkind, ih, append_assoc]

section

variable {front back : List Token} {stop : Token} (h : IsLine tokens front row stop back)
include h

theorem IsLine.bracketReports_eq : bracketReports [] 0 tokens =
    bracketReports [] 0 front ++ (bracketReports [] 0 (row ++ [stop]) ++
        bracketReports [] 0 back) := by
  have hrest := bracketReports_front [] row h.stops 0 back
  rcases eq_nil_or_concat front with rfl | ⟨init, last, rfl⟩
  · rw [h.tokens, nil_append, hrest]
    rfl
  · have hlast := h.starts last (by simp)
    rw [h.tokens, concat_eq_append, append_assoc, singleton_append,
      bracketReports_front [] init hlast, hrest]

theorem IsLine.reports : bracketReports [] 0 (row ++ [stop]) = rowFaults [] row ++
    unclosedReports (row.foldl afterToken []).reverse (row.foldl endAfter 0) := by
  rw [bracketReports_append h.content ⟨stop, [], rfl, h.stops⟩, bracketReports_stop h.stops]
  simp [bracketReports, unclosedReports]

theorem IsLine.reports_eq_nil_iff : bracketReports [] 0 (row ++ [stop]) = [] ↔ WellNested row := by
  rw [h.reports, append_eq_nil_iff, wellNested_iff, Passing]
  simp [unclosedReports]

end

theorem bracketReports_eq_nil {stop : Token} (hstop : stop.kind.isStructural = true)
    (init : List Token) (h : ∀ front row stop' back,
      IsLine (init ++ [stop]) front row stop' back → WellNested row) :
    bracketReports [] 0 (init ++ [stop]) = [] := by
  induction hn : init.length using Nat.strongRecOn generalizing init with
  | _ n ih =>
    have hsplit := (takeWhile_append_dropWhile (p := fun token : Token => !token.kind.isStructural)
      (l := init)).symm
    have hrow : ∀ token ∈ init.takeWhile fun token : Token => !token.kind.isStructural,
        token.kind.isStructural = false := fun token htoken => by
      simpa using mem_takeWhile_imp htoken
    generalize init.takeWhile (fun token : Token => !token.kind.isStructural) = row at hsplit hrow
    cases hrest : init.dropWhile fun token : Token => !token.kind.isStructural with
    | nil =>
      rw [hrest, append_nil] at hsplit
      have hline : IsLine (init ++ [stop]) [] row stop [] :=
        ⟨by rw [hsplit, nil_append], by simp, hrow, hstop⟩
      rw [hline.bracketReports_eq, hline.reports_eq_nil_iff.mpr (h _ _ _ _ hline)]
      rfl
    | cons first rest =>
      rw [hrest] at hsplit
      have hfirst : first.kind.isStructural = true := by
        have hnot := head?_dropWhile_not (fun token : Token => !token.kind.isStructural) init
        rw [hrest] at hnot
        simpa using hnot
      have hline : IsLine (init ++ [stop]) [] row first (rest ++ [stop]) :=
        ⟨by rw [hsplit, append_assoc, nil_append, cons_append], by simp, hrow, hfirst⟩
      have hlength : rest.length < n := by
        rw [← hn, hsplit]
        simp
        omega
      rw [hline.bracketReports_eq, hline.reports_eq_nil_iff.mpr (h _ _ _ _ hline),
        ih _ hlength rest (fun front row' stop' back hlater => ?_) rfl]
      · rfl
      · refine h (row ++ first :: front) row' stop' back ⟨?_, ?_, hlater.content, hlater.stops⟩
        · rw [hline.tokens, hlater.tokens, nil_append, append_assoc, cons_append]
        · intro token htoken
          rw [getLast?_append_of_ne_nil _ (by simp), getLast?_cons] at htoken
          cases hlast : front.getLast? with
          | none =>
            rw [hlast] at htoken
            cases htoken
            exact hfirst
          | some last =>
            rw [hlast] at htoken
            cases htoken
            exact hlater.starts _ hlast

/-- The check of brackets is exact: it says nothing if and only if every line is well nested. Where
all closing brackets of a line meet their own, it reports the openers that nothing closes, outermost
first, and the one fix, at the outermost, spells the brackets that close them. -/
theorem check_noUnclosedBracket {document : Document} {init : List Token} {stop : Token}
    (htokens : document.tokens = init ++ [stop]) (hstop : stop.kind = .endOfInput)
    (program : Program) (ancestors : List Node) (place : Nat) :
    let reports := noUnclosedBracket.check document ⟨.enter, .program program, ancestors, place⟩
    (reports = [] ↔ ∀ front row stop back, IsLine document.tokens front row stop back →
      WellNested row) ∧
    ∀ front row stop back, IsLine document.tokens front row stop back →
      ∃ found, reports = bracketReports [] 0 front ++ (found ++ bracketReports [] 0 back) ∧
        ((∀ report ∈ found, isMismatch report = false ∧ isStray report = false) ↔
          ∃ openers, Leaves row openers) ∧
        ∀ openers, Leaves row openers → ∃ (lineEnd : Int) (closing : List Kind),
          found = openers.reverse.zipIdx.map (fun entry =>
            { Report.ofPosition entry.1.span.start s!"Unclosed '{entry.1.text}'" with
              fix := if entry.2 = 0 then some ⟨lineEnd, lineEnd,
                String.join (closing.map fun kind => (closerSpelling? kind).getD "")⟩ else none }) ∧
          ∀ closers : List Token, closers.map (·.kind) = closing → WellNested (row ++ closers) := by
  intro reports
  have hreports : reports = bracketReports [] 0 document.tokens := rfl
  refine ⟨⟨fun hnone front row stop back hline => ?_, fun hlines => ?_⟩,
    fun front row stop back hline => ?_⟩
  · rw [hreports, hline.bracketReports_eq] at hnone
    exact hline.reports_eq_nil_iff.mp (by simp_all)
  · rw [htokens] at hlines
    rw [hreports, htokens]
    exact bracketReports_eq_nil (by rw [hstop]; rfl) init hlines
  · refine ⟨_, hline.bracketReports_eq, ?_, fun openers hleaves => ?_⟩
    · rw [hline.reports]
      refine ⟨fun hall => ⟨_, leaves_of_rowFaults (rowFaults_eq_nil_iff.mpr
        (nested_of_rowFaults fun report hreport => hall report (mem_append_left _ hreport)))⟩, ?_⟩
      rintro ⟨openers, hleaves⟩ report hreport
      rw [hleaves.passing.1, nil_append, unclosedReports] at hreport
      obtain ⟨entry, -, rfl⟩ := mem_map.mp hreport
      simp only [isMismatch, isStray, Report.ofPosition, ToString.toString, String.toList_append]
      exact ⟨rfl, rfl⟩
    · refine ⟨row.foldl endAfter 0, openers.filterMap (closerOf? ·.kind), ?_,
        fun closers hclosers => hleaves.wellNested hclosers⟩
      have hclosing : (openers.filterMap (closerOf? ·.kind)).map
          (fun kind => (closerSpelling? kind).getD "") = openers.map awaited := by
        rw [map_filterMap, ← filterMap_eq_map]
        refine filterMap_congr fun opener hopener => ?_
        obtain ⟨kind, hkind⟩ := Option.isSome_iff_exists.mp (hleaves.isSome_closerOf? _ hopener)
        simp [awaited, hkind]
      rw [hline.reports, hleaves.passing.1, hleaves.passing.2, nil_append, unclosedReports,
        reverse_reverse, hclosing]

/-- A line with brackets of several shapes, some closed and some not. -/
def halfClosed : Document :=
  ⟨">> ([a], \x7b(b)", Token.ofSource ">> ([a], \x7b(b)", []⟩

/-- Two brackets are reported, and what the fix spells closes both. -/
theorem check_noUnclosedBracket_mixed :
    (¬ ∀ front row stop back, IsLine halfClosed.tokens front row stop back → WellNested row) ∧
    noUnclosedBracket.check halfClosed ⟨.enter, .program ⟨⟨.origin, .origin⟩, []⟩, [], 0⟩ =
      [⟨"Unclosed '('", 1, 4, none, none, some ⟨13, 13, "\x7d)"⟩⟩,
        ⟨"Unclosed '\x7b'", 1, 10, none, none, none⟩] ∧
    ∃ closing : List Kind,
      String.join (closing.map fun kind => (closerSpelling? kind).getD "") = "\x7d)" ∧
        ∀ closers : List Token, closers.map (·.kind) = closing →
          WellNested (halfClosed.tokens.dropLast ++ closers) := by
  have hreports :
      noUnclosedBracket.check halfClosed ⟨.enter, .program ⟨⟨.origin, .origin⟩, []⟩, [], 0⟩ =
        [⟨"Unclosed '('", 1, 4, none, none, some ⟨13, 13, "\x7d)"⟩⟩,
          ⟨"Unclosed '\x7b'", 1, 10, none, none, none⟩] := by decide +kernel
  have htokens : halfClosed.tokens =
      halfClosed.tokens.dropLast ++ [Token.mark .endOfInput (Position.origin.advance 13)] := by
    decide +kernel
  have hopeners : halfClosed.tokens.dropLast.foldl afterToken [] =
      [⟨.leftBrace, "\x7b", ⟨1, 10, 9⟩, ⟨1, 11, 10⟩⟩, ⟨.leftParen, "(", ⟨1, 4, 3⟩, ⟨1, 5, 4⟩⟩] := by
    decide +kernel
  have hcontent : (halfClosed.tokens.dropLast.all (!·.kind.isStructural)) = true := by
    decide +kernel
  have hline : IsLine halfClosed.tokens [] halfClosed.tokens.dropLast
      (Token.mark .endOfInput (Position.origin.advance 13)) [] :=
    ⟨htokens, by simp, by simpa using hcontent, rfl⟩
  obtain ⟨hsilent, hlines⟩ := @check_noUnclosedBracket halfClosed _ _ htokens rfl
    ⟨⟨.origin, .origin⟩, []⟩ [] 0
  obtain ⟨found, hfound, -, hleaves⟩ := hlines _ _ _ _ hline
  obtain ⟨lineEnd, closing, hfixed, hclosers⟩ :=
    hleaves _ (leaves_of_rowFaults (by decide +kernel))
  refine ⟨fun hnested => ?_, hreports, closing, ?_, hclosers⟩
  · rw [hsilent.mpr hnested] at hreports
    cases hreports
  · rw [hopeners] at hfixed
    rw [hreports, hfixed] at hfound
    have hfix := congrArg (fun reports : List Report => reports.head?.bind Report.fix) hfound
    exact (congrArg Fix.text (Option.some.inj hfix)).symm

end GuidedTrack.Rule
