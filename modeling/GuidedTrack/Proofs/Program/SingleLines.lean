import GuidedTrack.Program
import GuidedTrack.Proofs.OutlineLines
import GuidedTrack.Proofs.Token.PlaceAdvance
import GuidedTrack.Proofs.Token.ScannerRows

/-! # Programs of one line

A source of one line is read as that line alone, whether or not a line break ends it.
-/

namespace GuidedTrack

variable {c : Char} {ending cs : List Char} {rest : List Token} {first stop colon : Token}

namespace Token

open Source

theorem ofSource_line {rest : List Char} (hc : Text.isGap c = false)
    (hinline : ∀ d ∈ c :: rest, isInline d = true) (hending : ending = [] ∨ ending = ['\n']) :
    ∃ feeds stop, (feeds = [] ∨ ∃ feed : Token, feeds = [feed] ∧ feed.kind = .newline) ∧
      stop.kind = .endOfInput ∧
      ofSource (String.ofList (c :: rest ++ ending)) =
        scanContent 0 .origin (c :: rest) ++ feeds ++ [stop] := by
  have htab : (c == '\t') = false := by
    cases hmatch : c == '\t' with
    | true =>
      obtain rfl := beq_iff_eq.mp hmatch
      cases hc
    | false => rfl
  have hlines := lines_single (List.cons_ne_nil c rest) hinline hending
  refine ⟨lineBreak ⟨c :: rest, ending⟩ .origin,
    mark .endOfInput (Line.after ⟨c :: rest, ending⟩ .origin), ?_, rfl, ?_⟩
  · rcases hending with rfl | rfl
    · exact .inl rfl
    · exact .inr ⟨_, rfl, rfl⟩
  · rw [ofSource, String.toList_ofList, hlines]
    simp [scanLines, hc, htab, indentation, currentDepth]

structure DirectiveName (name : List Char) : Prop where
  filled : name ≠ []
  chars : ∀ c ∈ name, isNameChar c = true
  lower : Text.lower (String.ofList name) = String.ofList name

end Token

namespace Outline

theorem ofTokens_line {ending : List Token}
    (h : ∀ token ∈ first :: rest, token.kind.isStructural = false)
    (hending : ending = [] ∨ ∃ feed, ending = [feed] ∧ feed.kind = .newline)
    (hstop : stop.kind = .endOfInput) :
    ofTokens (first :: rest ++ ending ++ [stop]) = ⟨[.line first rest], []⟩ := by
  have hkept : ∀ token ∈ first :: rest ++ ending, decide (token.kind ≠ .endOfInput) = true := by
    intro token htoken
    rcases List.mem_append.mp htoken with hmem | hmem
    · have hkind := h token hmem
      cases htoken : token.kind <;> simp_all [Token.Kind.isStructural]
    · rcases hending with rfl | ⟨feed, rfl, hfeed⟩
      · cases hmem
      · rw [List.mem_singleton.mp hmem, hfeed]
        decide
  rw [ofTokens, List.takeWhile_append_of_pos hkept, List.takeWhile_cons_of_neg (by simp [hstop]),
    List.append_nil, List.foldr_append]
  rcases hending with rfl | ⟨feed, rfl, hfeed⟩
  · exact foldr_cons_line (.inl ⟨rfl, rfl⟩) h
  · have hnewline : [feed].foldr cons ⟨[], []⟩ = ⟨[.newline], []⟩ := by
      simp [cons, hfeed]
    rw [hnewline]
    exact foldr_cons_line (.inr rfl) h

end Outline

namespace Program

theorem ofTokens_line {ending : List Token}
    (h : ∀ token ∈ first :: rest, token.kind.isStructural = false)
    (hending : ending = [] ∨ ∃ feed, ending = [feed] ∧ feed.kind = .newline)
    (hstop : stop.kind = .endOfInput) :
    ofTokens (first :: rest ++ ending ++ [stop]) =
      (readHeading (Role.of none first) first rest []).map fun (heading, faults) =>
        (⟨⟨.origin, stop.span.stop⟩,
          (heading.close first.span.start (rest.getLastD first).span.stop {}).body⟩, faults) := by
  unfold ofTokens
  rw [Outline.ofTokens_line h hending hstop]
  simp only [readOutline, readItems, readSections, StateT.run, bind, StateT.bind,
    List.getLast?_concat, Option.map_some, Option.getD_some]
  cases readHeading (Role.of none first) first rest [] with
  | error error => rfl
  | ok result =>
    have hblock (block : Block) : (block ++ ({} : Block)).body ++ [] = block.body := by
      rw [List.append_nil]
      exact List.append_nil block.body
    let program (body : List Statement) : Program := ⟨⟨.origin, stop.span.stop⟩, body⟩
    exact congrArg (fun body => Except.ok (program body, result.2)) (hblock _)

theorem ofSource_line {role : Role} (hc : Text.isGap c = false)
    (hinline : ∀ d ∈ c :: cs, Source.isInline d = true) (hending : ending = [] ∨ ending = ['\n'])
    (hscan : Token.scanContent 0 .origin (c :: cs) = first :: rest)
    (hkinds : ∀ token ∈ first :: rest, token.kind.isStructural = false)
    (hrole : Role.of none first = role) :
    ∃ stop, ofSource (String.ofList (c :: cs ++ ending)) =
      (readHeading role first rest []).map fun (heading, faults) =>
        (⟨⟨.origin, stop⟩,
          (heading.close first.span.start (rest.getLastD first).span.stop {}).body⟩, faults) := by
  obtain ⟨feeds, stop, hfeeds, hstop, htokens⟩ := Token.ofSource_line hc hinline hending
  refine ⟨stop.span.stop, ?_⟩
  rw [ofSource, htokens, hscan, ofTokens_line hkinds hfeeds hstop, hrole]

/-! ## Lines of code -/

theorem readExpr_eq (assignment : Bool) (anchor : Token) (tokens : List Token) :
    readExpr assignment anchor tokens [] =
      Expr.ofTokens assignment anchor.span.start tokens := by
  unfold readExpr
  change StateT.run _ [] = _
  rw [StateT.run_bind]
  cases Expr.ofTokens assignment anchor.span.start tokens <;> rfl

theorem readHeading_expression (first : Token) (rest : List Token) :
    readHeading .expression first rest [] =
      (Expr.ofTokens true first.span.start rest).map fun (value?, faults) =>
        (.complete { body := value?.toList.map fun value =>
          .expression ⟨first.span.start, value.span.stop⟩ value }, faults) := by
  simp only [readHeading, bind, StateT.bind, readExpr_eq]
  cases Expr.ofTokens true first.span.start rest <;> rfl

def readCode (anchor : Position) : List Token → Except Numeral.Error (Option Expr × List Fault)
  | [] => .ok (none, [])
  | first :: rest => Expr.ofTokens false anchor (first :: rest)

theorem readArgument_expression {parent : Option String} {name : String}
    (htakes : takesExpression parent name = true) (head : Token) (hcolon : colon.kind = .colon)
    (first : Token) (rest : List Token) :
    readArgument parent name head (colon :: first :: rest) [] =
      (Expr.ofTokens false head.span.start (expressionTokens first rest)).map
        fun (value?, faults) => (value?.map .expr, faults) := by
  simp only [readArgument, hcolon, if_true, htakes, bind, StateT.bind, readExpr_eq]
  cases Expr.ofTokens false head.span.start (expressionTokens first rest) <;> rfl

theorem readHeading_keyword {tokens : List Token} (hcolon : colon.kind = .colon)
    (hprose : ∀ token ∈ tokens, token.kind.isProse = false)
    (htakes : Contract.takesExpression (Text.lower first.text) = true) :
    readHeading .keyword first (colon :: tokens) [] =
      (readCode first.span.start tokens).map fun (value?, faults) =>
        (.keyword (Text.lower first.text) (value?.map .expr), faults) := by
  cases tokens with
  | nil =>
    simp only [readHeading, readArgument, hcolon, if_true, bind, StateT.bind]
    rfl
  | cons token tokens =>
    have hexpression : expressionTokens token tokens = token :: tokens := by
      have hnone : (token :: tokens).any (·.kind.isProse) = false := by
        simpa using hprose
      rw [expressionTokens, hnone]
      rfl
    have hargument := readArgument_expression
      (show takesExpression none (Text.lower first.text) = true from htakes) first hcolon
          token tokens
    simp only [readHeading, bind, StateT.bind, hargument, hexpression, readCode]
    cases Expr.ofTokens false first.span.start (token :: tokens) <;> rfl

/-- A line of code is read as the expression behind its `>>`. -/
theorem ofSource_expression (hinline : ∀ d ∈ cs, Source.isInline d = true)
    (hending : ending = [] ∨ ending = ['\n']) :
    ∃ stop, ofSource (String.ofList ('>' :: '>' :: cs ++ ending)) =
      (Expr.ofTokens true .origin (Token.scanExpression none (Position.origin.advance 2) cs).1).map
        fun (value?, faults) =>
          (⟨⟨.origin, stop⟩, value?.toList.map fun value =>
            .expression ⟨.origin, value.span.stop⟩ value⟩, faults) := by
  have hinline' : ∀ d ∈ '>' :: '>' :: cs, Source.isInline d = true := by
    simpa [show Source.isInline '>' = true by decide] using hinline
  have hkinds : ∀ token ∈ Token.covering .expressionStart ">>" .origin 2 ::
      (Token.scanExpression none (Position.origin.advance 2) cs).1,
      token.kind.isStructural = false := by
    intro token htoken
    rcases List.mem_cons.mp htoken with rfl | htoken
    · rfl
    · exact (Token.isStructural_of_mem_scanExpression htoken).1
  obtain ⟨stop, hsource⟩ := ofSource_line (by decide) hinline' hending rfl hkinds
    (show Role.of none _ = .expression from rfl)
  rw [readHeading_expression] at hsource
  exact ⟨stop, hsource.trans (Functor.map_map (f := Except Numeral.Error) _ _ _)⟩

structure CodeKeyword (name : List Char) : Prop extends Token.DirectiveName name where
  takes : Contract.takesExpression (String.ofList name) = true

/-- A line that starts with such a keyword is read as the keyword with the expression behind it. -/
theorem ofSource_keyword {name : List Char} (hname : CodeKeyword name)
    (hinline : ∀ d ∈ cs, Source.isInline d = true) (hending : ending = [] ∨ ending = ['\n']) :
    ∃ p last stop, ofSource (String.ofList ('*' :: (name ++ ':' :: cs) ++ ending)) =
      (readCode .origin (Token.scanExpression none p cs).1).map fun (value?, faults) =>
        (⟨⟨.origin, stop⟩,
          [.keyword ⟨.origin, last⟩ (String.ofList name) (value?.map .expr) [] []]⟩, faults) := by
  have hinline' : ∀ d ∈ '*' :: (name ++ ':' :: cs), Source.isInline d = true := by
    intro d hd
    simp only [List.mem_cons, List.mem_append] at hd
    rcases hd with rfl | hd | rfl | hd
    · rfl
    · exact Source.isInline_of_pos (by decide) (by decide) (hname.chars d hd)
    · rfl
    · exact hinline d hd
  let keyword := Token.covering .keyword (String.ofList name) .origin (name.length + 1)
  let stop := Position.origin.advance (name.length + 1)
  let colon := Token.covering .colon ":" stop 1
  have hscan : Token.scanContent 0 .origin ('*' :: (name ++ ':' :: cs)) =
      keyword :: colon :: (Token.scanExpression none (stop.advance 1) cs).1 := by
    rw [Token.scanContent_directive 0 .origin hname.filled hname.chars, hname.lower,
      ← Token.scanExpression_dropWhile]
    simp only [Token.scanArgument, hname.takes]
    rfl
  have hkinds : ∀ token ∈ keyword :: colon :: (Token.scanExpression none (stop.advance 1) cs).1,
      token.kind.isStructural = false := by
    intro token htoken
    rcases List.mem_cons.mp htoken with rfl | htoken
    · rfl
    rcases List.mem_cons.mp htoken with rfl | htoken
    · rfl
    · exact (Token.isStructural_of_mem_scanExpression htoken).1
  have htakes : Contract.takesExpression (Text.lower keyword.text) = true := by
    rw [show keyword.text = String.ofList name from rfl, hname.lower, hname.takes]
  have hprose : ∀ token ∈ (Token.scanExpression none (stop.advance 1) cs).1,
      token.kind.isProse = false :=
    fun token htoken => (Token.isStructural_of_mem_scanExpression htoken).2
  obtain ⟨stop, hsource⟩ := ofSource_line (by decide) hinline' hending hscan hkinds
    (show Role.of none keyword = .keyword from rfl)
  rw [readHeading_keyword rfl hprose htakes, show keyword.text = String.ofList name from rfl,
    hname.lower] at hsource
  exact ⟨_, _, stop, hsource.trans (Functor.map_map (f := Except Numeral.Error) _ _ _)⟩

end Program
end GuidedTrack
