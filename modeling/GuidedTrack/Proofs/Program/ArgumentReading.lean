import GuidedTrack.Proofs.Program.SingleLines
import GuidedTrack.Proofs.Program.SpelledArguments

/-! # Arguments of sub-keywords

The argument of a sub-keyword is scanned as prose first. Where it is an expression its tokens are
spelled anew and scanned as an expression, so the argument is read as it stands only if that
spelling keeps it: it turns blanks between tokens into spaces, and it lower-cases operators that are
words.
-/

namespace GuidedTrack

open List Vocabulary Token Text Position

variable {c : Char} {cs : List Char} {rest : List Token} {name keyword : String}
  {head feed indent sub dedent stop : Token}

namespace Token

open Source Text

/-! ## Prose spelled anew -/

def opensSpan (c : Char) : Bool :=
  c == '{' || c == '*' || c == '/'

theorem takeWhile_length_le_plainLength (emphasis : Bool) (cs : List Char) :
    (cs.takeWhile fun c => !opensSpan c).length ≤ plainLength emphasis cs := by
  induction cs with
  | nil => exact Nat.le_refl 0
  | cons c cs ih =>
    rw [takeWhile_cons, plainLength]
    split
    · rename_i hplain
      have hc : c ≠ '{' ∧ opensEmphasis c cs = false := by
        simp only [opensSpan, Bool.not_eq_true', Bool.or_eq_false_iff,
          beq_eq_false_iff_ne] at hplain
        simp [opensEmphasis, hplain]
      simpa [hc] using ih
    · exact Nat.zero_le _

theorem Row.uncons {p : Position} {token : Token} {tokens : List Token}
    (h : Row p (c :: cs) (token :: tokens)) (hc : isBlank c = false)
    (hkind : token.kind.isStructural = false) :
    ∃ piece rest, c :: cs = piece ++ rest ∧ token.span = ⟨p, p.advance piece.length⟩ ∧
      token.Spells piece ∧ Row (p.advance piece.length) rest tokens := by
  generalize htext : c :: cs = text at h
  generalize htokens : token :: tokens = all at h
  cases h with
  | nil => cases htext
  | blank hblank rest =>
    cases htext
    rw [hc] at hblank
    cases hblank
  | token span spells filled kind rest =>
    cases htokens
    exact ⟨_, _, rfl, span, spells, rest⟩
  | mark empty rest =>
    cases htokens
    rcases empty with rfl | rfl <;> cases hkind

theorem scanText_cons (emphasis : Bool) (p : Position) (hc : isBlank c = false) (cs : List Char) :
    ∃ token tokens, scanText emphasis p (c :: cs) = token :: tokens ∧ token.kind.isProse = true ∧
      (opensSpan c = true ∨
        token = spelled .text p ((c :: cs).take (plainLength emphasis (c :: cs)))) := by
  have hprose (more : List Char) (q : Position) :
      prose q (c :: more) = [spelled .text q (c :: more)] := by
    simp [prose, allBlank, hc]
  rw [scanText]
  cases hplain : plainLength emphasis (c :: cs) with
  | succ n =>
    rw [take_succ_cons, hprose, singleton_append]
    exact ⟨_, _, rfl, rfl, .inr rfl⟩
  | zero =>
    have hopens : opensSpan c = true := by
      rw [plainLength] at hplain
      split at hplain
      · rename_i hmark
        simp only [opensEmphasis, Bool.or_eq_true, Bool.and_eq_true] at hmark
        rcases hmark with hbrace | ⟨-, hmarker, -⟩
        · simp [opensSpan, hbrace]
        · simp only [opensSpan, Bool.or_eq_true]
          rcases hmarker with hstar | hslash
          · exact .inl (.inr hstar)
          · exact .inr hslash
      · cases hplain
    have hnone : prose p [] = [] := rfl
    rw [take_zero, hnone, nil_append]
    split
    · rename_i hnil
      cases hnil
    · rename_i d rest hcons
      cases hcons
      dsimp only
      split
      · exact ⟨_, _, rfl, rfl, .inl hopens⟩
      · rw [hprose, singleton_append]
        exact ⟨_, _, rfl, rfl, .inl hopens⟩

/-- Prose is spelled anew as it stands if its blanks and operators are kept from the first character
on with which a span may open. -/
theorem spelling_scanText (emphasis : Bool) (p : Position) (hc : isBlank c = false)
    (hlast : ∀ d, (c :: cs).getLast? = some d → isBlank d = false)
    (hkept : Kept ((c :: cs).dropWhile fun c => !opensSpan c)) :
    (Program.spelling p.offset (scanText emphasis p (c :: cs))).toList = c :: cs := by
  have hends (front : List Char) {text : List Char} {n : Nat}
      (h : c :: cs = front ++ (text ++ replicate n ' ')) :
      n = 0 := by
    cases n with
    | zero => rfl
    | succ n =>
      have hblank := hlast ' ' (by
        rw [h, replicate_succ', ← append_assoc, ← append_assoc,
          getLast?_concat])
      cases hblank
  have hkinds : ∀ token ∈ scanText emphasis p (c :: cs), token.kind.isInner = true :=
    fun token => isInner_scanText
  have hrow := row_scanText emphasis p (c :: cs)
  obtain ⟨token, tokens, htokens, -, hfirst⟩ := scanText_cons emphasis p hc cs
  rcases hfirst with hopens | hfirst
  · have hall : (c :: cs).dropWhile (fun c => !opensSpan c) = c :: cs := by
      rw [dropWhile_cons, hopens]
      rfl
    rw [hall] at hkept
    obtain ⟨n, hn⟩ := hrow.spelling_eq hkept hkinds
    obtain rfl := hends [] hn
    rw [replicate_zero, append_nil] at hn
    exact hn.symm
  · rw [htokens] at hrow hkinds ⊢
    obtain ⟨htoken, htokens⟩ := forall_mem_cons.mp hkinds
    obtain ⟨piece, rest, htext, hspan, hspells, hrest⟩ := hrow.uncons hc (by rw [hfirst]; rfl)
    have hpiece : piece = (c :: cs).take (plainLength emphasis (c :: cs)) := by
      simpa [hfirst, Spells, spelled, covering] using hspells
    have hlater : rest <:+ (c :: cs).dropWhile fun c => !opensSpan c := by
      refine suffix_of_suffix_length_le ⟨piece, htext.symm⟩ (dropWhile_suffix _) ?_
      have hplain := takeWhile_length_le_plainLength emphasis (c :: cs)
      have hcut := congrArg List.length
        (takeWhile_append_dropWhile (p := fun c => !opensSpan c) (l := c :: cs))
      have hlength := congrArg List.length htext
      rw [length_append] at hcut hlength
      rw [hpiece, length_take_of_le (plainLength_le emphasis _)] at hlength
      omega
    obtain ⟨n, hn⟩ := hrest.spelling_eq (hkept.within hlater.isInfix) htokens
    obtain rfl := hends piece (by rw [htext, ← hn])
    rw [replicate_zero, append_nil] at hn
    have hrespelled : token.respelled = piece := by
      rw [hpiece, hfirst, respelled, if_neg (by simp [spelled, covering])]
      simp [spelled, covering]
    rw [spelling_cons, hspan, Int.sub_self, hrespelled, htext]
    exact congrArg (piece ++ ·) hn.symm

theorem expressionTokens_scanText (emphasis : Bool) (p : Position) (hc : isBlank c = false)
    (cs : List Char) :
    ∃ first rest, scanText emphasis p (c :: cs) = first :: rest ∧
      Program.expressionTokens first rest =
        (ofExpression (Program.spelling p.offset (scanText emphasis p (c :: cs))) p).dropLast := by
  obtain ⟨first, rest, htokens, hprose, -⟩ := scanText_cons emphasis p hc cs
  have hrow := row_scanText emphasis p (c :: cs)
  rw [htokens] at hrow
  have hkind : first.kind.isStructural = false := by
    cases hkind : first.kind <;> simp_all [Kind.isProse, Kind.isStructural]
  obtain ⟨piece, _, -, hspan, -⟩ := hrow.uncons hc hkind
  refine ⟨first, rest, htokens, ?_⟩
  rw [Program.expressionTokens, htokens]
  simp only [any_cons, hprose, Bool.true_or, if_true]
  rw [hspan]

/-! ## A keyword and its sub-keyword -/

theorem scanContent_name (depth : Nat) (p : Position) {name : List Char} (hfilled : name ≠ [])
    (hchars : ∀ c ∈ name, isNameChar c = true) :
    scanContent depth p ('*' :: name) =
      [covering (directiveKind (lower (String.ofList name)) depth)
        (lower (String.ofList name)) p (name.length + 1)] := by
  have hmarks : name.find? (fun c => c == ':' || c == '*') = none := by
    refine find?_eq_none.mpr fun c hc hmark => ?_
    have hname := hchars c hc
    rw [Bool.or_eq_true, beq_iff_eq, beq_iff_eq] at hmark
    rcases hmark with rfl | rfl <;> exact absurd hname (by decide)
  have hstarts : startsDirective name = true := by
    obtain ⟨c, more, rfl⟩ := exists_cons_of_ne_nil hfilled
    rw [startsDirective, hmarks]
    simpa using hchars c mem_cons_self
  have htake : name.takeWhile isNameChar = name := takeWhile_eq_self_iff.mpr hchars
  have hdrop : name.dropWhile isNameChar = [] := dropWhile_eq_nil_iff.mpr hchars
  rw [scanContent, if_pos (by rw [hstarts]; rfl), scanDirective, htake, hdrop]
  · dsimp only
    rw [dropWhile_nil, scanText_nil]
  · exact fun _ h => absurd h (by decide)
  · exact fun _ h => absurd h (by decide)

/-- The tokens of a keyword on one line and a sub-keyword beneath it. -/
theorem ofSource_beneath {keyword name cs : List Char} (hkeyword : DirectiveName keyword)
    (hname : DirectiveName name) (hsub : subKeywords.contains (String.ofList name) = true)
    (hcs : Inline cs) (hgap : ∀ c, cs.head? = some c → isGap c = false) :
    ∃ feed indent dedent stop : Token, feed.kind = .newline ∧ indent.kind = .indent ∧
      dedent.kind = .dedent ∧ stop.kind = .endOfInput ∧
      ofSource (String.ofList ('*' :: keyword ++ '\n' :: '\t' :: '*' ::
          (name ++ ':' :: ' ' :: cs))) =
        covering .keyword (String.ofList keyword) .origin (keyword.length + 1) :: feed :: indent ::
          covering .subKeyword (String.ofList name) ⟨2, 2, keyword.length + 3⟩ (name.length + 1) ::
          covering .colon ":" ⟨2, name.length + 3, keyword.length + name.length + 4⟩ 1 ::
          scanText (!plainArguments.contains (String.ofList name))
            ⟨2, name.length + 5, keyword.length + name.length + 6⟩ cs ++ [dedent, stop] := by
  have hinline {word : List Char} (h : DirectiveName word) : Inline word :=
    fun c hc => isInline_of_pos (by decide) (by decide) (h.chars c hc)
  have hfirst : Inline ('*' :: keyword) :=
    forall_mem_cons.mpr ⟨rfl, hinline hkeyword⟩
  have hsecond : Inline ('\t' :: '*' :: (name ++ ':' :: ' ' :: cs)) := by
    simp only [forall_mem_cons, forall_mem_append]
    exact ⟨rfl, rfl, hinline hname, rfl, rfl, hcs⟩
  have hlines := lines_single (cons_ne_nil _ _) hsecond (.inl rfl)
  rw [append_nil] at hlines
  have hargument : (' ' :: cs).takeWhile isGap = [' '] ∧ (' ' :: cs).dropWhile isGap = cs := by
    rw [takeWhile_cons_of_pos rfl, dropWhile_cons_of_pos rfl]
    cases cs with
    | nil => exact ⟨rfl, rfl⟩
    | cons c cs => simp [hgap c rfl]
  let start : Position := ⟨2, 1, keyword.length + 2⟩
  let stop := Line.after ⟨'\t' :: '*' :: (name ++ ':' :: ' ' :: cs), []⟩ start
  have hafter : Line.after ⟨'*' :: keyword, ['\n']⟩ .origin = start := by
    simp [Line.after, Line.length, origin, start]
    omega
  have hhead : scanContent 0 .origin ('*' :: keyword) =
      [covering .keyword (String.ofList keyword) .origin (keyword.length + 1)] := by
    rw [scanContent_name 0 _ hkeyword.filled hkeyword.chars, hkeyword.lower]
    rfl
  have hbody : scanContent 1 (start.advance 1) ('*' :: (name ++ ':' :: ' ' :: cs)) =
      covering .subKeyword (String.ofList name) ⟨2, 2, keyword.length + 3⟩ (name.length + 1) ::
        covering .colon ":" ⟨2, name.length + 3, keyword.length + name.length + 4⟩ 1 ::
        scanText (!plainArguments.contains (String.ofList name))
          ⟨2, name.length + 5, keyword.length + name.length + 6⟩ cs := by
    have hkind : directiveKind (String.ofList name) (1 : Nat) = .subKeyword := by
      rw [directiveKind, hsub]
      rfl
    have hstart : start.advance 1 = ⟨2, 2, keyword.length + 3⟩ := by
      simp [start, advance]
      omega
    rw [scanContent_directive 1 _ hname.filled hname.chars, hname.lower]
    dsimp only
    rw [hkind, hstart]
    simp only [scanArgument, hargument, length_singleton, advance_advance]
    have hcolon : advance ⟨2, 2, keyword.length + 3⟩ (name.length + 1) =
        ⟨2, name.length + 3, keyword.length + name.length + 4⟩ := by
      simp [advance]
      omega
    have hvalue : advance ⟨2, 2, keyword.length + 3⟩ (name.length + 1 + 1 + 1) =
        ⟨2, name.length + 5, keyword.length + name.length + 6⟩ := by
      simp [advance]
      omega
    rw [hcolon, hvalue]
    rfl
  refine ⟨spelled .newline (origin.advance (keyword.length + 1)) ['\n'],
    spelled .indent start ['\t'], mark .dedent stop, mark .endOfInput stop, rfl, rfl, rfl, rfl, ?_⟩
  rw [ofSource, String.toList_ofList, lines_feed hfirst, hlines]
  have hstar : isGap '*' = false := rfl
  have htab : isGap '\t' = true := rfl
  simp [scanLines, hstar, htab, hafter, indentation, currentDepth, hhead, hbody, lineBreak, stop]

end Token

namespace Outline

theorem ofTokens_beneath (hhead : head.kind.isStructural = false) (hfeed : feed.kind = .newline)
    (hindent : indent.kind = .indent)
    (hline : ∀ token ∈ sub :: rest, token.kind.isStructural = false)
    (hdedent : dedent.kind = .dedent) (hstop : stop.kind = .endOfInput) :
    ofTokens (head :: feed :: indent :: (sub :: rest) ++ [dedent, stop]) =
      ⟨[.line head [], .block indent [.line sub rest]], []⟩ := by
  have hcontent {token : Token} (h : token.kind.isStructural = false) : token.kind ≠ .endOfInput :=
    fun hkind => by rw [hkind] at h; cases h
  have hfront : ∀ token ∈ head :: feed :: indent :: (sub :: rest) ++ [dedent],
      token.kind ≠ .endOfInput := by
    simp only [forall_mem_append, forall_mem_cons]
    refine ⟨⟨hcontent hhead, by simp [hfeed], by simp [hindent], ?_⟩, by simp [hdedent], by simp⟩
    exact ⟨hcontent (hline sub mem_cons_self),
      fun token htoken => hcontent (hline token (mem_cons_of_mem _ htoken))⟩
  have hstopped : ofTokens [stop] = ⟨[], []⟩ := by
    simp [ofTokens, hstop]
  have hdedented : [dedent].foldr cons ⟨[], []⟩ = ⟨[], [(dedent, [])]⟩ := by
    simp [cons, hdedent]
  have hindented : cons indent ⟨[.line sub rest], [(dedent, [])]⟩ =
      ⟨[.block indent [.line sub rest]], []⟩ := by
    simp [cons, hindent]
  have hfed (items : List Item) : cons feed ⟨items, []⟩ = ⟨.newline :: items, []⟩ := by
    simp [cons, hfeed]
  rw [show [dedent, stop] = [dedent] ++ [stop] from rfl, ← append_assoc, ofTokens_append hfront,
    hstopped, foldr_append, hdedented, foldr_cons, foldr_cons, foldr_cons,
    foldr_cons_line (.inl ⟨rfl, rfl⟩) hline, hindented, hfed]
  have hsingle : ∀ token ∈ [head], token.kind.isStructural = false := by
    simpa using hhead
  exact foldr_cons_line (.inr rfl) hsingle

end Outline

namespace Program

theorem ofTokens_beneath (hhead : head.kind = .keyword) (hkeyword : lower head.text = keyword)
    (hfeed : feed.kind = .newline) (hindent : indent.kind = .indent) (hsub : sub.kind = .subKeyword)
    (hname : lower sub.text = name) (hrest : ∀ token ∈ rest, token.kind.isStructural = false)
    (hdedent : dedent.kind = .dedent) (hstop : stop.kind = .endOfInput) :
    ofTokens (head :: feed :: indent :: (sub :: rest) ++ [dedent, stop]) =
      (readArgument (some keyword) name sub rest []).map fun (argument, faults) =>
        (⟨⟨.origin, stop.span.stop⟩,
          [.keyword ⟨head.span.start, (rest.getLastD sub).span.stop⟩ keyword none
            [.mk ⟨sub.span.start, (rest.getLastD sub).span.stop⟩ name argument []] []]⟩,
                faults) := by
  have hline : ∀ token ∈ sub :: rest, token.kind.isStructural = false :=
    forall_mem_cons.mpr ⟨by rw [hsub]; rfl, hrest⟩
  have hlast : (head :: feed :: indent :: (sub :: rest) ++ [dedent, stop]).getLast? =
      some stop := by
    rw [show [dedent, stop] = [dedent] ++ [stop] from rfl, ← append_assoc, getLast?_concat]
  have hbare : readArgument none keyword head [] = pure none := rfl
  have hheadRole : Role.of none head = .keyword := by
    simp [Role.of, hhead]
  have hsubRole (parent : String) : Role.of (some parent) sub = .subKeyword parent := by
    simp [Role.of, hsub]
  have hpure {α : Type} (a : α) (faults : List Fault) :
      (pure a : Recorder α) faults = .ok (a, faults) := rfl
  unfold ofTokens
  rw [Outline.ofTokens_beneath (by rw [hhead]; rfl) hfeed hindent hline hdedent hstop, hlast]
  simp only [readOutline, readItems, readSections, StateT.run, bind, StateT.bind, hheadRole,
    hsubRole, readHeading, hkeyword, hname, hbare, Role.ownsBlock, if_true, Role.owner,
    Outline.lastToken, Outline.Item.lastToken, hpure, Except.bind]
  cases readArgument (some keyword) name sub rest [] with
  | error error => rfl
  | ok result => rfl

/-! ## Arguments read in place -/

/-- The text that the argument of a sub-keyword is read from, which is spelled anew from its prose.
-/
def argumentText (name : String) (p : Position) (argument : String) : String :=
  spelling p.offset
    (scanText (!plainArguments.contains name) p argument.toList)

def subKeywordStart (keyword : String) : Position :=
  ⟨2, 2, keyword.length + 3⟩

def argumentStart (keyword name : String) : Position :=
  ⟨2, name.length + 5, keyword.length + name.length + 6⟩

def readBeneath (keyword name text : String) (last stop : Position) :
    Except Numeral.Error (Program × List Fault) :=
  let tokens := (ofExpression text (argumentStart keyword name)).dropLast
  (Expr.ofTokens false (subKeywordStart keyword) tokens).map fun (value?, faults) =>
    (⟨⟨.origin, stop⟩,
      [.keyword ⟨.origin, last⟩ keyword none
        [.mk ⟨subKeywordStart keyword, last⟩ name (value?.map .expr) []] []]⟩, faults)

structure ExpressionBeneath (keyword name : String) : Prop where
  above : DirectiveName keyword.toList
  beneath : DirectiveName name.toList
  listed : subKeywords.contains name = true
  takes : takesExpression (some keyword) name = true

theorem expressionBeneath
    (h : ∃ entry ∈ Contract.table, entry.1 = keyword ∧ ∃ sub ∈ entry.2.subKeywords,
      sub.1 = name ∧ sub.2.value.isExpression = true) : ExpressionBeneath keyword name := by
  have htable : ∀ entry ∈ Contract.table, ∀ sub ∈ entry.2.subKeywords,
      sub.2.value.isExpression = true →
        (∀ word ∈ [entry.1, sub.1], word.toList ≠ [] ∧ word.toList.all isNameChar = true ∧
          lower (String.ofList word.toList) = String.ofList word.toList) ∧
        subKeywords.contains sub.1 = true ∧
        takesExpression (some entry.1) sub.1 = true := by
    decide +kernel
  obtain ⟨entry, hentry, rfl, sub, hsub, rfl, hvalue⟩ := h
  obtain ⟨hwords, listed, takes⟩ := htable entry hentry sub hsub hvalue
  have hword {word : String} (h : word ∈ [entry.1, sub.1]) : DirectiveName word.toList := by
    obtain ⟨filled, chars, lower⟩ := hwords word h
    exact ⟨filled, all_eq_true.mp chars, lower⟩
  exact ⟨hword (by simp), hword (by simp), listed, takes⟩

theorem ofSource_beneath {keyword name argument : String} (h : ExpressionBeneath keyword name)
    (hinline : Source.Inline argument.toList)
    (hfirst : argument.toList.head?.any (!isBlank ·) = true) :
    ∃ last stop, ofSource ("*" ++ keyword ++ "\n\t*" ++ name ++ ": " ++ argument) =
      readBeneath keyword name (argumentText name (argumentStart keyword name) argument)
          last stop := by
  obtain ⟨c, hhead, hc⟩ := (Option.any_eq_true _ _).mp hfirst
  obtain ⟨cs, hargument⟩ := head?_eq_some_iff.mp hhead
  have hblank : isBlank c = false := by simpa using hc
  have hgap : ∀ d, argument.toList.head? = some d → isGap d = false := by
    intro d hd
    obtain rfl := Option.some.inj (hhead.symm.trans hd)
    exact Bool.eq_false_iff.mpr fun hgap => by rw [isBlank_of_isGap hgap] at hblank; cases hblank
  obtain ⟨feed, indent, dedent, stop, hfeed, hindent, hdedent, hstop, htokens⟩ :=
    Token.ofSource_beneath h.above h.beneath
        (by rw [String.ofList_toList]; exact h.listed) hinline hgap
  have hsource : "*" ++ keyword ++ "\n\t*" ++ name ++ ": " ++ argument =
      String.ofList ('*' :: keyword.toList ++
        '\n' :: '\t' :: '*' :: (name.toList ++ ':' :: ' ' :: argument.toList)) := by
    apply String.toList_inj.mp
    simp
  obtain ⟨first, rest, hscan, hexpression⟩ := expressionTokens_scanText
    (!plainArguments.contains name) (argumentStart keyword name) hblank cs
  rw [← hargument] at hscan hexpression
  have hstructural : ∀ token ∈ first :: rest, token.kind.isStructural = false := by
    intro token htoken
    rw [← hscan] at htoken
    have hinner := isInner_scanText htoken
    rw [Token.Kind.isInner, Bool.and_eq_true, Bool.not_eq_true'] at hinner
    exact hinner.1
  simp only [String.ofList_toList, String.length_toList] at htokens
  let colon := covering .colon ":" ⟨2, name.length + 3, keyword.length + name.length + 4⟩ 1
  have hline : ∀ token ∈ colon :: first :: rest, token.kind.isStructural = false :=
    forall_mem_cons.mpr ⟨rfl, hstructural⟩
  have hlower {word : String} (hword : DirectiveName word.toList) : lower word = word := by
    simpa using hword.lower
  let head := covering .keyword keyword .origin (keyword.length + 1)
  let sub := covering .subKeyword name (subKeywordStart keyword) (name.length + 1)
  have hkeyword : lower head.text = keyword := hlower h.above
  have hname : lower sub.text = name := hlower h.beneath
  have hread := ofTokens_beneath rfl hkeyword hfeed hindent rfl hname hline hdedent hstop
  rw [readArgument_expression h.takes sub rfl, hexpression] at hread
  have hplace : argumentStart keyword name =
      ⟨2, name.length + 5, keyword.length + name.length + 6⟩ := rfl
  refine ⟨((colon :: first :: rest).getLastD sub).span.stop, stop.span.stop, ?_⟩
  rw [hsource, ofSource, htokens, ← hplace, hscan]
  exact hread.trans (Functor.map_map (f := Except Numeral.Error) _ _ _)

theorem argumentText_of_kept {argument : String} (name : String) (p : Position)
    (hfirst : argument.toList.head?.any (!isBlank ·) = true)
    (hlast : argument.toList.getLast?.any (!isBlank ·) = true)
    (hkept : Kept (argument.toList.dropWhile (!opensSpan ·))) :
    argumentText name p argument = argument := by
  obtain ⟨c, hhead, hc⟩ := (Option.any_eq_true _ _).mp hfirst
  obtain ⟨cs, hargument⟩ := head?_eq_some_iff.mp hhead
  have hend : ∀ d, (c :: cs).getLast? = some d → isBlank d = false := by
    intro d hd
    rw [hargument, hd] at hlast
    simpa using hlast
  rw [hargument] at hkept
  apply String.toList_inj.mp
  rw [argumentText, hargument]
  exact spelling_scanText _ p (by simpa using hc) hend hkept

/-- The argument of a sub-keyword that takes an expression is the expression that is written in it,
with the faults of that expression and all places, once it is spelled anew. The spelling keeps it
if, from the first brace, star or slash on, its blanks are spaces and its operators are in lower
case. -/
theorem ofSource_argument {keyword name argument : String}
    (hname : ∃ entry ∈ Contract.table, entry.1 = keyword ∧ ∃ sub ∈ entry.2.subKeywords,
      sub.1 = name ∧ sub.2.value.isExpression = true)
    (hinline : ∀ c ∈ argument.toList, Source.isInline c = true)
    (hfirst : argument.toList.head?.any (!Text.isBlank ·) = true)
    (hlast : argument.toList.getLast?.any (!Text.isBlank ·) = true) :
    ∃ last stop,
      ofSource ("*" ++ keyword ++ "\n\t*" ++ name ++ ": " ++ argument) =
        readBeneath keyword name (argumentText name (argumentStart keyword name) argument)
            last stop ∧
      (Token.Kept (argument.toList.dropWhile (!Token.opensSpan ·)) →
        ofSource ("*" ++ keyword ++ "\n\t*" ++ name ++ ": " ++ argument) =
          readBeneath keyword name argument last stop) := by
  obtain ⟨last, stop, hread⟩ := ofSource_beneath (expressionBeneath hname) hinline hfirst
  refine ⟨last, stop, hread, fun hkept => ?_⟩
  rw [hread, argumentText_of_kept name _ hfirst hlast hkept]

theorem ofSource_argument_embedded :
    ∃ last stop, ofSource "*question\n\t*default: \"\x7bname\x7d, not\" * 2" =
      readBeneath "question" "default" "\"\x7bname\x7d, not\" * 2" last stop := by
  obtain ⟨last, stop, -, hread⟩ := @ofSource_argument "question" "default"
    "\"\x7bname\x7d, not\" * 2" (by decide +kernel) (all_eq_true.mp (by decide)) (by decide)
    (by decide)
  have hkept : Token.Kept ("\"\x7bname\x7d, not\" * 2".toList.dropWhile (!Token.opensSpan ·)) :=
    Token.kept_of_not_isUpper (all_iff_forall_prop.mp (by decide))
      (all_iff_forall_prop.mp (by decide))
  exact ⟨last, stop, hread hkept⟩

def plainText : Option Expr → String
  | some (.interpolated _ [.text text]) => text
  | _ => ""

/-- Where a string holds a brace that nothing closes, the word of an operator in it is lower-cased.
-/
theorem ofSource_argument_lowered :
    ¬∃ last stop, ofSource "*question\n\t*default: \"\x7bAND\"" =
      readBeneath "question" "default" "\"\x7bAND\"" last stop := by
  rintro ⟨last, stop, hdirect⟩
  obtain ⟨last', stop', hread⟩ := @ofSource_beneath "question" "default" "\"\x7bAND\""
    (expressionBeneath (by decide +kernel)) (all_eq_true.mp (by decide)) (by decide)
  have htext : argumentText "default" (argumentStart "question" "default") "\"\x7bAND\"" =
      "\"\x7band\"" := by
    decide +kernel
  rw [htext] at hread
  let read (text : String) := Expr.ofTokens false (subKeywordStart "question")
    (Token.ofExpression text (argumentStart "question" "default")).dropLast
  have hsame : read "\"\x7band\"" = read "\"\x7bAND\"" := by
    have heq : (read _).map _ = (read _).map _ := hread.symm.trans hdirect
    cases hspelled : read "\"\x7band\"" <;> cases hwritten : read "\"\x7bAND\"" <;>
      simp_all [Except.map, Prod.ext_iff, Option.map_inj_right fun _ _ => Argument.expr.inj]
  have hword := congrArg (·.toOption.map fun result => plainText result.1) hsame
  exact absurd hword (by decide +kernel)

end Program
end GuidedTrack
