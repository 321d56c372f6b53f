import GuidedTrack.Proofs.Layout.LineSteps
import GuidedTrack.Proofs.Lint.RuleIndependence
import GuidedTrack.Proofs.Program.RecordedFaults
import GuidedTrack.Proofs.Token.BlockBalance

/-! # Documents of labels and jumps

A document whose lines are labels and jumps is read as these statements, whatever names they give,
and under the standard configuration only the two rules on labels have anything to say about it.
Layout keeps its lines and the names of labels, but spaces the names of jumps like code. So it
leaves such a document clean just if the spaced names still are those of the labels.
-/

namespace GuidedTrack

open List Text

/-! ## Statements of one line -/

namespace Program

theorem clean_readProse {text : String} (htext : text ≠ "") (span : Span) :
    Clean (readProse ⟨.text, text, span⟩ []) ⟨span, [.text text]⟩ := by
  have hgap (offset : Int) : gap offset offset = "" := by
    rw [gap, Int.sub_self]
    rfl
  have hparts : Clean (readParts none "" [⟨.text, text, span⟩]) [.text text] := by
    rw [readParts_plain _ _ _ (by rintro ⟨⟩) (by rintro ⟨⟩), readParts, Option.getD_none, hgap,
      String.append_empty, String.empty_append, textPart, if_neg (by simpa using htext)]
    exact .pure _
  exact hparts.bind (.pure _)

theorem clean_readItems_keyword {first : Token} (hkind : first.kind = .keyword) {rest : List Token}
    {argument : Option Argument}
    (hargument : Clean (readArgument none (Text.lower first.text) first rest) argument)
    {items : List Outline.Item} {block : Block}
    (hitems : ∀ indent inside others, items = .block indent inside :: others → False)
    (h : Clean (readItems none items) block) :
    Clean (readItems none (.line first rest :: items))
      (.ofStatement (.keyword ⟨first.span.start, (rest.getLastD first).span.stop⟩
        (Text.lower first.text) argument [] []) ++ block) := by
  have hrole : Role.of none first = .keyword := by
    unfold Role.of
    rw [hkind]
  have hheading : Clean (readHeading .keyword first rest)
      (.keyword (Text.lower first.text) argument) := by
    unfold readHeading
    exact hargument.bind (.pure _)
  rw [readItems]
  · rw [hrole]
    exact hheading.bind (h.bind (.pure _))
  · exact hitems

theorem clean_readItems {keyword text : String} (htext : text ≠ "")
    (hlower : Text.lower keyword = keyword) (htakes : Contract.takesExpression keyword = false)
    {head colon value : Span} {items : List Outline.Item} {block : Block}
    (hitems : ∀ indent inside others, items = .block indent inside :: others → False)
    (h : Clean (readItems none items) block) :
    Clean (readItems none
        (.line ⟨.keyword, keyword, head⟩ [⟨.colon, ":", colon⟩, ⟨.text, text, value⟩] :: items))
      (.ofStatement (.keyword ⟨head.start, value.stop⟩ keyword
        (some (.prose ⟨value, [.text text]⟩)) [] []) ++ block) := by
  have hargument : Clean (readArgument none keyword ⟨.keyword, keyword, head⟩
      [⟨.colon, ":", colon⟩, ⟨.text, text, value⟩]) (some (.prose ⟨value, [.text text]⟩)) := by
    rw [readArgument, if_pos rfl, takesExpression, if_neg (by simp [htakes])]
    exact (clean_readProse htext value).bind (.pure _)
  have hitem := @clean_readItems_keyword ⟨.keyword, keyword, head⟩ rfl
    [⟨.colon, ":", colon⟩, ⟨.text, text, value⟩] (some (.prose ⟨value, [.text text]⟩))
  dsimp only at hitem
  rw [hlower] at hitem
  exact hitem hargument hitems h

end Program

/-! ## Names -/

/-- A name that a label and a jump to it can share: it has no gaps at its ends, no blanks other than
gaps inside, and no brace that would open an interpolation. A colon might make it the address of
another site. -/
structure IsLabel (cs : List Char) : Prop where
  head : ∃ c rest, cs = c :: rest ∧ isGap c = false
  trimmed : Layout.Trimmed cs
  chars : ∀ c ∈ cs, c ≠ '{' ∧ c ≠ ':' ∧ (isBlank c = true → isGap c = true)

namespace IsLabel

variable {cs : List Char}

theorem of_check (hhead : cs.head?.any (!isGap ·) = true)
    (hlast : cs.getLast?.any (!isGap ·) = true)
    (hchars : (cs.all fun c => c != '{' && c != ':' && (!isBlank c || isGap c)) = true) :
    IsLabel cs where
  head := by
    cases cs with
    | nil => cases hhead
    | cons c rest => exact ⟨c, rest, rfl, by simpa using hhead⟩
  trimmed c hc := by simpa [Option.mem_def.mp hc] using hlast
  chars c hc := by simpa [imp_iff_not_or, and_assoc] using all_eq_true.mp hchars c hc

theorem inline (h : IsLabel cs) : ∀ c ∈ cs, Source.isInline c = true := by
  intro c hc
  have hgap := (h.chars c hc).2.2
  simp only [Source.isInline, Bool.and_eq_true, bne_iff_ne]
  constructor <;> rintro rfl <;> exact absurd (hgap (by decide)) (by decide)

theorem respaced (h : IsLabel cs) {f : List Char → List Char} (hf : Layout.Respacing f) :
    IsLabel (f cs) where
  head := by
    obtain ⟨c, rest, rfl, hc⟩ := h.head
    obtain ⟨t, ht⟩ := hf.head hc h.trimmed
    exact ⟨c, t, ht, hc⟩
  trimmed := hf.trimmed h.trimmed
  chars := by
    intro c hc
    rcases hf.mem h.trimmed hc with hgap | hmem
    · refine ⟨?_, ?_, fun _ => hgap⟩ <;> rintro rfl <;> cases hgap
    · exact h.chars c hmem

theorem isBlank_head (h : IsLabel cs) : ∀ c ∈ cs.head?, isBlank c = false := by
  obtain ⟨c, rest, rfl, hgap⟩ := h.head
  rintro _ ⟨⟩
  exact Bool.eq_false_iff.mpr fun hblank =>
    Bool.false_ne_true (hgap.symm.trans ((h.chars c mem_cons_self).2.2 hblank))

theorem trim_eq (h : IsLabel cs) : trim cs = cs := by
  have hlast : ∀ c ∈ cs.getLast?, isBlank c = false := fun c hc =>
    Bool.eq_false_iff.mpr fun hblank => Bool.false_ne_true
      ((h.trimmed c hc).symm.trans ((h.chars c (mem_of_getLast? hc)).2.2 hblank))
  have hdrop {as : List Char} (has : ∀ c ∈ as.head?, isBlank c = false) :
      as.dropWhile isBlank = as := by
    cases as with
    | nil => rfl
    | cons c as => exact dropWhile_cons_of_neg (by simp [has c rfl])
  rw [trim, hdrop h.isBlank_head, dropRightWhile, hdrop (by rwa [head?_reverse]), reverse_reverse]

theorem isExternal (h : IsLabel cs) : Rule.isExternal (String.ofList cs) = false := by
  have hcolon : ':' ∉ (String.ofList cs).toList := by
    rw [String.toList_ofList]
    exact fun hmem => (h.chars _ hmem).2.1 rfl
  rw [Rule.isExternal, Bool.or_eq_false_iff]
  constructor <;> rw [Bool.eq_false_iff, ne_eq, String.startsWith_string_iff] <;>
    exact fun hstarts => hcolon (hstarts.subset (by decide))

theorem scanText_eq (h : IsLabel cs) (p : Position) :
    Token.scanText false p cs = [Token.spelled .text p cs] := by
  have hplain : ∀ {as : List Char}, '{' ∉ as → Token.plainLength false as = as.length := by
    intro as has
    induction as with
    | nil => rfl
    | cons c as ih =>
      rw [mem_cons, not_or] at has
      rw [Token.plainLength, if_neg (by simpa using Ne.symm has.1), ih has.2, length_cons]
  have hblank : allBlank cs = false := by
    obtain ⟨c, rest, rfl, -⟩ := h.head
    simp [allBlank, h.isBlank_head c rfl]
  rw [Token.scanText_plain (hplain fun hmem => (h.chars _ hmem).1 rfl), Token.prose, hblank]
  rfl

end IsLabel

/-- A label, or a jump to one, on a line of its own. -/
structure Signpost where
  jumps : Bool
  name : List Char
  isLabel : IsLabel name

namespace Signpost

variable {post : Signpost} {posts : List Signpost}

def keyword (post : Signpost) : String :=
  bif post.jumps then "goto" else "label"

def text (post : Signpost) : String :=
  String.ofList post.name

def line (post : Signpost) : List Char :=
  '*' :: (post.keyword.toList ++ ':' :: ' ' :: post.name)

def source (posts : List Signpost) : String :=
  String.ofList (Layout.fed true (posts.map line))

def labels (posts : List Signpost) : List String :=
  (posts.filter (!·.jumps)).map text

def targets (posts : List Signpost) : List String :=
  (posts.filter (·.jumps)).map text

theorem keyword_chars (post : Signpost) : post.keyword.toList ≠ [] ∧
    (∀ c ∈ post.keyword.toList, Layout.isDirectiveChar c = true) ∧
    (∀ c ∈ post.keyword.toList, Token.isNameChar c = true) := by
  rw [keyword]
  cases post.jumps <;> exact ⟨by decide, all_eq_true.mp (by decide), all_eq_true.mp (by decide)⟩

theorem keyword_plain (post : Signpost) : lower post.keyword = post.keyword ∧
    Contract.takesExpression post.keyword = false ∧
    Vocabulary.plainArguments.contains post.keyword = true := by
  rw [keyword]
  cases post.jumps <;> exact ⟨by decide +kernel, by decide +kernel, by decide⟩

theorem text_ne_empty (post : Signpost) : post.text ≠ "" := by
  obtain ⟨c, rest, hname, -⟩ := post.isLabel.head
  simp [text, hname]

theorem inline_line (post : Signpost) : Source.Inline post.line := by
  intro c hc
  simp only [line, mem_cons, mem_append] at hc
  rcases hc with rfl | hc | rfl | rfl | hc
  · rfl
  · exact Source.isInline_of_pos (by decide) (by decide) (post.keyword_chars.2.2 c hc)
  · rfl
  · rfl
  · exact post.isLabel.inline c hc

/-! ## Layout -/

section

open Layout

/-- A post as layout leaves it: the name of a jump is spaced like code. -/
def laid (style : Style) (post : Signpost) : Signpost where
  jumps := post.jumps
  name := argumentSpacing style post.keyword.toList post.name
  isLabel := post.isLabel.respaced (respacing_argument style _)

theorem trimmed_line (post : Signpost) : Trimmed post.line := by
  obtain ⟨c, rest, hname, -⟩ := post.isLabel.head
  have hline : post.line = '*' :: (post.keyword.toList ++ [':', ' ']) ++ post.name := by simp [line]
  intro d hd
  rw [hline, Option.mem_def, getLast?_append_of_ne_nil _ (by simp [hname])] at hd
  exact post.isLabel.trimmed d hd

theorem layoutContent_line (style : Style) (post : Signpost) :
    layoutContent style post.line = (post.laid style).line := by
  have hspace (f : List Char → List Char) :
      afterSpace f (' ' :: post.name) = ' ' :: f post.name := by
    obtain ⟨c, rest, hname, hc⟩ := post.isLabel.head
    rw [afterSpace, dropWhile_cons_of_pos (by decide), hname, dropWhile_cons_of_neg (by simp [hc])]
    rfl
  rw [line, layoutContent_directive style post.keyword_chars.1 post.keyword_chars.2.1, hspace]
  simp only [line, keyword, laid]

def atMargin : Sibling := ⟨0, true⟩

/-- Between two posts layout separates no blocks: both are directives at the margin. -/
theorem layoutLine_line (style : Style) {state : State} (henabled : state.disabled = false)
    (hsiblings : state.siblings = [] ∨ state.siblings = [atMargin]) (post : Signpost) :
    layoutLine style state post.line = ([(post.laid style).line], state.enter atMargin) := by
  have hparts : Parts post.line [] post.line [] :=
    ⟨by simp, by simp, by simp, ⟨'*', _, rfl, by decide⟩, post.trimmed_line⟩
  have hcarriage : CarriageParts post.line post.line [] :=
    ⟨by simp, fun h => absurd (post.inline_line _ h) (by decide), .inl rfl⟩
  have hname : (directiveName? post.line).isSome = true := by
    rw [line, directiveName?_colon post.keyword_chars.1 post.keyword_chars.2.1]
    rfl
  have hdashes : post.line.take 2 ≠ ['-', '-'] := by simp [line]
  have hseparates : separates style state atMargin = false := by
    rcases hsiblings with h | h <;> simp [separates, startsBlock, h, atMargin]
  rw [layoutLine_text henabled hcarriage.split (isSwitch_of_sign _ (.inr rfl)) (by rfl),
    hparts.layoutText, if_neg hdashes, hname]
  change (if separates style state atMargin then _ else _, _) = _
  rw [if_neg (by simp [hseparates]), layoutContent_line]
  simp [atMargin]

theorem layoutLines_posts (style : Style) {state : State} (henabled : state.disabled = false)
    (hsiblings : state.siblings = [] ∨ state.siblings = [atMargin]) (posts : List Signpost) :
    layoutLines style state (posts.map line) = (posts.map (laid style)).map line := by
  induction posts generalizing state with
  | nil => rfl
  | cons post posts ih =>
    have henter : (state.enter atMargin).siblings = [atMargin] := by
      rcases hsiblings with h | h <;> simp [State.enter, startsBlock, h, atMargin]
    rw [map_cons, layoutLines, layoutLine_line style henabled hsiblings]
    dsimp only
    rw [ih (by exact henabled) (.inr henter)]
    rfl

theorem dropBlankEnd_of_filled {lines : List (List Char)}
    (h : ∀ raw ∈ lines, allBlank raw = false) : dropBlankEnd lines = lines := by
  rw [dropBlankEnd, dropWhile_eq_self_iff.mpr, reverse_reverse]
  intro hpos
  exact Bool.eq_false_iff.mp (h _ (mem_reverse.mp (getElem_mem hpos)))

/-- Layout keeps the lines of a document of labels and jumps, and the names of its labels. -/
theorem format_source (style : Style) (posts : List Signpost) :
    format style (source posts) = source (posts.map (laid style)) := by
  have hfeed : ∀ raw ∈ posts.map line, '\n' ∉ raw := by
    rw [forall_mem_map]
    exact fun post _ h => absurd (post.inline_line _ h) (by decide)
  rw [Layout.format, source, String.toList_ofList]
  refine congrArg String.ofList ?_
  cases posts with
  | nil => exact layout_nil style
  | cons post posts =>
    rw [layout_eq_finish, sourceLines_fed (by simp) hfeed, getLast?_fed (by simp),
      layoutLines_posts style rfl (.inl rfl)]
    have hblank : ∀ raw ∈ ((post :: posts).map (laid style)).map line, allBlank raw = false := by
      rw [forall_mem_map]
      exact fun _ _ => rfl
    cases hfinal : style.insertFinalNewline with
    | false => exact finish_eq_fed_of_keep hfinal true (by simp)
    | true =>
      rw [finish_eq_fed_of_insert hfinal, dropBlankEnd_of_filled hblank]

end

/-! ## Reading -/

open Token Source in
theorem scanContent_line (post : Signpost) (p : Position) :
    ∃ head colon value, scanContent 0 p post.line =
      [⟨.keyword, post.keyword, head⟩, ⟨.colon, ":", colon⟩, ⟨.text, post.text, value⟩] := by
  have hgap : isGap ' ' = true := by decide
  obtain ⟨c, rest, hname, hc⟩ := post.isLabel.head
  have hdrop : (' ' :: post.name).dropWhile isGap = post.name := by
    rw [dropWhile_cons_of_pos hgap, hname, dropWhile_cons_of_neg (by simp [hc])]
  obtain ⟨hlower, htakes, hplain⟩ := post.keyword_plain
  rw [line, scanContent_directive 0 p post.keyword_chars.1 post.keyword_chars.2.2]
  simp only [String.ofList_toList, hlower, scanArgument, htakes, hplain, hdrop, Bool.and_false,
    Bool.false_eq_true, if_false, Bool.not_true, post.isLabel.scanText_eq]
  exact ⟨_, _, _, rfl⟩

def sourceLine (post : Signpost) : Source.Line := ⟨post.line, ['\n']⟩

theorem lines_source (posts : List Signpost) :
    Source.lines (source posts).toList = posts.map sourceLine := by
  rw [source, String.toList_ofList]
  induction posts with
  | nil => rfl
  | cons post posts ih =>
    rw [map_cons, Layout.fed, Bool.true_or, if_pos rfl, singleton_append,
      Source.lines_feed post.inline_line, ih]
    rfl

/-- The statement that a post is read as. -/
def Stands (post : Signpost) (statement : Statement) : Prop :=
  ∃ span place, statement =
    .keyword span post.keyword (some (.prose ⟨place, [.text post.text]⟩)) [] []

open Token in
theorem scanLines_line (post : Signpost) (p : Position) :
    ∃ head colon value feed, ∀ rest, scanLines [] p (post.sourceLine :: rest) =
      [⟨.keyword, post.keyword, head⟩, ⟨.colon, ":", colon⟩, ⟨.text, post.text, value⟩,
        ⟨.newline, "\n", feed⟩] ++ scanLines [] (post.sourceLine.after p) rest := by
  obtain ⟨head, colon, value, hcontent⟩ := post.scanContent_line (p.advance 0)
  refine ⟨head, colon, value, ⟨p.advance post.line.length, (p.advance post.line.length).advance 1⟩,
    fun rest => ?_⟩
  have htokens : lineTokens [] p post.sourceLine =
      scanContent 0 (p.advance 0) post.line ++ lineBreak post.sourceLine p := rfl
  have hblocks : blocksAfter [] post.sourceLine = [] := rfl
  rw [scanLines_cons, htokens, hblocks, hcontent]
  rfl

theorem exists_block (posts : List Signpost) (p : Position) :
    ∃ items block, Outline.ofTokens (Token.scanLines [] p (posts.map sourceLine)) = ⟨items, []⟩ ∧
      (∀ indent inside others, items = .block indent inside :: others → False) ∧
      Program.Clean (Program.readItems none items) block ∧ Forall₂ Stands posts block.body := by
  induction posts generalizing p with
  | nil =>
    have hnone : Program.Clean (Program.readItems none []) {} := by
      rw [Program.readItems]
      exact .pure _
    exact ⟨[], {}, rfl, by rintro _ _ _ ⟨⟩, hnone, .nil⟩
  | cons post posts ih =>
    obtain ⟨items, block, houtline, hitems, hclean, hstands⟩ := ih (post.sourceLine.after p)
    obtain ⟨head, colon, value, feed, htokens⟩ := post.scanLines_line p
    obtain ⟨hlower, htakes, -⟩ := post.keyword_plain
    refine ⟨.line ⟨.keyword, post.keyword, head⟩
        [⟨.colon, ":", colon⟩, ⟨.text, post.text, value⟩] :: items, _, ?_, by rintro _ _ _ ⟨⟩,
      Program.clean_readItems post.text_ne_empty hlower htakes hitems hclean,
      .cons ⟨_, value, rfl⟩ hstands⟩
    rw [map_cons, htokens, Outline.ofTokens_append (by simp), houtline]
    rfl

/-- A document of posts is read without faults, each post as its statement. -/
theorem ofTokens_source (posts : List Signpost) :
    ∃ span body, Program.ofTokens (Token.ofSource (source posts)) = .ok (⟨span, body⟩, []) ∧
      Forall₂ Stands posts body := by
  obtain ⟨items, block, houtline, -, hclean, hstands⟩ := exists_block posts .origin
  refine ⟨_, block.body, Program.ofTokens_of_clean ?_ ?_, hstands⟩
  · rw [Token.ofSource, lines_source, houtline]
  · rwa [Token.ofSource, lines_source, houtline]

def kinds : List Token.Kind := [.keyword, .colon, .text, .newline, .endOfInput]

theorem kind_mem (posts : List Signpost) (p : Position) :
    ∀ token ∈ Token.scanLines [] p (posts.map sourceLine), token.kind ∈ kinds := by
  induction posts generalizing p with
  | nil =>
    intro token htoken
    rw [mem_singleton.mp htoken]
    exact (by decide : Token.Kind.endOfInput ∈ kinds)
  | cons post posts ih =>
    obtain ⟨head, colon, value, feed, htokens⟩ := post.scanLines_line p
    rw [map_cons, htokens, forall_mem_append]
    exact ⟨by simp [kinds], ih _⟩

/-! ## What the rules see -/

open Rule

variable {document : Document} {statement : Statement} {program : Program}

theorem Stands.tour_eq (h : Stands post statement) (ancestors : List Node) (place : Nat) :
    ∃ span value, statement =
        .keyword span post.keyword (some (.prose ⟨value, [.text post.text]⟩)) [] [] ∧
      (Node.statement statement).tour ancestors place =
        [⟨.enter, .statement statement, ancestors, place⟩,
          ⟨.enter, .prose ⟨value, [.text post.text]⟩, .statement statement :: ancestors, 0⟩,
          ⟨.leave, .prose ⟨value, [.text post.text]⟩, .statement statement :: ancestors, 0⟩,
          ⟨.leave, .statement statement, ancestors, place⟩] := by
  obtain ⟨span, value, rfl⟩ := h
  refine ⟨span, value, rfl, ?_⟩
  have hprose : (Node.statement (.keyword span post.keyword
      (some (.prose ⟨value, [.text post.text]⟩)) [] [])).children =
        [.prose ⟨value, [.text post.text]⟩] := by
    simp [Node.children, Node.ofArgument]
  have hnone : (Node.prose ⟨value, [.text post.text]⟩).children = [] := rfl
  rw [Node.tour_eq, hprose, zipIdx_singleton, flatMap_singleton, Node.tour_eq, hnone]
  rfl

theorem Stands.check_eq_nil (h : Stands post statement) {visit : Visit} {place : Nat}
    (hvisit : visit ∈ (Node.statement statement).tour [.program program] place) :
    ∀ rule ∈ Rule.all, rule.check document visit = [] := by
  obtain ⟨span, value, rfl, htour⟩ := h.tour_eq [.program program] place
  rw [htour] at hvisit
  simp only [Rule.all, forall_mem_cons]
  simp only [mem_cons, not_mem_nil, or_false] at hvisit
  rcases hvisit with rfl | rfl | rfl | rfl
  · rw [keyword]
    cases post.jumps <;>
      exact ⟨rfl, rfl, rfl, rfl, rfl, rfl, rfl, rfl, rfl, rfl, rfl, rfl, rfl, by simp⟩
  all_goals exact ⟨rfl, rfl, rfl, rfl, rfl, rfl, rfl, rfl, rfl, rfl, rfl, rfl, rfl, by simp⟩

theorem Stands.observe_eq (h : Stands post statement) {visit : Visit} {ancestors : List Node}
    {place : Nat} (hvisit : visit ∈ (Node.statement statement).tour ancestors place)
    (tokens : List Token) (known : Variables) : observe tokens known visit = known := by
  obtain ⟨span, value, rfl, htour⟩ := h.tour_eq ancestors place
  rw [htour] at hvisit
  simp only [mem_cons, not_mem_nil, or_false] at hvisit
  rcases hvisit with rfl | rfl | rfl | rfl
  · rw [keyword]
    cases post.jumps <;> rfl
  all_goals rfl

theorem labelName_text (post : Signpost) (value : Span) :
    labelName (some (.prose ⟨value, [.text post.text]⟩)) = post.text := by
  change String.ofList (trim post.text.toList) = post.text
  rw [text, String.toList_ofList, post.isLabel.trim_eq]

theorem fst_namedStatements {body : List Statement} (h : Forall₂ Stands posts body)
    (word source : String) (tokens : List Token) (ancestors : List Node) (n : Nat) :
    (namedStatements word ⟨source, tokens, ((body.map Node.statement).zipIdx n).flatMap
      fun child => child.1.tour ancestors child.2⟩).map Prod.fst =
        (posts.filter (·.keyword == word)).map text := by
  induction h generalizing n with
  | nil => rfl
  | @cons post statement posts body hstands _ ih =>
    obtain ⟨span, value, rfl, htour⟩ := hstands.tour_eq ancestors n
    have hfilled : post.text.isEmpty = false := by simpa using post.text_ne_empty
    have hrest := ih (n + 1)
    simp only [namedStatements] at hrest ⊢
    rw [map_cons, zipIdx_cons, flatMap_cons, htour, filterMap_append, map_append, hrest,
      filter_cons]
    simp only [filterMap_cons, filterMap_nil, labelName_text, hfilled, Bool.not_false,
      Bool.and_true]
    cases post.keyword == word <;> rfl

theorem bracketReports_eq_nil {tokens : List Token}
    (h : ∀ token ∈ tokens, closerOf? token.kind = none ∧ closerSpelling? token.kind = none)
    (lineEnd : Int) : bracketReports [] lineEnd tokens = [] := by
  induction tokens generalizing lineEnd with
  | nil => rfl
  | cons token tokens ih =>
    obtain ⟨⟨hopen, hclose⟩, hrest⟩ := forall_mem_cons.mp h
    rw [bracketReports]
    simp only [hopen, hclose, ih hrest, Option.isSome_none, Bool.false_eq_true, if_false]
    split <;> rfl

/-- A document of posts as the rules get it. -/
structure Reads (posts : List Signpost) (document : Document) (program : Program) : Prop where
  source : document.source = source posts
  tokens : document.tokens = Token.ofSource (Signpost.source posts)
  visits : document.visits = (Node.program program).tour [] 0
  stands : Forall₂ Stands posts program.body

def inside (program : Program) : List Visit :=
  (program.body.map Node.statement).zipIdx.flatMap fun child =>
    child.1.tour [.program program] child.2

namespace Reads

theorem visits_eq (h : Reads posts document program) :
    document.visits = ⟨.enter, .program program, [], 0⟩ :: inside program ++
      [⟨.leave, .program program, [], 0⟩] := by
  rw [h.visits, Node.tour_eq]
  rfl

theorem exists_stands (h : Reads posts document program) {visit : Visit}
    (hvisit : visit ∈ inside program) :
    ∃ post statement place, Stands post statement ∧
      visit ∈ (Node.statement statement).tour [.program program] place := by
  obtain ⟨child, hchild, hvisit⟩ := mem_flatMap.mp hvisit
  obtain ⟨statement, hstatement, hnode⟩ := mem_map.mp (fst_mem_of_mem_zipIdx hchild)
  obtain ⟨i, hi, rfl⟩ := getElem_of_mem hstatement
  obtain ⟨hlength, hstands⟩ := forall₂_iff_get.mp h.stands
  exact ⟨_, _, child.2, hstands i (hlength ▸ hi) hi, hnode ▸ hvisit⟩

theorem fst_namedStatements (h : Reads posts document program) (word : String) :
    (namedStatements word document).map Prod.fst =
      (posts.filter (·.keyword == word)).map text := by
  rw [← Signpost.fst_namedStatements h.stands word document.source document.tokens
    [.program program] 0]
  simp only [namedStatements, h.visits_eq, inside, filterMap_append, filterMap_cons,
    filterMap_nil, append_nil]

theorem fst_labels (h : Reads posts document program) :
    (Rule.labels document).map Prod.fst = Signpost.labels posts := by
  rw [Rule.labels, h.fst_namedStatements, Signpost.labels]
  congr 1
  refine filter_congr fun post _ => ?_
  rw [keyword]
  cases post.jumps <;> rfl

theorem fst_jumps (h : Reads posts document program) :
    (Rule.jumps document).map Prod.fst = targets posts := by
  have hnames := h.fst_namedStatements "goto"
  have hinside : ∀ jump ∈ namedStatements "goto" document, (!isExternal jump.1) = true := by
    intro jump hjump
    have hname := mem_map_of_mem (f := Prod.fst) hjump
    rw [hnames] at hname
    obtain ⟨post, -, hpost⟩ := mem_map.mp hname
    rw [← hpost, text, post.isLabel.isExternal]
    rfl
  rw [Rule.jumps, filter_eq_self.mpr hinside, hnames, targets]
  congr 1
  refine filter_congr fun post _ => ?_
  rw [keyword]
  cases post.jumps <;> rfl

theorem fst_unmatched (entries others : List (String × Position)) :
    (unmatched entries others).map Prod.fst =
      (entries.map Prod.fst).filter (· ∉ others.map Prod.fst) := by
  rw [unmatched, filter_map]
  refine congrArg (map Prod.fst) (filter_congr fun entry _ => ?_)
  simp

/-- The rules on lines see no spaces in front, no literals and no brackets. -/
theorem check_enter (h : Reads posts document program) :
    ∀ rule ∈ Rule.all, rule.check document ⟨.enter, .program program, [], 0⟩ = [] := by
  have hkinds := kind_mem posts .origin
  rw [← lines_source, ← Token.ofSource, ← h.tokens] at hkinds
  have hindents (number offset : Nat) : spaceIndents number offset (posts.map sourceLine) = [] := by
    clear h hkinds
    induction posts generalizing number offset with
    | nil => rfl
    | cons post posts ih =>
      rw [map_cons, spaceIndents, ih]
      rfl
  have hstrings : document.tokens.filterMap unclosedString? = [] := by
    refine filterMap_eq_nil_iff.mpr fun token htoken => ?_
    unfold unclosedString?
    split
    · rename_i herror _
      exact absurd (herror ▸ hkinds token htoken) (by decide)
    · rfl
  have hbrackets : bracketReports [] 0 document.tokens = [] := by
    have hplain : ∀ kind ∈ kinds, closerOf? kind = none ∧ closerSpelling? kind = none := by decide
    exact bracketReports_eq_nil (fun token htoken => hplain _ (hkinds token htoken)) 0
  simp only [Rule.all, forall_mem_cons]
  refine ⟨rfl, rfl, rfl, rfl, rfl, rfl, rfl, rfl, ?_, hstrings, hbrackets, rfl, rfl, by simp⟩
  change spaceIndents 1 0 (Source.lines document.source.toList) = []
  rw [h.source, lines_source, hindents]

theorem variablesOf_eq (h : Reads posts document program) : variablesOf document = {} := by
  have hinside (visits : List Visit) (hvisits : visits ⊆ inside program) (known : Variables) :
      visits.foldl (observe document.tokens) known = known := by
    induction visits with
    | nil => rfl
    | cons visit visits ih =>
      obtain ⟨hvisit, hrest⟩ := cons_subset.mp hvisits
      obtain ⟨post, statement, place, hstands, hmem⟩ := h.exists_stands hvisit
      rw [foldl_cons, hstands.observe_eq hmem, ih hrest]
  rw [variablesOf, h.visits_eq, cons_append, foldl_cons, foldl_append, hinside _ (Subset.refl _)]
  rfl

end Reads

/-! ## Messages -/

open Lint

theorem messagesOf_eq_nil {rule : Rule} {visit : Visit} (h : rule.check document visit = [])
    (settings : Settings) : messagesOf settings document visit rule = [] := by
  rw [messagesOf, h]
  split <;> rfl

theorem messagesAt_eq_nil {visit : Visit} (h : ∀ rule ∈ Rule.all, rule.check document visit = [])
    (settings : Settings) : messagesAt settings document visit = [] := by
  rw [messagesAt_eq]
  exact flatMap_eq_nil_iff.mpr fun rule hrule => messagesOf_eq_nil (h rule hrule) settings

/-- All that is found in a document of posts is found when its tour ends. -/
theorem Reads.messages_eq (h : Reads posts document program) (settings : Settings) :
    document.visits.flatMap (messagesAt settings document) =
      messagesAt settings document ⟨.leave, .program program, [], 0⟩ := by
  rw [h.visits_eq, cons_append, flatMap_cons, messagesAt_eq_nil h.check_enter, nil_append,
    flatMap_append, flatMap_singleton]
  refine append_left_eq_self.mpr (flatMap_eq_nil_iff.mpr fun visit hvisit => ?_)
  obtain ⟨post, statement, place, hstands, hmem⟩ := h.exists_stands hvisit
  exact messagesAt_eq_nil (hstands.check_eq_nil hmem) settings

/-- Under the standard configuration these are the jumps without a label and the labels without a
jump. -/
theorem Reads.rules_eq (h : Reads posts document program) :
    (messagesAt Configuration.standard.rules document ⟨.leave, .program program, [], 0⟩).map
        (·.rule) =
      ((targets posts).filter (· ∉ labels posts)).map (fun _ => noInvalidGoto.name) ++
        ((labels posts).filter (· ∉ targets posts)).map fun _ => noUnusedLabels.name := by
  let leave : Visit := ⟨.leave, .program program, [], 0⟩
  have hnone {rules : List Rule} (hrules : ∀ rule ∈ rules, rule.check document leave = []) :
      rules.flatMap (messagesOf Configuration.standard.rules document leave) = [] :=
    flatMap_eq_nil_iff.mpr fun rule hrule => messagesOf_eq_nil (hrules rule hrule) _
  have hvariables : noUndefinedVars.check document leave = [] ∧
      noUnusedVars.check document leave = [] := by
    simp only [leave, noUndefinedVars, noUnusedVars, onLeave, h.variablesOf_eq]
    exact ⟨rfl, rfl⟩
  have hfront : ∀ rule ∈ Rule.all.take 6, rule.check document leave = [] := by
    simp only [Rule.all, take_succ_cons, take_zero, forall_mem_cons]
    exact ⟨rfl, rfl, rfl, rfl, rfl, rfl, by simp⟩
  have hback : ∀ rule ∈ Rule.all.drop 8, rule.check document leave = [] := by
    simp only [Rule.all, drop_succ_cons, drop_zero, forall_mem_cons]
    exact ⟨rfl, rfl, rfl, hvariables.1, hvariables.2, by simp⟩
  have hall : Rule.all =
      Rule.all.take 6 ++ ([noInvalidGoto, noUnusedLabels] ++ Rule.all.drop 8) := rfl
  rw [messagesAt_eq, hall, flatMap_append, flatMap_append, hnone hfront, hnone hback, nil_append,
    append_nil, ← h.fst_jumps, ← h.fst_labels, ← fst_unmatched, ← fst_unmatched, flatMap_cons,
    flatMap_singleton, map_append]
  have hrules (name : String) (severity : Severity) (report : String × Position → Report)
      (entries : List (String × Position)) :
      ((entries.map report).map fun report => (⟨name, severity, report⟩ : Message)).map (·.rule) =
        (entries.map Prod.fst).map fun _ => name := by
    rw [map_map, map_map, map_map]
    rfl
  exact congr (congrArg _ (hrules _ .error _ _)) (hrules _ .warning _ _)

/-- What the linter finds in a document of labels and jumps: each jump whose name no label has, and
each label whose name no jump has. -/
theorem messages_source (posts : List Signpost) :
    ∃ found, messages Configuration.standard.rules (source posts) = .ok found ∧
      (found.map (·.rule)).Perm
        (((targets posts).filter (· ∉ labels posts)).map (fun _ => noInvalidGoto.name) ++
          ((labels posts).filter (· ∉ targets posts)).map fun _ => noUnusedLabels.name) := by
  obtain ⟨span, body, hread, hstands⟩ := ofTokens_source posts
  have hreads : Reads posts ⟨source posts, Token.ofSource (source posts),
      (Node.program ⟨span, body⟩).tour [] 0⟩ ⟨span, body⟩ := ⟨rfl, rfl, rfl, hstands⟩
  have hmessages : messages Configuration.standard.rules (source posts) =
      .ok (messagesOn Configuration.standard.rules ⟨source posts, Token.ofSource (source posts),
        (Node.program ⟨span, body⟩).tour [] 0⟩) := by
    rw [messages_eq, document, hread]
    rfl
  refine ⟨_, hmessages, ((mergeSort_perm _ _).map _).trans (.of_eq ?_)⟩
  rw [hreads.messages_eq, hreads.rules_eq]

theorem labels_laid (style : Layout.Style) (posts : List Signpost) :
    labels (posts.map (laid style)) = labels posts := by
  have hcode : Layout.codeDirectives.contains (lower (String.ofList "label".toList)) = false := by
    decide +kernel
  have htext : ∀ post ∈ posts.filter (!·.jumps), (post.laid style).text = post.text := by
    intro post hpost
    have hjumps : post.jumps = false := by simpa using (mem_filter.mp hpost).2
    simp only [text, laid, keyword, hjumps, cond_false, Layout.argumentSpacing, hcode,
      Bool.false_eq_true, if_false, id]
  have hfilter : posts.filter ((!·.jumps) ∘ laid style) = posts.filter (!·.jumps) :=
    filter_congr fun post _ => by simp only [Function.comp_apply, laid]
  rw [labels, filter_map, map_map, hfilter]
  exact map_congr_left htext

/-- Layout leaves a document of labels and jumps clean just if the names of its jumps, spaced like
code, are the names of its labels. -/
theorem messages_format_source (style : Layout.Style) (posts : List Signpost) :
    messages Configuration.standard.rules (Layout.format style (source posts)) = .ok [] ↔
      ∀ name, name ∈ targets (posts.map (laid style)) ↔ name ∈ labels posts := by
  obtain ⟨found, hfound, hrules⟩ := messages_source (posts.map (laid style))
  rw [format_source, hfound, Except.ok.injEq, ← map_eq_nil_iff (f := (·.rule)),
    ← perm_nil, hrules.congr_left, perm_nil, append_eq_nil_iff, map_eq_nil_iff, map_eq_nil_iff,
    labels_laid, filter_eq_nil_iff, filter_eq_nil_iff]
  simp only [decide_not, Bool.not_eq_true', decide_eq_false_iff_not, not_not]
  exact ⟨fun h name => ⟨h.1 name, h.2 name⟩,
    fun h => ⟨fun name => (h name).1, fun name => (h name).2⟩⟩

end Signpost

namespace Lint

open Layout (format)

def twoBlanks : List Signpost :=
  [false, true].map (⟨·, "a  b".toList, .of_check (by decide) (by decide) (by decide)⟩)

/-- Layout makes one blank of two in the name that a jump gives, but not in that of the label. -/
theorem messages_format_gotos :
    messages Configuration.standard.rules "*label: a  b\n*goto: a  b\n" = .ok [] ∧
      ∃ found, messages Configuration.standard.rules
          (format {} "*label: a  b\n*goto: a  b\n") = .ok found ∧
        (found.map (·.rule)).Perm ["no-invalid-goto", "no-unused-labels"] := by
  have hsource : "*label: a  b\n*goto: a  b\n" = Signpost.source twoBlanks := by decide
  have hnames : Signpost.targets twoBlanks = ["a  b"] ∧ Signpost.labels twoBlanks = ["a  b"] ∧
      Signpost.targets (twoBlanks.map (Signpost.laid {})) = ["a b"] := by decide +kernel
  obtain ⟨found, hfound, hrules⟩ := Signpost.messages_source twoBlanks
  obtain ⟨again, hagain, hbroken⟩ := Signpost.messages_source (twoBlanks.map (Signpost.laid {}))
  rw [hnames.1, hnames.2.1] at hrules
  rw [Signpost.labels_laid, hnames.2.1, hnames.2.2] at hbroken
  rw [hsource, Signpost.format_source]
  have hclean : found = [] := map_eq_nil_iff.mp (perm_nil.mp hrules)
  exact ⟨hclean ▸ hfound, again, hagain, hbroken⟩

end Lint
end GuidedTrack
