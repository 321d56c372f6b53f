import GuidedTrack.Proofs.Layout.CodeMeaning
import GuidedTrack.Proofs.Layout.LayoutIdempotence
import GuidedTrack.Proofs.Program.SingleLines

/-! # Layout keeps what code means

A line of code is laid out as one line with the same head, and what stands behind the head is read
as before. So the program that is read from the line differs in places only.
-/

namespace GuidedTrack.Layout

open Text

variable {c : Char} {rest trailing e : List Char}

/-! ## Sources of one line -/

theorem startsWithSign_layoutContent (style : Style) (hsign : c = '>' ∨ c = '*')
    (h : Trimmed (c :: rest)) :
    ∃ d more, layoutContent style (c :: rest) = d :: more ∧ (d = '>' ∨ d = '*') := by
  rcases (layoutContent_kept style h).head with hsame | hhead
  · exact ⟨c, rest, hsame, hsign⟩
  · exact hhead

theorem layoutLine_sign (style : Style) (hsign : c = '>' ∨ c = '*') (htrim : Trimmed (c :: rest))
    (htrailing : ∀ d ∈ trailing, isGap d = true) (hreturn : '\r' ∉ c :: rest ++ trailing) :
    (layoutLine style {} (c :: rest ++ trailing)).1 =
      [layoutContent style (c :: rest) ++
        (if style.trimTrailingWhitespace then [] else trailing)] := by
  have hparts : Parts (c :: rest ++ trailing) [] (c :: rest) trailing :=
    ⟨rfl, by simp, htrailing, ⟨c, rest, rfl, by rcases hsign with rfl | rfl <;> rfl⟩, htrim⟩
  have hblank : allBlank (c :: rest ++ trailing) = false := by rcases hsign with rfl | rfl <;> rfl
  have hdashes : (c :: rest).take 2 ≠ ['-', '-'] := by
    rcases hsign with rfl | rfl <;> simp
  have hseparates (here : Sibling) : separates style {} here = false := by
    simp [separates]
  have hcarriage : CarriageParts (c :: rest ++ trailing) (c :: rest ++ trailing) [] :=
    ⟨by simp, hreturn, .inl rfl⟩
  rw [layoutLine_text rfl hcarriage.split (isSwitch_of_sign _ hsign) hblank,
    hparts.layoutText]
  simp only [hdashes, hseparates, if_false, Bool.false_eq_true, List.nil_append, List.append_nil]

theorem layout_line (style : Style) (hsign : c = '>' ∨ c = '*') (htrim : Trimmed (c :: rest))
    (htrailing : ∀ d ∈ trailing, isGap d = true)
    (hinline : ∀ d ∈ c :: rest ++ trailing, Source.isInline d = true) :
    ∃ ending, (ending = [] ∨ ending = ['\n']) ∧ layout style (c :: rest ++ trailing) =
      layoutContent style (c :: rest) ++ (if style.trimTrailingWhitespace then [] else trailing) ++
        ending := by
  have hfeed : '\n' ∉ c :: rest ++ trailing := fun h => absurd (hinline _ h) (by decide)
  have hreturn : '\r' ∉ c :: rest ++ trailing := fun h => absurd (hinline _ h) (by decide)
  have hlast : ((c :: rest ++ trailing).getLast? == some '\n') = false := by
    rw [beq_eq_false_iff_ne]
    exact fun h => hfeed (List.mem_of_getLast? h)
  have hlines : sourceLines (c :: rest ++ trailing) = [c :: rest ++ trailing] := by
    rw [sourceLines, hlast, splitFeeds_line _ hfeed]
    rfl
  rw [layout_eq_finish, hlines, hlast]
  simp only [layoutLines, layoutLine_sign style hsign htrim htrailing hreturn, List.append_nil]
  cases hfinal : style.insertFinalNewline with
  | false =>
    refine ⟨[], .inl rfl, ?_⟩
    rw [finish_of_keep hfinal]
    simp [joinFeeds]
  | true =>
    obtain ⟨d, more, hcontent, hsign'⟩ := startsWithSign_layoutContent style hsign htrim
    have hkept (cs : List Char) : dropBlankEnd [d :: cs] = [d :: cs] := by
      have hblank : allBlank (d :: cs) = false := by rcases hsign' with rfl | rfl <;> rfl
      simp [dropBlankEnd, hblank]
    refine ⟨['\n'], .inr rfl, ?_⟩
    rw [hcontent, List.cons_append, finish_of_insert hfinal _ (by simp [hkept]), hkept]
    simp [joinFeeds]

/-! ## Heads -/

/-- Layout keeps the head of a line and lays out what stands behind it with `f`. -/
structure Head (style : Style) (head : List Char) (f : List Char → List Char) : Prop where
  sign : ∃ c more, head = c :: more ∧ (c = '>' ∨ c = '*')
  trimmed : Trimmed head
  inline : ∀ d ∈ head, Source.isInline d = true
  layoutContent : ∀ rest, layoutContent style (head ++ rest) = head ++ afterSpace f rest
  respacing : Respacing f
  tokensAlike : ∀ {cs : List Char}, Trimmed cs → TokensAlike cs (f cs)

/-- What laying out a line of code keeps of the code `e`: `t` is read alike, it has no line breaks,
and it is missing if `e` is. -/
structure CodeKept (e t : List Char) : Prop where
  inline : ∀ d ∈ t, Source.isInline d = true
  missing : (∀ d ∈ e, isGap d = true) → ∀ d ∈ t, isGap d = true
  tokensAlike : TokensAlike e t

/-- Whatever is read from the code without faults is read from what it is laid out as. -/
theorem CodeKept.reads {t : List Char} (h : CodeKept e t) {assignment : Bool} {anchor p : Position}
    {value? : Option Expr}
    (hvalue : Expr.ofTokens assignment anchor (Token.scanExpression none p e).1 = .ok (value?, []))
    (anchor' q : Position) :
    ∃ value other, value? = some value ∧
      Expr.ofTokens assignment anchor' (Token.scanExpression none q t).1 = .ok (some other, []) ∧
      other.erase = value.erase := by
  obtain ⟨value, other, hsome, hother, hlike⟩ :=
    h.tokensAlike.reads (ρ := fun _ _ => True) hvalue (fun _ _ _ _ _ => trivial) anchor'
  exact ⟨value, other, hsome, hother, hlike.erase_eq⟩

theorem Head.layout {style : Style} {head : List Char} {f : List Char → List Char}
    (h : Head style head f) (he : ∀ d ∈ e, Source.isInline d = true) :
    ∃ t ending, CodeKept e t ∧ (ending = [] ∨ ending = ['\n']) ∧
      layout style (head ++ e) = head ++ t ++ ending := by
  obtain ⟨c, more, hhead, hsign⟩ := h.sign
  let rest := e.rdropWhile isGap
  let trailing := e.rtakeWhile isGap
  let kept := if style.trimTrailingWhitespace then [] else trailing
  have hsplit : rest ++ trailing = e := List.rdropWhile_append_rtakeWhile
  have hrest : Trimmed rest := trimmed_rdropWhile e
  have htrailing : ∀ d ∈ trailing, isGap d = true := fun d hd => List.mem_rtakeWhile_imp hd
  have hkept : ∀ d ∈ kept, isGap d = true := by
    unfold kept
    split
    · simp
    · exact htrailing
  have htrim : Trimmed (c :: (more ++ rest)) := by
    rw [← List.cons_append, ← hhead]
    exact h.trimmed.append hrest
  have hinline : ∀ d ∈ c :: (more ++ rest) ++ trailing, Source.isInline d = true := by
    rw [← List.cons_append, ← hhead, List.append_assoc, hsplit]
    intro d hd
    rcases List.mem_append.mp hd with hd | hd
    · exact h.inline d hd
    · exact he d hd
  obtain ⟨ending, hending, hlayout⟩ := layout_line style hsign htrim htrailing hinline
  rw [← List.cons_append, ← hhead, List.append_assoc, hsplit, h.layoutContent] at hlayout
  refine ⟨afterSpace f rest ++ kept, ending, ⟨?_, ?_, ?_⟩, hending, ?_⟩
  · have hgap {d : Char} : isGap d = true → Source.isInline d = true :=
      Source.isInline_of_pos (by decide) (by decide)
    intro d hd
    rcases List.mem_append.mp hd with hd | hd
    · rcases h.respacing.mem_afterSpace hrest hd with hd | hd
      · exact hgap hd
      · exact he d (hsplit ▸ List.mem_append_left trailing hd)
    · exact hgap (hkept d hd)
  · intro hgaps
    have hnone : rest.dropWhile isGap = [] :=
      List.dropWhile_eq_nil_iff.mpr fun d hd => hgaps d (hsplit ▸ List.mem_append_left trailing hd)
    simpa [afterSpace, hnone] using hkept
  · have halike := tokensAlike_afterSpace h.tokensAlike hrest htrailing hkept
    rwa [hsplit] at halike
  · simpa using hlayout

theorem head_expression (style : Style) : Head style ['>', '>'] (code style true) where
  sign := ⟨'>', ['>'], rfl, .inl rfl⟩
  trimmed := by simp [Trimmed, isGap]
  inline := List.all_iff_forall_prop.mp (by decide)
  layoutContent := layoutContent_expression style
  respacing := respacing_code style true
  tokensAlike := tokensAlike_code style true

theorem head_keyword (style : Style) {name : List Char} (hname : name ≠ [])
    (hchars : ∀ c ∈ name, isDirectiveChar c = true)
    (hcode : codeDirectives.contains (lower (String.ofList name)) = true) :
    Head style ('*' :: (name ++ [':'])) fun cs => code style false (collapse cs) where
  sign := ⟨'*', _, rfl, .inr rfl⟩
  trimmed := by simp [Trimmed, isGap, List.getLast?_cons]
  inline := by
    intro d hd
    simp only [List.mem_cons, List.mem_append, List.not_mem_nil, or_false] at hd
    rcases hd with rfl | hd | rfl
    · rfl
    · exact Source.isInline_of_pos (by decide) (by decide) (hchars d hd)
    · rfl
  layoutContent := by
    intro rest
    have hlayout := layoutContent_directive style hname hchars rest
    rw [argumentSpacing, if_pos hcode] at hlayout
    simpa using hlayout
  respacing := respacing_code_collapse style
  tokensAlike := tokensAlike_code_collapse style

end GuidedTrack.Layout

namespace GuidedTrack.Program

open Layout

variable {e : List Char} {program : Program}

theorem exists_of_map_eq_ok {ε α β : Type} {f : α → β} {x : Except ε α} {b : β}
    (h : x.map f = .ok b) : ∃ a, x = .ok a ∧ f a = b := by
  cases x with
  | error error => cases h
  | ok a => exact ⟨a, rfl, Except.ok.inj h⟩

theorem ofSource_layout_expression (style : Style) (he : ∀ d ∈ e, Source.isInline d = true)
    (h : ofSource (String.ofList ('>' :: '>' :: e)) = .ok (program, [])) :
    ∃ laid, ofSource (String.ofList (layout style ('>' :: '>' :: e))) = .ok (laid, []) ∧
      laid.erase = program.erase := by
  obtain ⟨t, ending, hkept, hending, hlayout⟩ := (head_expression style).layout he
  obtain ⟨stop, hread⟩ := ofSource_expression he (.inl rfl)
  obtain ⟨stop', hread'⟩ := ofSource_expression hkept.inline hending
  rw [List.append_nil, h] at hread
  obtain ⟨⟨value?, faults⟩, hvalue, hprogram⟩ := exists_of_map_eq_ok hread.symm
  obtain ⟨rfl, rfl⟩ := Prod.mk.inj hprogram
  obtain ⟨value, other, rfl, hother, herase⟩ :=
    hkept.reads hvalue .origin (Position.origin.advance 2)
  have hsource : layout style ('>' :: '>' :: e) = '>' :: '>' :: t ++ ending := by
    simpa using hlayout
  refine ⟨_, by rw [hsource, hread', hother]; rfl, ?_⟩
  simp [Program.erase, Statement.eraseList, Statement.erase, herase]

theorem readCode_kept {t : List Char} (hkept : CodeKept e t) {anchor p : Position}
    {value? : Option Expr}
    (h : readCode anchor (Token.scanExpression none p e).1 = .ok (value?, []))
    (anchor' q : Position) :
    ∃ other?, readCode anchor' (Token.scanExpression none q t).1 = .ok (other?, []) ∧
      other?.map Expr.erase = value?.map Expr.erase := by
  cases htokens : (Token.scanExpression none p e).1 with
  | nil =>
    have hgaps := hkept.missing (Token.scanExpression_eq_nil_iff.mp htokens)
    rw [Token.scanExpression_eq_nil_iff.mpr hgaps]
    rw [htokens] at h
    exact ⟨value?, h, rfl⟩
  | cons token tokens =>
    rw [htokens, readCode, ← htokens] at h
    obtain ⟨value, other, rfl, hother, herase⟩ := hkept.reads h anchor' q
    refine ⟨some other, ?_, congrArg some herase⟩
    cases hothers : (Token.scanExpression none q t).1 with
    | nil =>
      rw [hothers] at hother
      exact absurd hother Expr.ofTokens_nil_ne
    | cons token tokens => rw [readCode, ← hothers, hother]

theorem ofSource_layout_keyword (style : Style) {name : List Char} (hname : CodeKeyword name)
    (hchars : ∀ c ∈ name, isDirectiveChar c = true)
    (hcode : codeDirectives.contains (Text.lower (String.ofList name)) = true)
    (he : ∀ d ∈ e, Source.isInline d = true)
    (h : ofSource (String.ofList ('*' :: (name ++ ':' :: e))) = .ok (program, [])) :
    ∃ laid, ofSource (String.ofList (layout style ('*' :: (name ++ ':' :: e)))) = .ok (laid, []) ∧
      laid.erase = program.erase := by
  obtain ⟨t, ending, hkept, hending, hlayout⟩ :=
    (head_keyword style hname.filled hchars hcode).layout he
  obtain ⟨p, last, stop, hread⟩ := ofSource_keyword hname he (.inl rfl)
  obtain ⟨q, last', stop', hread'⟩ := ofSource_keyword hname hkept.inline hending
  rw [List.append_nil, h] at hread
  obtain ⟨⟨value?, faults⟩, hvalue, hprogram⟩ := exists_of_map_eq_ok hread.symm
  obtain ⟨rfl, rfl⟩ := Prod.mk.inj hprogram
  obtain ⟨other?, hother, herase⟩ := readCode_kept hkept hvalue .origin q
  have hsource : layout style ('*' :: (name ++ ':' :: e)) =
      '*' :: (name ++ ':' :: t) ++ ending := by
    simpa using hlayout
  refine ⟨_, by rw [hsource, hread', hother]; rfl, ?_⟩
  have hargument : (other?.map Argument.expr).map Argument.erase =
      (value?.map Argument.expr).map Argument.erase := by
    have hmap := congrArg (Option.map Argument.expr) herase
    simpa [Function.comp_def, Argument.erase] using hmap
  simp only [Program.erase, Statement.eraseList, Statement.erase, hargument]

def expressionKeywords : List String :=
  ["if", "while", "for", "repeat", "set"]

theorem codeKeyword_of_mem {name : String} (h : name ∈ expressionKeywords) :
    CodeKeyword name.toList ∧ (∀ c ∈ name.toList, isDirectiveChar c = true) ∧
      codeDirectives.contains (Text.lower (String.ofList name.toList)) = true := by
  have hall : ∀ name ∈ expressionKeywords,
      name.toList ≠ [] ∧ name.toList.all Token.isNameChar = true ∧
        Text.lower (String.ofList name.toList) = String.ofList name.toList ∧
        Contract.takesExpression (String.ofList name.toList) = true ∧
        name.toList.all isDirectiveChar = true ∧
        codeDirectives.contains (Text.lower (String.ofList name.toList)) = true := by
    decide +kernel
  obtain ⟨filled, chars, lower, takes, directive, code⟩ := hall name h
  rw [List.all_eq_true] at chars directive
  exact ⟨⟨⟨filled, chars, lower⟩, takes⟩, directive, code⟩

/-- Layout keeps the meaning of a line of code: a source that is a `>>`, or a keyword with a colon,
in front of any text is read without faults again once it is laid out, and as the same program. -/
theorem ofSource_format (style : Style) {opening e : String}
    (hopening : opening = ">>" ∨ ∃ name ∈ expressionKeywords, opening = "*" ++ name ++ ":")
    (he : ∀ c ∈ e.toList, Source.isInline c = true) {program : Program}
    (h : ofSource (opening ++ e) = .ok (program, [])) :
    ∃ laid, ofSource (format style (opening ++ e)) = .ok (laid, []) ∧
      laid.erase = program.erase := by
  have hsource : opening ++ e = String.ofList (opening.toList ++ e.toList) := by
    rw [← String.toList_append, String.ofList_toList]
  rw [hsource] at h
  rw [format, hsource, String.toList_ofList]
  rcases hopening with rfl | ⟨name, hname, rfl⟩
  · exact ofSource_layout_expression style he h
  · obtain ⟨hkeyword, hchars, hcode⟩ := codeKeyword_of_mem hname
    have htext : ("*" ++ name ++ ":").toList ++ e.toList =
        '*' :: (name.toList ++ ':' :: e.toList) := by
      simp
    rw [htext] at h ⊢
    exact ofSource_layout_keyword style hkeyword hchars hcode he h

/-- A negative numeral behind an operand, which layout turns into a minus and a numeral. -/
theorem ofSource_format_difference :
    ∃ program, ofSource (">>" ++ "x -1") = .ok (program, []) ∧
      ∃ laid, ofSource (format {} (">>" ++ "x -1")) = .ok (laid, []) ∧
        laid.erase = program.erase := by
  have hinline : ∀ c ∈ "x -1".toList, Source.isInline c = true :=
    List.all_eq_true.mp (by decide)
  obtain ⟨⟨program, faults⟩, hread, hclean⟩ := exists_ok_of_any (ofSource (">>" ++ "x -1"))
    (·.2.isEmpty) (by decide +kernel)
  obtain rfl := List.isEmpty_iff.mp hclean
  exact ⟨program, hread, ofSource_format {} (.inl rfl) hinline hread⟩

end GuidedTrack.Program
