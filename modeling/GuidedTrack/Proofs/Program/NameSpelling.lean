import GuidedTrack.Proofs.Expr.LeafOrigins
import GuidedTrack.Proofs.Program.NodeOrigins
import GuidedTrack.Proofs.Program.RespelledWords
import GuidedTrack.Proofs.Program.SpanNesting

/-! # Names and numbers as they stand in the source

An argument that was scanned as prose is spelled anew and scanned again, and so is what stands
between the braces of a string. Neither touches a name or a number: each is, in the tree, the text
of the source between its two offsets.
-/

namespace GuidedTrack

open Text Source List GuidedTrack.Expr

variable {heading : Heading} {piece : List Char} {before after : List Fault} {rest : List Token}
  {first : Token}

namespace Token

variable {source cs ds a b : List Char} {p : Position} {token : Token} {tokens : List Token}

/-- The text `cs` stands in the source at `p`, on one line. -/
structure Found (source : List Char) (p : Position) (cs : List Char) : Prop where
  drop : ∃ (i : Nat) (tail : List Char), p.offset = i ∧ i ≤ source.length ∧
    source.drop i = cs ++ tail
  inline : ∀ c ∈ cs, isInline c = true

namespace Found

theorem left (h : Found source p (a ++ b)) : Found source p a where
  drop := by
    obtain ⟨i, tail, hp, hi, hdrop⟩ := h.drop
    exact ⟨i, b ++ tail, hp, hi, by rw [hdrop, append_assoc]⟩
  inline := (forall_mem_append.mp h.inline).1

theorem right (h : Found source p (a ++ b)) : Found source (p.advance a.length) b where
  drop := by
    obtain ⟨i, tail, hp, hi, hdrop⟩ := h.drop
    rw [append_assoc] at hdrop
    refine ⟨i + a.length, tail, ?_, add_le_of_drop hdrop hi, drop_add_of_drop_eq hdrop⟩
    simp [Position.advance, hp]
  inline := (forall_mem_append.mp h.inline).2

theorem slice_eq (h : Found source p cs) :
    slice source p.offset (p.advance cs.length).offset = cs := by
  obtain ⟨i, tail, hp, hi, hdrop⟩ := h.drop
  simpa [Position.advance, hp] using slice_eq_of_drop hdrop hi

end Found

/-- What the source says where a token stands: the token's own text, for a name or a number, and for
a string a text that may be spelled as the token's. -/
structure Echo (source : List Char) (token : Token) (piece : List Char) : Prop where
  found : Found source token.span.start piece
  stop : token.span.stop = token.span.start.advance piece.length
  plain : token.kind = .identifier ∨ token.kind = .number → token.text.toList = piece
  string : token.kind = .string → Respells piece token.text.toList

theorem Found.echo (h : Found source p piece) (hspan : token.span = ⟨p, p.advance piece.length⟩)
    (plain : token.kind = .identifier ∨ token.kind = .number → token.text.toList = piece)
    (string : token.kind = .string → Respells piece token.text.toList) :
    Echo source token piece := by
  refine ⟨?_, ?_, plain, string⟩
  · rwa [hspan]
  · rw [hspan]

theorem Row.echo (h : Row p cs tokens) (hfound : Found source p cs) :
    ∀ token ∈ tokens, ∃ piece, Echo source token piece := by
  induction h with
  | nil => simp
  | @blank p c cs tokens hblank rest ih => exact ih (Found.right (a := [c]) hfound)
  | @token p token piece cs tokens span spells filled kind rest ih =>
    have hverbatim (hkind : token.kind = .identifier ∨ token.kind = .number ∨
        token.kind = .string) : token.text.toList = piece := by
      refine Eq.symm ?_
      rcases hkind with hkind | hkind | hkind <;> simpa only [Spells, hkind] using spells
    refine forall_mem_cons.mpr ⟨⟨piece, hfound.left.echo span ?_ ?_⟩, ih hfound.right⟩
    · exact fun hkind => hverbatim (hkind.imp_right .inl)
    · exact fun hkind => hverbatim (.inr (.inr hkind)) ▸ .refl _
  | @mark p kind cs tokens empty rest ih =>
    refine forall_mem_cons.mpr ⟨⟨[], ?_⟩, ih hfound⟩
    refine (Found.left (a := []) hfound).echo rfl ?_ ?_ <;>
      rcases empty with rfl | rfl <;> simp [Token.mark, covering]

theorem Lexes.identifier {c : Char} {lex tail : List Char} (h : Lexes c lex tail .identifier) :
    IsWord (c :: lex) ∧ isWordOperator (c :: lex) = false := by
  obtain ⟨start, first, more, hname⟩ := h.of_kind
  exact ⟨⟨c, lex, rfl, by simp [isWordStart, start, first.digit], more⟩, hname⟩

/-- What is scanned out of a text that is spelled anew is what the source says. -/
theorem Scans.echo {depth : Option Nat} {n : Nat} (h : Scans depth p ds tokens n)
    (hsame : Respells cs ds) (hfound : Found source p cs) :
    ∀ token ∈ tokens, ∃ piece, Echo source token piece := by
  induction h generalizing cs with
  | nil | close => simp
  | @gap depth p c ds tokens n gap rest ih =>
    have hstart : isWordStart c = false := by
      simp only [isGap, Bool.or_eq_true, beq_iff_eq] at gap
      rcases gap with rfl | rfl <;> decide
    obtain ⟨x, y, rfl, hx, hy⟩ := hsame.split (a := [c]) rfl (.inr (.inr (by simpa using hstart)))
    refine ih hy ?_
    simpa [← hx.length_eq] using hfound.right
  | @comment p ds =>
    refine forall_mem_singleton.mpr ⟨cs, hfound.echo ?_ ?_ ?_⟩
    · rw [← hsame.length_eq]
      rfl
    all_goals simp [Token.comment, covering]
  | @lexeme depth p c lex tail kind tokens n gap lexes close dashes rest ih =>
    obtain ⟨x, y, rfl, hx, hy⟩ := hsame.split (a := c :: lex) rfl lexes.parts
    have hlength : x.length = lex.length + 1 := hx.length_eq.symm
    refine forall_mem_cons.mpr ⟨⟨x, hfound.left.echo ?_ ?_ ?_⟩, ih hy ?_⟩
    · rw [hlength]
      rfl
    · rintro (rfl | rfl)
      · obtain ⟨hword, hname⟩ := lexes.identifier
        simpa [lexemeText, covering] using (hx.eq_of_isWord hword hname).symm
      · simpa [lexemeText, covering] using (hx.eq_of_plain lexes.wordless).symm
    · rintro rfl
      simpa [lexemeText, covering] using hx
    · exact hlength ▸ hfound.right

/-- What stands between two braces of a string is what the source says. -/
theorem Echo.embedded {content : List Char} {place : Nat} (h : Echo source token piece)
    (hkind : token.kind = .string)
    (hpiece : Expr.Piece.braced place content ∈ pieces 0 (unquoted token.text)) :
    ∀ inner ∈ embedded token place content, ∃ piece, Echo source inner piece := by
  obtain ⟨before, after, hcut, rfl⟩ := (outermost_pieces _ _).split hpiece
  -- Both quotes are there, as something stands between them.
  obtain ⟨c, d, htext⟩ : ∃ c d, token.text.toList =
      (c :: before ++ ['{']) ++ (content ++ ('}' :: after ++ [d])) := by
    unfold unquoted at hcut
    cases hchars : token.text.toList with
    | nil => simp [hchars] at hcut
    | cons c more =>
      rw [hchars, List.tail_cons] at hcut
      have hmore : more ≠ [] := by
        rintro rfl
        simp at hcut
      have hlast := dropLast_append_getLast hmore
      rw [hcut] at hlast
      refine ⟨c, more.getLast hmore, ?_⟩
      simpa using hlast.symm
  have hopen : Parts (c :: before ++ ['{']) (content ++ ('}' :: after ++ [d])) :=
    .inr (.inl (by rw [getLast?_concat]; simp; decide))
  have hclose : Parts content ('}' :: after ++ [d]) := .inl (by simp; decide)
  obtain ⟨x, rest, rfl, hx, hrest⟩ := (h.string hkind).split htext hopen
  obtain ⟨y, z, rfl, hy, -⟩ := hrest.split rfl hclose
  have hlength : x.length = 0 + before.length + 1 + 1 := by simpa using hx.length_eq.symm
  have hfound := h.found.right.left
  rw [hlength] at hfound
  rw [embedded, dropLast_ofExpression (hy.inline hfound.inline)]
  exact (scans_scanExpression none _ content).echo hy hfound

theorem Echo.within {inner : Token} (h : Echo source token piece) (hinner : Within token inner) :
    ∃ piece, Echo source inner piece := by
  induction hinner with
  | self => exact ⟨piece, h⟩
  | inside around kind hpiece hmem ih =>
    obtain ⟨piece, hecho⟩ := ih
    exact hecho.embedded kind hpiece _ hmem

/-! ## Arguments spelled anew -/

theorem Retold.gaps
    (h : Retold (p.advance (cs.takeWhile isGap).length) (cs.dropWhile isGap) tokens) :
    Retold p cs tokens := by
  rw [← takeWhile_append_dropWhile (p := isGap) (l := cs)]
  exact .blanks (fun c hc => isBlank_of_isGap (mem_takeWhile_imp hc)) h

theorem retold_scanArgument (kind : Kind) (name : String) (p : Position) (cs : List Char) :
    Retold p cs (scanArgument kind name p cs) := by
  refine .gaps ?_
  unfold scanArgument
  dsimp only
  split
  · have hscan := scans_scanExpression none (p.advance (cs.takeWhile isGap).length)
      (cs.dropWhile isGap)
    exact hscan.retold_whole (hscan.stop.resolve_right (by simp))
  · exact retold_scanText _ _ _

theorem retold_scanDirective (depth : Nat) (p : Position) (cs : List Char) :
    ∃ front back, '*' :: cs = front ++ back ∧
      Retold (p.advance front.length) back (scanDirective depth p cs).tail := by
  refine ⟨'*' :: cs.takeWhile isNameChar, cs.dropWhile isNameChar, by simp, ?_⟩
  rw [scanDirective, List.tail_cons, length_cons]
  generalize cs.takeWhile isNameChar = name, cs.dropWhile isNameChar = after
  split
  · rename_i more
    exact .mark (by decide) (by decide) (retold_scanArgument _ _ _ _)
  · exact .gaps (retold_scanText true _ _)

/-- What stands behind the name of a directive, as it stands in the source. -/
theorem Scanned.retold (h : Scanned source (first :: rest))
    (hkind : first.kind.isDirective = true) :
    ∃ p cs, Retold p cs rest ∧ Found source p cs := by
  obtain ⟨depth, i, text, tail, hrow, hdrop, hi, hinline⟩ := h
  have hfound : Found source (place source i) text := ⟨⟨i, tail, rfl, hi, hdrop⟩, hinline⟩
  have hbegins := begins_scanContent depth (place source i) text
  rw [← hrow] at hbegins
  generalize hall : first :: rest = tokens at hbegins
  cases hbegins with
  | nil => cases hall
  | comment | expression =>
    cases hall
    cases hkind
  | directive more =>
    obtain ⟨front, back, hcut, hretold⟩ := retold_scanDirective depth (place source i) more
    rw [← hall, List.tail_cons] at hretold
    rw [hcut] at hfound
    exact ⟨_, back, hretold, hfound.right⟩
  | @quoted c more quote =>
    obtain ⟨rfl, -⟩ := List.cons.inj hall
    change (quotedLexeme c more).1.isDirective = true at hkind
    rcases quotedLexeme_kind c more with heq | heq <;> rw [heq] at hkind <;> cases hkind
  | prose c more =>
    have hinner := isInner_scanText (hall ▸ mem_cons_self)
    rw [Kind.isInner, hkind, Bool.not_true, Bool.and_false] at hinner
    cases hinner

theorem Scanned.echo {row : List Token} (h : Scanned source row) :
    ∀ token ∈ row, ∃ piece, Echo source token piece := by
  obtain ⟨depth, i, text, tail, rfl, hdrop, hi, hinline⟩ := h
  exact (row_scanContent depth _ text).echo ⟨⟨i, tail, rfl, hi, hdrop⟩, hinline⟩

/-- The tokens of an expression argument, also if it is scanned anew. -/
theorem Retold.expressionTokens {colon : Token} (h : Retold p cs (colon :: first :: rest))
    (hfound : Found source p cs)
    (hecho : ∀ token ∈ first :: rest, ∃ piece, Echo source token piece) :
    ∀ token ∈ Program.expressionTokens first rest, ∃ piece, Echo source token piece := by
  unfold Program.expressionTokens
  dsimp only
  split
  · obtain ⟨front, back, rfl, hback⟩ := h.behind
    obtain ⟨blanks, text, rfl, hstart, htext⟩ := hback.uncons
    have hfound := hfound.right.right
    rw [← hstart] at hfound
    obtain ⟨n, hspelled⟩ := htext.spelling
    have hparts : Parts (Program.spelling first.span.start.offset (first :: rest)).toList
        (replicate n ' ') := .inl fun c hc => by
      rw [eq_of_mem_replicate (mem_of_mem_head? hc)]
      decide
    obtain ⟨x, y, rfl, hx, -⟩ := hspelled.split rfl hparts
    have hfound := hfound.left
    have hcode := dropLast_ofExpression (hx.inline hfound.inline) first.span.start
    rw [String.ofList_toList] at hcode
    rw [hcode]
    exact (scans_scanExpression none _ _).echo hx hfound
  · exact hecho

end Token

namespace Program

/-- A name or a number is the text of the source where it stands. -/
def Echoes (source : List Char) : Node → Prop
  | .expr (.identifier name) =>
    name.text.toList = slice source name.span.start.offset name.span.stop.offset
  | .expr (.literal span (.number _) raw) =>
    raw.toList = slice source span.start.offset span.stop.offset
  | _ => True

theorem seeds_of_echo {source : List Char} {token : Token} (h : token.Echo source piece) :
    Seeds (Echoes source) token where
  number hkind n := by
    rw [Echoes, h.stop, h.found.slice_eq, h.plain (.inr hkind)]
  negated raw n hnegates := by
    have hpiece : piece = ['-'] ++ raw.toList := (h.plain (.inr hnegates.1)).symm.trans hnegates.2
    have hfound := h.found
    rw [hpiece] at hfound
    have hslice := hfound.right.slice_eq
    rw [Position.advance_advance, ← length_append, ← hpiece, ← h.stop] at hslice
    exact hslice.symm
  identifier hkind := by
    rw [Echoes, h.stop, h.found.slice_eq, h.plain (.inl hkind)]
  plain _ := trivial
  interpolated _ _ _ _ := trivial

/-! ## Lines -/

section

variable {Q : Node → Prop} (hmade : ∀ node : Node, node.isLeaf = false → Q node)

include hmade

/-- What holds of all leaves that tokens can give holds of all that prose embeds. -/
theorem deep_readParts {cursor : Option Int} {text : String} {tokens : List Token}
    {parts : List Part} (h : (readParts cursor text tokens).run before = .ok (parts, after))
    (hseeds : ∀ token ∈ tokens, ∀ other, Expr.Within token other → Expr.Seeds Q other) :
    ∀ node ∈ Node.ofParts parts, node.Deep Q := by
  have hvalue {anchor : Position} {inner : List Token} {value? : Option Expr} {faults : List Fault}
      {text : String} (h : Expr.ofTokens false anchor inner = .ok (value?, faults))
      (hinner : ∀ token ∈ inner, ∀ other, Within token other → Seeds Q other) :
      ∀ node ∈ Node.ofParts (textPart text ++ value?.toList.map .expr), node.Deep Q := by
    rw [ofParts_append, ofParts_textPart]
    cases value? with
    | none => simp [Node.ofParts]
    | some value => exact forall_mem_singleton.mpr (deep_of_ofTokens hmade h hinner)
  induction tokens using parts_induction generalizing cursor text before parts with
  | nil =>
    rw [readParts] at h
    cases h
    rw [ofParts_textPart]
    simp
  | comment token rest hkind ih =>
    rw [readParts_comment _ _ _ hkind] at h
    exact ih h (forall_mem_cons.mp hseeds).2
  | plain token rest hcomment hstart ih =>
    rw [readParts_plain _ _ _ hcomment hstart] at h
    exact ih h (forall_mem_cons.mp hseeds).2
  | unclosed token inner hkind hinner =>
    rw [readParts_open _ _ hkind hinner] at h
    obtain ⟨value?, mid, hread, h⟩ := exists_of_run_bind h
    obtain ⟨faults, htree, rfl⟩ := run_readExpr hread
    obtain ⟨_, mid, hrecord, h⟩ := exists_of_run_bind h
    cases h
    exact hvalue htree (forall_mem_cons.mp hseeds).2
  | hole token inner close more hkind hinner hclose ih =>
    rw [readParts_hole _ _ hkind hinner hclose] at h
    obtain ⟨value?, mid, hread, h⟩ := exists_of_run_bind h
    obtain ⟨faults, htree, rfl⟩ := run_readExpr hread
    obtain ⟨others, mid, hothers, h⟩ := exists_of_run_bind h
    cases h
    obtain ⟨hinside, hmore⟩ := forall_mem_append.mp (forall_mem_cons.mp hseeds).2
    rw [ofParts_append]
    exact forall_mem_append.mpr
      ⟨hvalue htree hinside, ih hothers (forall_mem_cons.mp hmore).2⟩

theorem deep_readProse {text : Prose} (h : (readProse first rest).run before = .ok (text, after))
    (hseeds : ∀ token ∈ first :: rest, ∀ other, Within token other → Seeds Q other) :
    ∀ node ∈ Node.ofParts text.parts, node.Deep Q := by
  obtain ⟨parts, mid, hparts, h⟩ := exists_of_run_bind h
  cases h
  exact deep_readParts hmade hparts hseeds

/-- What holds of all leaves that the tokens of a line can give, those of an argument scanned anew
included, holds of all that stands in the line. -/
theorem Heads.deep {parent : Option String} {line : List Token}
    (h : Heads parent first line before heading after)
    (hseeds : ∀ token ∈ first :: line, ∀ other, Within token other → Seeds Q other)
    (hargument : ∀ colon head rest, first.kind.isDirective = true → line = colon :: head :: rest →
      ∀ token ∈ expressionTokens head rest, ∀ other, Within token other → Seeds Q other) :
    ∀ part ∈ heading.parts, part.Deep Q := by
  have hprose {text : Prose} (h : ∀ node ∈ Node.ofParts text.parts, node.Deep Q) :
      (Node.prose text).Deep Q := Node.deep_iff.mpr ⟨hmade _ rfl, h⟩
  have hdirective {parent : Option String} {name : String} {argument : Option Argument}
      {before after : List Fault} (hkind : first.kind.isDirective = true)
      (reads : (readArgument parent name first line).run before = .ok (argument, after)) :
      ∀ part ∈ argument.toList.map Node.ofArgument, part.Deep Q := by
    rcases argument_cases reads with rfl | ⟨colon, head, rest, rfl, -, hcases⟩
    · simp
    · rcases hcases with ⟨value?, faults, htree, -, rfl⟩ | ⟨prose, hread, -, rfl⟩
      · cases value? with
        | none => simp
        | some value =>
          exact forall_mem_singleton.mpr
            (deep_of_ofTokens hmade htree (hargument colon head rest hkind rfl))
      · exact forall_mem_singleton.mpr (hprose (deep_readProse hmade hread
          fun token htoken => hseeds token (mem_cons_of_mem _ (mem_cons_of_mem _ htoken))))
  cases h with
  | comment kind => simp [Heading.parts, Block.ofStatement, Node.children]
  | @expression value? faults kind tree =>
    cases value? with
    | none => simp [Heading.parts]
    | some value =>
      exact forall_mem_singleton.mpr
        (deep_of_ofTokens hmade tree (forall_mem_cons.mp hseeds).2)
  | keyword kind reads | stray kind alone reads | subKeyword kind owned reads =>
    exact hdirective (by rw [kind]; rfl) reads
  | answer kind owned reads =>
    exact forall_mem_singleton.mpr (hprose (deep_readProse hmade reads hseeds))
  | prose kind alone reads =>
    have hparts := deep_readProse hmade reads hseeds
    simpa [Heading.parts, Block.ofStatement, Node.children] using hparts

end

theorem Heading.isLeaf_nodes {start stop : Position} {inner : List Node} :
    ∀ node ∈ heading.nodes start stop inner, node.isLeaf = false := by
  cases heading with
  | complete whole =>
    refine forall_mem_append.mpr ⟨?_, ?_⟩ <;> exact forall_mem_map.mpr fun _ _ => rfl
  | _ => exact forall_mem_singleton.mpr rfl

/-- In the tree of a source every name and every number is the text of the source where it stands.
-/
theorem ofSource_echoes {source : String} {program : Program} {faults : List Fault}
    (h : ofSource source = .ok (program, faults)) :
    ∀ node ∈ (Node.program program).walk, Echoes source.toList node := by
  have hmade : ∀ node : Node, node.isLeaf = false → Echoes source.toList node := by
    intro node hleaf
    unfold Echoes
    split <;> trivial
  obtain ⟨items, stop, hreading⟩ := reading_ofSource h
  refine Node.forall_mem_walk.mpr ⟨trivial, ?_⟩
  refine hreading.reads.forall_mem_walk (List.Subset.refl faults) ?_
  intro parent first line before heading after inner start stop hline hheads _ _
  rw [hreading.lines] at hline
  have hscanned := (Token.scanned_of_mem_contentLines hline).1
  have hseeds {token : Token} (hecho : ∃ piece, token.Echo source.toList piece) (other : Token)
      (hwithin : Expr.Within token other) : Expr.Seeds (Echoes source.toList) other := by
    obtain ⟨piece, hecho⟩ := hecho
    obtain ⟨_, hinner⟩ := hecho.within hwithin
    exact seeds_of_echo hinner
  refine ⟨fun node hnode => hmade node (Heading.isLeaf_nodes node hnode), ?_⟩
  refine hheads.deep hmade (fun token htoken => hseeds (hscanned.echo token htoken)) ?_
  rintro colon head rest hkind rfl token htoken
  obtain ⟨p, cs, hretold, hfound⟩ := hscanned.retold hkind
  refine hseeds (hretold.expressionTokens hfound (fun token htoken => ?_) token htoken)
  exact hscanned.echo token (mem_cons_of_mem _ (mem_cons_of_mem _ htoken))

/-- An argument of a sub-keyword that is scanned anew: behind a tab and an operator in capitals a
name stands where it did, and so does the number split off behind it. -/
theorem ofSource_echoes_respelled :
    ∃ program faults, ofSource "*question\n\t*default: b\tOR x-1" = .ok (program, faults) ∧
      ((Node.program program).walk.filter Node.isLeaf).map (·.span.start.offset) = [21, 26, 28] ∧
      ∀ node ∈ (Node.program program).walk,
        Echoes "*question\n\t*default: b\tOR x-1".toList node := by
  obtain ⟨⟨program, faults⟩, hread, hleaves⟩ := exists_ok_of_any
    (ofSource "*question\n\t*default: b\tOR x-1") (fun result =>
      ((Node.program result.1).walk.filter Node.isLeaf).map (·.span.start.offset) == [21, 26, 28])
    (by decide +kernel)
  exact ⟨program, faults, hread, eq_of_beq hleaves, ofSource_echoes hread⟩

end Program
end GuidedTrack
