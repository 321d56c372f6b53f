import GuidedTrack.Proofs.OutlineLines
import GuidedTrack.Proofs.Token.ScanFaithfulness
import GuidedTrack.Proofs.Token.WrittenLines
import Mathlib.Data.List.SplitBy

/-! # The lines of a document

The content of a document is cut into lines by where its tokens start. The same lines are in its
outline, each written at its place, and only the first token of a line can be a directive.
-/

namespace GuidedTrack

open List Outline

variable {cs : List Char} {p : Position} {token : Token} {row : List Token} {i : Nat}

namespace Token

open Source Text

def InSource (cs : List Char) (p : Position) : Prop :=
  ∃ i ≤ cs.length, p = place cs i

def contentLines (tokens : List Token) : List (List Token) :=
  (tokens.filter fun token => !token.kind.isStructural).splitBy fun a b =>
    a.span.start.line == b.span.start.line

/-! ## Lines on their own -/

/-- The content of one line. Only the token in front can be a directive. -/
structure Lined (P : Position → Prop) (p : Position) (text : List Char) (tokens : List Token) : Prop
    extends Written P p text tokens where
  leading : ∀ token ∈ tokens.tail, token.kind.isDirective = false

def Kind.isInner (kind : Kind) : Bool :=
  !kind.isStructural && !kind.isDirective

theorem Kind.isInner_of_isLexeme {kind : Kind} (h : kind = .comment ∨ kind.isLexeme = true) :
    kind.isInner = true := by
  rcases h with rfl | h
  · rfl
  · cases kind <;> simp_all [Kind.isLexeme, isInner, isStructural, isDirective]

theorem isInner_scanExpression {depth : Option Nat} (h : token ∈ (scanExpression depth p cs).1) :
    token.kind.isInner = true :=
  Kind.isInner_of_isLexeme ((scans_scanExpression depth p cs).comment_or_isLexeme h)

theorem isInner_prose (h : token ∈ prose p cs) : token.kind.isInner = true := by
  unfold prose at h
  split at h
  · cases h
  · rw [mem_singleton.mp h]
    rfl

theorem isInner_scanText {emphasis : Bool} (h : token ∈ scanText emphasis p cs) :
    token.kind.isInner = true :=
  scanText_closed (R := fun _ _ tokens => ∀ token ∈ tokens, token.kind.isInner = true)
    (fun hfront hback => forall_mem_append.mpr ⟨hfront, hback⟩) (fun _ _ _ => isInner_prose)
    (by rintro _ (rfl | rfl) _ _ <;> simp [covering, Kind.isInner, Kind.isStructural,
        Kind.isDirective])
    (fun hscan _ htoken => Kind.isInner_of_isLexeme (hscan.comment_or_isLexeme htoken))
        emphasis p cs
    token h

theorem Goes.isInner {tokens : List Token} (h : Goes p cs tokens) :
    ∀ token ∈ tokens, token.kind.isInner = true := by
  cases h with
  | code => exact fun _ => isInner_scanExpression
  | prose emphasis => exact fun _ => isInner_scanText

/-- The tokens of a line: one that has content, then tokens that can stand anywhere. -/
theorem kinds_scanContent (depth : Nat) (p : Position) (cs : List Char) :
    (∀ token ∈ scanContent depth p cs, token.kind.isStructural = false) ∧
      ∀ token ∈ (scanContent depth p cs).tail, token.kind.isDirective = false := by
  obtain ⟨front, rest, lead, next, -, heq, hlead, hgoes⟩ := scanContent_cut depth p cs
  have hinner := hgoes.isInner
  simp only [Kind.isInner, Bool.and_eq_true, Bool.not_eq_true'] at hinner
  rw [heq]
  constructor
  · exact forall_mem_append.mpr ⟨fun token htoken => (hlead.content token htoken).1,
      fun token htoken => (hinner token htoken).1⟩
  · cases lead with
    | nil => exact fun token htoken => (hinner token (mem_of_mem_tail htoken)).2
    | cons first lead =>
      exact forall_mem_append.mpr
        ⟨hlead.leading, fun token htoken => (hinner token htoken).2⟩

theorem lined_scanContent {P : Position → Prop} (depth : Nat)
    (hinline : Inline cs) (hplaces : ∀ k ≤ cs.length, P (p.advance k)) :
    Lined P p cs (scanContent depth p cs) where
  row := row_scanContent depth p cs
  inline := hinline
  places := hplaces
  content := (kinds_scanContent depth p cs).1
  leading := (kinds_scanContent depth p cs).2

/-! ## Documents -/

/-- The tokens of a document, line by line from line `n` on. What opens and closes blocks stands
between the lines, and a line break ends every line but the last. -/
inductive LinedDocument (P : Position → Prop) : Int → List (List Token) → List Token → Prop where
  | stop {n : Int} {marks : List Token} {p : Position}
      (closes : ∀ token ∈ marks, token.kind = .dedent)
      (place : P p) : LinedDocument P n [] (marks ++ [mark .endOfInput p])
  | line {n : Int} {p : Position} {text : List Char} {marks row ending rest : List Token}
      {rows : List (List Token)}
      (blocks : ∀ token ∈ marks, token.kind = .indent ∨ token.kind = .dedent)
      (lined : Lined P p text row) (forward : n ≤ p.line)
      (ends : ending = [] ∧ rows = [] ∨ ∃ feed, ending = [feed] ∧ feed.kind = .newline)
      (later : LinedDocument P (p.line + 1) rows rest) :
      LinedDocument P n (row :: rows) (marks ++ (row ++ (ending ++ rest)))

theorem inSource_line {tail : List Char} {line : Line} (h : line.Opens (cs.drop i) tail)
    (hi : i ≤ cs.length) {k : Nat} (hk : k ≤ line.content.length) :
    InSource cs ((place cs i).advance k) := by
  have hle := add_le_of_drop h.text hi
  refine ⟨i + k, by omega, (place_add ?_).symm⟩
  rwa [h.takeWhile_isInline]

theorem indentation_kinds (opened : List Nat) (width : Nat) (lead : List Char) (p : Position) :
    ∀ token ∈ (indentation opened width lead p).1, token.kind = .indent ∨ token.kind = .dedent := by
  unfold indentation
  split
  · exact fun token htoken => .inl (mem_singleton.mp htoken ▸ rfl)
  · intro token htoken
    obtain ⟨_, -, rfl⟩ := mem_map.mp htoken
    exact .inr rfl

def Scanned (cs : List Char) (row : List Token) : Prop :=
  ∃ depth i text tail, row = scanContent depth (place cs i) text ∧ cs.drop i = text ++ tail ∧
    i ≤ cs.length ∧ ∀ c ∈ text, isInline c = true

theorem linedDocument_scanLines (lines : List Line) (opened : List Nat) {n : Int}
    (hlines : Source.lines (cs.drop i) = lines) (hi : i ≤ cs.length) (hbetween : Between cs i)
    (hn : n ≤ (place cs i).line) :
    ∃ rows, LinedDocument (InSource cs) n rows (scanLines opened (place cs i) lines) ∧
      ∀ row ∈ rows, Scanned cs row := by
  induction lines generalizing opened i n with
  | nil => exact ⟨[], .stop (by simp [mark, covering]) ⟨i, hi, rfl⟩, by simp⟩
  | cons line more ih =>
    obtain ⟨tail, hopens, hmore⟩ := opens_of_lines hlines
    obtain ⟨hafter, hnext⟩ := hopens.after_eq hbetween
    have hend : i + line.length ≤ cs.length := by
      have hbound := add_le_of_drop hopens.drop_ending (add_le_of_drop hopens.text hi)
      rw [Line.length]
      omega
    have hrest (opened : List Nat) {m : Int} (hm : m ≤ (place cs (i + line.length)).line) :=
      ih opened (hopens.drop_after ▸ hmore) hend hnext hm
    rw [scanLines]
    dsimp only
    split
    · have hforward : (place cs i).line ≤ (line.after (place cs i)).line := by
        unfold Line.after
        split <;> simp only [Position.advance] <;> omega
      rw [hafter] at hforward ⊢
      exact hrest opened (by omega)
    · have hlead := takeWhile_append_dropWhile (p := isGap) (l := line.content)
      have hlength := congrArg List.length hlead
      rw [length_append] at hlength
      have hlined (depth : Nat) : Lined (InSource cs)
          ((place cs i).advance (line.content.takeWhile isGap).length)
          (line.content.dropWhile isGap) (scanContent depth
            ((place cs i).advance (line.content.takeWhile isGap).length)
            (line.content.dropWhile isGap)) := by
        refine lined_scanContent depth (fun c hc => ?_) fun k hk => ?_
        · exact hopens.inline c ((dropWhile_sublist _).subset hc)
        · rw [Position.advance_advance]
          exact inSource_line hopens hi (by omega)
      have hscanned (depth : Nat) : Scanned cs (scanContent depth
          ((place cs i).advance (line.content.takeWhile isGap).length)
          (line.content.dropWhile isGap)) := by
        have hstart : place cs (i + (line.content.takeWhile isGap).length) =
            (place cs i).advance (line.content.takeWhile isGap).length :=
          place_add (by rw [hopens.takeWhile_isInline]; omega)
        have hdrop : cs.drop (i + (line.content.takeWhile isGap).length) =
            line.content.dropWhile isGap ++ (line.ending ++ tail) := by
          refine drop_add_of_drop_eq ?_
          rw [hopens.text, ← append_assoc (line.content.takeWhile isGap), hlead]
        exact ⟨depth, _, _, _, by rw [hstart], hdrop, by rw [Line.length] at hend; omega,
          fun c hc => hopens.inline c ((dropWhile_sublist _).subset hc)⟩
      have hmarks := indentation_kinds opened (line.content.takeWhile (· == '\t')).length
        (line.content.takeWhile isGap) (place cs i)
      simp only [append_assoc]
      by_cases hending : line.ending = []
      · obtain rfl : more = [] := by
          have htail : tail = [] := by
            have hends := hopens.ends
            rw [hending] at hends
            cases hends
            rfl
          rw [← hmore, htail]
          rfl
        rw [hafter]
        refine ⟨_, .line hmarks (hlined _) hn (.inl ⟨?_, rfl⟩)
          (.stop (by simp [mark, covering]) ⟨_, hend, rfl⟩),
          forall_mem_singleton.mpr (hscanned _)⟩
        simp [lineBreak, hending]
      · have hempty : ¬ line.ending.isEmpty = true := by simpa using hending
        have hbreak : (place cs i).line + 1 ≤ (place cs (i + line.length)).line := by
          have hline : (line.after (place cs i)).line = (place cs i).line + 1 := by
            rw [Line.after, if_neg hempty]
          rw [hafter] at hline
          omega
        rw [hafter]
        obtain ⟨rows, hdocument, hrows⟩ := hrest _ hbreak
        exact ⟨_, .line hmarks (hlined _) hn (.inr ⟨_, if_neg hempty, rfl⟩) hdocument,
          forall_mem_cons.mpr ⟨hscanned _, hrows⟩⟩

theorem length_strays_dedents (opened : List Nat) (p : Position) (outline : Outline) :
    ((opened.map fun _ => mark .dedent p).foldr Outline.cons outline).strays.length =
      opened.length + outline.strays.length := by
  induction opened with
  | nil => simp
  | cons depth opened ih =>
    rw [map_cons, foldr_cons, length_strays_dedent _ rfl, ih, length_cons]
    omega

theorem length_strays_indentation (opened : List Nat) (width : Nat) (lead : List Char)
    (p : Position)
    {outline : Outline}
    (h : outline.strays.length = (indentation opened width lead p).2.length) :
    ((indentation opened width lead p).1.foldr Outline.cons outline).strays.length =
      opened.length := by
  unfold indentation at h ⊢
  split
  · rename_i hwidth
    rw [if_pos hwidth, length_cons] at h
    rw [foldr_cons, foldr_nil, length_strays_indent _ rfl, h,
      Nat.add_sub_cancel]
  · rename_i hwidth
    rw [if_neg hwidth] at h
    dsimp only at h ⊢
    rw [length_strays_dedents, h, ← length_append, takeWhile_append_dropWhile]

/-- Every block that is open at the front is closed by a dedent, and no dedent closes more. -/
theorem length_strays_scanLines (lines : List Line) (opened : List Nat) (p : Position) :
    (ofTokens (scanLines opened p lines)).strays.length = opened.length := by
  induction lines generalizing opened p with
  | nil =>
    rw [scanLines, ofTokens_append (by simp [mark, covering]), length_strays_dedents]
    rfl
  | cons line more ih =>
    rw [scanLines]
    dsimp only
    split
    · exact ih opened _
    · have hkinds (depth : Nat) (start : Position) (body : List Char) :
          ∀ token ∈ scanContent depth start body ++ lineBreak line p,
            token.kind ≠ .endOfInput ∧ token.kind ≠ .indent ∧ token.kind ≠ .dedent := by
        intro token htoken
        rcases mem_append.mp htoken with htoken | htoken
        · have hkind := (kinds_scanContent depth start body).1 token htoken
          refine ⟨?_, ?_, ?_⟩ <;> intro heq <;> rw [heq] at hkind <;> cases hkind
        · simp [kinds_lineBreak line p token htoken]
      rw [append_assoc, append_assoc, ofTokens_append fun token htoken => ?_,
        ← append_assoc,
        ofTokens_append fun token htoken => (hkinds _ _ _ token htoken).1]
      · refine length_strays_indentation _ _ _ _ ?_
        rw [strays_foldr fun token htoken => (hkinds _ _ _ token htoken).2]
        exact ih _ _
      · rcases indentation_kinds _ _ _ _ token htoken with hkind | hkind <;> rw [hkind] <;> decide

theorem strays_ofSource (source : String) : (ofTokens (ofSource source)).strays = [] :=
  length_eq_zero_iff.mp (length_strays_scanLines _ [] _)

theorem linedDocument_ofSource (source : String) :
    ∃ rows, LinedDocument (InSource source.toList) 1 rows (ofSource source) ∧
      ∀ row ∈ rows, Scanned source.toList row := by
  refine linedDocument_scanLines _ [] (by rw [drop_zero]) (Nat.zero_le _) (between_zero _) ?_
  exact Int.le_refl 1

namespace LinedDocument

variable {P : Position → Prop} {n : Int} {rows : List (List Token)} {tokens : List Token}

theorem flatten_eq (h : LinedDocument P n rows tokens) :
    rows.flatten = tokens.filter fun token => !token.kind.isStructural := by
  have hmarks {marks : List Token} (h : ∀ token ∈ marks, token.kind.isStructural = true) :
      (marks.filter fun token => !token.kind.isStructural) = [] := by
    simpa [filter_eq_nil_iff] using h
  induction h with
  | stop closes place =>
    rw [filter_append, hmarks fun token htoken => by rw [closes token htoken]; rfl]
    rfl
  | @line n p text marks row ending rest rows blocks lined forward ends later ih =>
    have hrow : (row.filter fun token => !token.kind.isStructural) = row := by
      simpa [filter_eq_self] using lined.content
    have hending : (ending.filter fun token => !token.kind.isStructural) = [] := by
      rcases ends with ⟨rfl, -⟩ | ⟨feed, rfl, hfeed⟩
      · rfl
      · simp [hfeed, Kind.isStructural]
    have hblocks := hmarks fun token htoken => by
      rcases blocks token htoken with hkind | hkind <;> rw [hkind] <;> rfl
    rw [flatten_cons, ih]
    simp only [filter_append, hrow, hending, hblocks, nil_append]

theorem exists_last (h : LinedDocument P n rows tokens) :
    ∃ p, P p ∧ tokens.getLast? = some (mark .endOfInput p) := by
  induction h with
  | @stop _ marks p closes place => exact ⟨p, place, getLast?_concat⟩
  | line blocks lined forward ends later ih =>
    obtain ⟨p, hp, hlast⟩ := ih
    refine ⟨p, hp, ?_⟩
    simp [getLast?_append, hlast]

theorem lined_of_mem (h : LinedDocument P n rows tokens) (hrow : row ∈ rows) :
    ∃ p text, Lined P p text row ∧ n ≤ p.line := by
  induction h with
  | stop => cases hrow
  | @line n p text marks row ending rest rows blocks lined forward ends later ih =>
    rcases mem_cons.mp hrow with rfl | hrow
    · exact ⟨p, text, lined, forward⟩
    · obtain ⟨q, text, hlined, hq⟩ := ih hrow
      exact ⟨q, text, hlined, by omega⟩

theorem infix_of_mem (h : LinedDocument P n rows tokens) (hrow : row ∈ rows) : row <:+: tokens := by
  induction h with
  | stop => cases hrow
  | @line n p text marks row ending rest rows blocks lined forward ends later ih =>
    rcases mem_cons.mp hrow with rfl | hrow
    · exact ⟨marks, ending ++ rest, by simp⟩
    · refine (ih hrow).trans (IsSuffix.isInfix ?_)
      exact ⟨marks ++ (row ++ ending), by simp⟩

theorem items_of_nil (h : LinedDocument P n [] tokens) : (ofTokens tokens).items = [] := by
  cases h with
  | @stop _ marks p closes place =>
    rw [ofTokens_append fun token htoken => by rw [closes token htoken]; decide]
    cases marks with
    | nil => rfl
    | cons first marks =>
      rw [foldr_cons, Outline.cons, closes first mem_cons_self]

theorem lines_ofTokens (h : LinedDocument P n rows tokens) :
    (ofTokens tokens).lines = rows.filter (· ≠ []) := by
  induction h with
  | stop closes place =>
    rw [ofTokens_append fun token htoken => by rw [closes token htoken]; decide,
      lines_foldr_marks fun token htoken => .inr (closes token htoken)]
    rfl
  | @line n p text marks row ending rest rows blocks lined forward ends later ih =>
    have hcontent : ∀ token ∈ row, token.kind ≠ .endOfInput := fun token htoken hkind => by
      have := lined.content token htoken
      rw [hkind] at this
      cases this
    have hblocks : ∀ token ∈ marks, token.kind ≠ .endOfInput := fun token htoken => by
      rcases blocks token htoken with hkind | hkind <;> rw [hkind] <;> decide
    have hending : ∀ token ∈ ending, token.kind ≠ .endOfInput := by
      rcases ends with ⟨rfl, -⟩ | ⟨feed, rfl, hfeed⟩
      · simp
      · simp [hfeed]
    rw [ofTokens_append hblocks, lines_foldr_marks blocks,
      ofTokens_append hcontent, ofTokens_append hending]
    have hnext : ∃ items, ending.foldr Outline.cons (Outline.ofTokens rest) =
        ⟨items, (Outline.ofTokens rest).strays⟩ ∧ (items = [] ∧ (Outline.ofTokens rest).items = [] ∨
          items = .newline :: (ofTokens rest).items) := by
      rcases ends with ⟨rfl, rfl⟩ | ⟨feed, rfl, hfeed⟩
      · exact ⟨_, rfl, .inl ⟨later.items_of_nil, later.items_of_nil⟩⟩
      · exact ⟨_, by simp [Outline.cons, hfeed], .inr rfl⟩
    obtain ⟨items, hitems, hmore⟩ := hnext
    rw [hitems]
    cases row with
    | nil =>
      rw [filter_cons_of_neg (by simp), ← ih, foldr_nil, Outline.lines, Outline.lines]
      rcases hmore with ⟨rfl, hnil⟩ | rfl
      · rw [hnil]
      · rfl
    | cons first row =>
      rw [filter_cons_of_pos (by simp), ← ih,
        foldr_cons_line hmore lined.content]
      rfl

theorem ascending (h : LinedDocument P n rows tokens) :
    rows.Pairwise fun row other =>
      ∀ s ∈ row, ∀ t ∈ other, s.span.start.line < t.span.start.line := by
  induction h with
  | stop => exact .nil
  | @line n p text marks row ending rest rows blocks lined forward ends later ih =>
    refine .cons (fun other hother s hs t ht => ?_) ih
    obtain ⟨q, text, hlined, hq⟩ := later.lined_of_mem hother
    rw [lined.row.line_eq hs, hlined.row.line_eq ht]
    omega

theorem contentLines_eq (h : LinedDocument P n rows tokens) :
    contentLines tokens = rows.filter (· ≠ []) := by
  have hfilled : ∀ row ∈ rows.filter (· ≠ []), row ≠ [] := fun row hrow => by
    simpa using (mem_filter.mp hrow).2
  rw [contentLines, ← h.flatten_eq, ← flatten_filter_ne_nil]
  refine splitBy_flatten (fun hnil => hfilled [] hnil rfl) (fun row hrow => ?_) ?_
  · obtain ⟨p, text, hlined, -⟩ := h.lined_of_mem (mem_filter.mp hrow).1
    refine (pairwise_of_forall_mem_list fun s hs t ht => ?_).isChain
    simpa using (hlined.row.line_eq hs).trans (hlined.row.line_eq ht).symm
  · refine ((h.ascending.sublist filter_sublist).imp_of_mem ?_).isChain
    intro row other hrow hother hlt
    refine ⟨hfilled row hrow, hfilled other hother, ?_⟩
    have := hlt _ (getLast_mem (hfilled row hrow)) _ (head_mem (hfilled other hother))
    simp only [beq_eq_false_iff_ne]
    omega

end LinedDocument

/-- The lines of a document are scanned one by one, each into tokens in a row. -/
theorem scanned_of_mem_contentLines {source : String} (h : row ∈ contentLines (ofSource source)) :
    Scanned source.toList row ∧ row <:+: ofSource source := by
  obtain ⟨rows, hdocument, hrows⟩ := linedDocument_ofSource source
  rw [hdocument.contentLines_eq] at h
  have hrow := (mem_filter.mp h).1
  exact ⟨hrows row hrow, hdocument.infix_of_mem hrow⟩

/-- All content of a document stands in a row, from its front to the mark at its end. -/
theorem solidChain_ofSource (source : String) :
    ∃ p, InSource source.toList p ∧ (ofSource source).getLast? = some (mark .endOfInput p) ∧
      SolidChain (InSource source.toList) 0 p.offset
        ((ofSource source).filter fun token => !token.kind.isStructural) := by
  obtain ⟨rows, hdocument, -⟩ := linedDocument_ofSource source
  obtain ⟨p, hp, hlast⟩ := hdocument.exists_last
  obtain ⟨hlaid, hordered, -⟩ := (covers_ofSource source).faithful
  have hsplit : ofSource source = (ofSource source).dropLast ++ [mark .endOfInput p] :=
    (dropLast_append_getLast? _ hlast).symm
  refine ⟨p, hp, hlast, chained_of_pairwise ?_ ?_ ?_, fun token htoken => ?_⟩
  · obtain ⟨i, -, rfl⟩ := hp
    exact Int.natCast_nonneg i
  · exact pairwise_map.mpr (hordered.sublist filter_sublist)
  · rw [forall_mem_map]
    intro token htoken
    obtain ⟨hmem, hkind⟩ := mem_filter.mp htoken
    obtain ⟨i, j, hlaid⟩ := hlaid token hmem
    have hstart := hlaid.offset
    have hstop := hlaid.stop
    have hfilled : i < j := by
      refine hlaid.filled ?_ ?_ <;> intro heq <;> rw [heq] at hkind <;> cases hkind
    have hbefore : token.span.stop.offset ≤ p.offset := by
      rw [hsplit] at hmem hordered
      rcases mem_append.mp hmem with hmem | hmem
      · exact (pairwise_append.mp hordered).2.2 token hmem _ mem_cons_self
      · rw [mem_singleton.mp hmem] at hkind
        cases hkind
    omega
  · rw [← hdocument.flatten_eq] at htoken
    obtain ⟨row, hrow, htoken⟩ := mem_flatten.mp htoken
    obtain ⟨q, text, hlined, -⟩ := hdocument.lined_of_mem hrow
    exact hlined.solidChain.solid token htoken

end Token
end GuidedTrack
