import GuidedTrack.Proofs.Rule.LineBrackets
import GuidedTrack.Proofs.Token.PlaceAdvance

/-! # Mended lines

The fixes of one line insert text at one place in it: what closes its brackets and what closes its
string. A line in which no closing bracket meets a wrong one is mended by doing so twice, since what
closes the brackets ends up inside an open string at first.
-/

namespace GuidedTrack.Rule

open List

open Token (Kind Fills Spread Resumes EndsIn Ending)
open Token Position

variable {quote : Char} {body : List Char} {kinds : List Kind} {row tokens : List Token}
  {front cs : List Char} {heads : List Kind} {openers : List Token} {p : Position} {token : Token}

def fixable (reports : List Report) : List Report :=
  reports.filter (·.fix.isSome)

theorem fixable_append (reports others : List Report) :
    fixable (reports ++ others) = fixable reports ++ fixable others :=
  filter_append _ _

/-! ## The check of brackets over a row of tokens -/

def afterToken (openers : List Token) (token : Token) : List Token :=
  if (closerOf? token.kind).isSome then token :: openers
  else if (closerSpelling? token.kind).isSome then openers.tail
  else openers

def endAfter (lineEnd : Int) (token : Token) : Int :=
  if token.kind = .comment then lineEnd else token.span.stop.offset

theorem map_kind_afterToken (openers : List Token) (token : Token) :
    (afterToken openers token).map (·.kind) = afterKind (openers.map (·.kind)) token.kind := by
  unfold afterToken afterKind
  split
  · rfl
  split
  · exact map_tail
  · rfl

theorem map_kind_openers (openers row : List Token) :
    (row.foldl afterToken openers).map (·.kind) =
      openAfter (openers.map (·.kind)) (row.map (·.kind)) := by
  induction row generalizing openers with
  | nil => rfl
  | cons token row ih =>
    rw [foldl_cons, ih, map_kind_afterToken, map_cons, openAfter_cons]

theorem mem_of_mem_openers (h : token ∈ row.foldl afterToken openers) :
    token ∈ openers ∨ token ∈ row := by
  induction row generalizing openers with
  | nil => exact .inl h
  | cons first row ih =>
    rcases ih h with hafter | hrow
    · unfold afterToken at hafter
      split at hafter
      · rcases mem_cons.mp hafter with rfl | hopeners
        · exact .inr mem_cons_self
        · exact .inl hopeners
      split at hafter
      · exact .inl (mem_of_mem_tail hafter)
      · exact .inl hafter
    · exact .inr (mem_cons_of_mem first hrow)

def closerReports (openers : List Token) (token : Token) : List Report :=
  if (closerSpelling? token.kind).isSome then
    match openers with
    | [] => [.ofPosition token.span.start
        s!"Unexpected '{token.text}' without a matching opening bracket"]
    | opener :: _ =>
      if closerOf? opener.kind = some token.kind then []
      else [.ofPosition token.span.start
        s!"Mismatched '{token.text}', expected '{awaited opener}'"]
  else []

theorem bracketReports_stop (h : token.kind.isStructural = true) (openers : List Token)
    (lineEnd : Int) (rest : List Token) :
    bracketReports openers lineEnd (token :: rest) =
      unclosedReports openers.reverse lineEnd ++ bracketReports [] lineEnd rest := by
  rw [bracketReports, if_pos h]

theorem bracketReports_cons (h : token.kind.isStructural = false) (openers : List Token)
    (lineEnd : Int) (rest : List Token) :
    bracketReports openers lineEnd (token :: rest) = closerReports openers token ++
      bracketReports (afterToken openers token) (endAfter lineEnd token) rest := by
  rw [bracketReports, if_neg (by simp [h]), closerReports.eq_def, afterToken]
  dsimp only
  rw [← endAfter]
  split
  · rename_i hopens
    rw [closerSpelling?_opener hopens]
    rfl
  split
  · cases openers with
    | nil => rfl
    | cons opener outer =>
      dsimp only
      split <;> rfl
  · rfl

theorem fix_closerReports (openers : List Token) (token : Token) :
    ∀ report ∈ closerReports openers token, report.fix = none := by
  unfold closerReports
  split
  · split
    · simp [Report.ofPosition]
    · split <;> simp [Report.ofPosition]
  · simp

theorem closerReports_eq_nil_iff :
    closerReports openers token = [] ↔ ((closerSpelling? token.kind).isSome = true →
      (openers.map (·.kind)).head?.bind closerOf? = some token.kind) := by
  cases hcloses : (closerSpelling? token.kind).isSome <;> cases openers <;>
    simp [closerReports, hcloses]

def isMismatch (report : Report) : Bool :=
  "Mismatched".toList.isPrefixOf report.text.toList

def isStray (report : Report) : Bool :=
  "Unexpected".toList.isPrefixOf report.text.toList

theorem closerReports_nil
    (h : ∀ report ∈ closerReports openers token, isMismatch report = false ∧
        isStray report = false) :
    closerReports openers token = [] := by
  unfold closerReports at h ⊢
  split at h
  · split at h
    · simp [isStray, Report.ofPosition, ToString.toString] at h
    · split at h
      · simp_all
      · simp [isMismatch, Report.ofPosition, ToString.toString] at h
  · simp_all

theorem matched_of_closerReports
    (h : ∀ report ∈ closerReports openers token, isMismatch report = false)
    (hcloses : (closerSpelling? token.kind).isSome = true) :
    ∀ opener ∈ (openers.map (·.kind)).head?, closerOf? opener = some token.kind := by
  rw [closerReports.eq_def, if_pos hcloses] at h
  cases openers with
  | nil => simp
  | cons opener outer =>
    dsimp only at h
    split at h
    · rename_i hmatch
      simpa using hmatch
    · simp [isMismatch, Report.ofPosition, ToString.toString] at h

def rowFaults (openers : List Token) : List Token → List Report
  | [] => []
  | token :: row => closerReports openers token ++ rowFaults (afterToken openers token) row

theorem rowFaults_eq_nil_iff :
    rowFaults openers row = [] ↔ Nested (openers.map (·.kind)) (row.map (·.kind)) := by
  induction row generalizing openers with
  | nil => simp [rowFaults, Nested]
  | cons token row ih =>
    rw [rowFaults, append_eq_nil_iff, closerReports_eq_nil_iff, ih, map_kind_afterToken,
      map_cons, Nested]

theorem nested_of_rowFaults
    (h : ∀ report ∈ rowFaults openers row, isMismatch report = false ∧ isStray report = false) :
    Nested (openers.map (·.kind)) (row.map (·.kind)) := by
  refine rowFaults_eq_nil_iff.mp ?_
  induction row generalizing openers with
  | nil => rfl
  | cons token row ih =>
    obtain ⟨htoken, hrow⟩ := forall_mem_append.mp h
    rw [rowFaults, closerReports_nil htoken, ih hrow]
    rfl

theorem matched_of_rowFaults (h : ∀ report ∈ rowFaults openers row, isMismatch report = false) :
    Matched (openers.map (·.kind)) (row.map (·.kind)) := by
  induction row generalizing openers with
  | nil => trivial
  | cons token row ih =>
    obtain ⟨htoken, hrow⟩ := forall_mem_append.mp h
    refine ⟨matched_of_closerReports htoken, ?_⟩
    rw [← map_kind_afterToken]
    exact ih hrow

def closing? (openers : List Token) (lineEnd : Int) : Option Report :=
  openers.getLast?.map fun opener =>
    { Report.ofPosition opener.span.start s!"Unclosed '{opener.text}'" with
      fix := some ⟨lineEnd, lineEnd, String.join (openers.map awaited)⟩ }

theorem fixable_unclosedReports (openers : List Token) (lineEnd : Int) :
    fixable (unclosedReports openers.reverse lineEnd) = (closing? openers lineEnd).toList := by
  rw [closing?, getLast?_eq_head?_reverse, unclosedReports, reverse_reverse]
  cases openers.reverse with
  | nil => rfl
  | cons opener inner =>
    have hlater : ∀ entry ∈ inner.zipIdx 1, entry.2 ≠ 0 := by
      intro entry hentry hzero
      have hle := (mem_zipIdx hentry).1
      omega
    rw [fixable, zipIdx_cons, map_cons, filter_cons_of_pos rfl]
    refine congrArg (_ :: ·) (filter_eq_nil_iff.mpr fun report hreport => ?_)
    obtain ⟨entry, hentry, rfl⟩ := mem_map.mp hreport
    simp [hlater entry hentry]

theorem bracketReports_structural {marks : List Token}
    (h : ∀ token ∈ marks, token.kind.isStructural = true) (lineEnd : Int) (rest : List Token) :
    bracketReports [] lineEnd (marks ++ rest) = bracketReports [] lineEnd rest := by
  induction marks with
  | nil => rfl
  | cons token marks ih =>
    obtain ⟨htoken, hmarks⟩ := forall_mem_cons.mp h
    rw [cons_append, bracketReports_stop htoken, ih hmarks]
    rfl

def Starts (tokens : List Token) : Prop :=
  ∃ stop rest, tokens = stop :: rest ∧ stop.kind.isStructural = true

/-- The check of brackets reports on the closing brackets of a line, then on those left open, and
goes on behind the line. -/
theorem bracketReports_append {after : List Token}
    (hrow : ∀ token ∈ row, token.kind.isStructural = false) (hafter : Starts after)
    (openers : List Token) (lineEnd : Int) :
    bracketReports openers lineEnd (row ++ after) = rowFaults openers row ++
      (unclosedReports (row.foldl afterToken openers).reverse (row.foldl endAfter lineEnd) ++
        bracketReports [] (row.foldl endAfter lineEnd) after) := by
  induction row generalizing openers lineEnd with
  | nil =>
    obtain ⟨stop, rest, rfl, hstop⟩ := hafter
    rw [nil_append, bracketReports_stop hstop, bracketReports_stop hstop]
    rfl
  | cons token row ih =>
    obtain ⟨htoken, hrow⟩ := forall_mem_cons.mp hrow
    rw [cons_append, bracketReports_cons htoken, ih hrow, rowFaults, append_assoc]
    rfl

/-- Over the tokens of a line the check carries one fix at most. -/
theorem fixable_rowFaults (openers : List Token) : fixable (rowFaults openers row) = [] := by
  induction row generalizing openers with
  | nil => rfl
  | cons token row ih =>
    rw [rowFaults, fixable_append, ih, append_nil]
    exact filter_eq_nil_iff.mpr fun report hreport => by
      simp [fix_closerReports openers token report hreport]

/-! ## The fixes of a row -/

def rowReports (lineEnd : Int) (row : List Token) : List Report :=
  (closing? (row.foldl afterToken []) (row.foldl endAfter lineEnd)).toList ++
    row.filterMap unclosedString?

/-- Reports on one line, from left to right, that insert text at one place. -/
inductive Inserts (line place : Int) : Int → List Char → List Report → Prop where
  | nil {column : Int} : Inserts line place column [] []
  | cons {column : Int} {text added : List Char} {report : Report} {reports : List Report}
      (sameLine : report.line = line) (behind : column ≤ report.column)
      (fix : report.fix = some ⟨place, place, String.ofList text⟩)
      (rest : Inserts line place (report.column + 1) added reports) :
      Inserts line place column (text ++ added) (report :: reports)

theorem Inserts.weaken {line place column other : Int} {added : List Char} {reports : List Report}
    (h : Inserts line place column added reports) (hle : other ≤ column) :
    Inserts line place other added reports := by
  cases h with
  | nil => exact .nil
  | cons sameLine behind fix rest => exact .cons sameLine (Int.le_trans hle behind) fix rest

theorem unclosedString?_eq_none (h : token.isOpenString = false) :
    unclosedString? token = none := by
  unfold unclosedString?
  split
  · rename_i quote rest hkind htext
    have hquote : isQuote quote = false := by
      simpa [isOpenString, hkind, htext] using h
    rw [hquote]
    rfl
  · rfl

theorem filterMap_unclosedString? (h : ∀ token ∈ tokens, token.isOpenString = false) :
    tokens.filterMap unclosedString? = [] :=
  filterMap_eq_nil_iff.mpr fun token htoken => unclosedString?_eq_none (h token htoken)

theorem rowReports_of_shuts (h : Shuts [] row) (lineEnd : Int) : rowReports lineEnd row = [] := by
  have hopeners : row.foldl afterToken [] = [] := by
    have hkinds := map_kind_openers [] row
    rw [map_nil, h.1] at hkinds
    exact map_eq_nil_iff.mp hkinds
  rw [rowReports, hopeners, filterMap_unclosedString? h.2]
  rfl

theorem foldl_afterToken_plain (h : ∀ token ∈ tokens, token.kind.isPlain = true)
    (openers : List Token) : tokens.foldl afterToken openers = openers := by
  induction tokens with
  | nil => rfl
  | cons token tokens ih =>
    obtain ⟨htoken, htokens⟩ := forall_mem_cons.mp h
    have hafter : afterToken openers token = openers := by
      unfold afterToken
      cases hkind : token.kind <;> first | rfl | (rw [hkind] at htoken; cases htoken)
    rw [foldl_cons, hafter, ih htokens]

theorem foldl_endAfter_fills (h : Fills p front kinds tokens) (hfilled : front ≠ [])
    (lineEnd : Int) :
    tokens.foldl endAfter lineEnd = p.offset + front.length := by
  have hstop := h.stop
  rw [if_neg hfilled] at hstop
  obtain ⟨last, hlast, hplace⟩ := Option.map_eq_some_iff.mp hstop
  obtain ⟨tokens, rfl⟩ := getLast?_eq_some_iff.mp hlast
  have hkind := (h.inner last (by simp)).2
  rw [foldl_append, foldl_cons, foldl_nil, endAfter, if_neg hkind, hplace]
  rfl

theorem foldl_endAfter_comments (h : ∀ token ∈ tokens, token.kind = .comment) (lineEnd : Int) :
    tokens.foldl endAfter lineEnd = lineEnd := by
  induction tokens with
  | nil => rfl
  | cons token tokens ih =>
    obtain ⟨htoken, htokens⟩ := forall_mem_cons.mp h
    rw [foldl_cons, endAfter, if_pos htoken, ih htokens]

/-- The report that closes the brackets of a row stands in front of those on what follows it. -/
theorem inserts_closing {p : Position} {front : List Char} {kinds : List Kind}
    {tokens rest : List Token} (h : Spread p front kinds tokens)
    (hrest : ∀ token ∈ rest, token.kind.isPlain = true) {place : Int} {added : List Char}
    {reports : List Report}
    (hreports : Inserts p.line place (p.column + front.length) added reports) :
    Inserts p.line place p.column (closers (openAfter [] kinds) ++ added)
      ((closing? ((tokens ++ rest).foldl afterToken []) place).toList ++ reports) := by
  have hkinds := map_kind_openers [] tokens
  rw [h.kinds, map_nil] at hkinds
  rw [foldl_append, foldl_afterToken_plain hrest]
  cases hlast : (tokens.foldl afterToken []).getLast? with
  | none =>
    rw [getLast?_eq_none_iff] at hlast
    rw [hlast, map_nil] at hkinds
    rw [← hkinds, hlast]
    exact hreports.weaken (by omega)
  | some opener =>
    have hmem := mem_of_mem_openers (mem_of_getLast? hlast)
    obtain ⟨n, hn, hstart⟩ := h.within opener (hmem.resolve_left (by simp))
    have htext : String.join ((tokens.foldl afterToken []).map awaited) =
        String.ofList (closers (openAfter [] kinds)) := by
      apply String.toList_inj.mp
      rw [String.toList_ofList, ← hkinds, closers, String.toList_join, flatMap_map,
        flatMap_map]
      rfl
    rw [closing?, hlast, Option.map_some, Option.toList_some, singleton_append, htext]
    have hline : opener.span.start.line = p.line := by rw [hstart, advance]
    have hcolumn : opener.span.start.column = p.column + n := by rw [hstart, advance]
    refine .cons hline ?_ rfl (hreports.weaken ?_)
    all_goals
      simp only [Report.ofPosition, hcolumn]
      omega

theorem inserts_string (hquote : isQuote quote = true) (cs : List Char) (start : Position)
    {column : Int} (hcolumn : column ≤ start.column) :
    let string := spelled .error start (quote :: cs)
    Inserts start.line string.span.stop.offset column [quote]
      ([string].filterMap unclosedString?) := by
  intro string
  have hunclosed : unclosedString? string = some {
      text := "Unclosed string literal", line := start.line, column := start.column,
      endLine := some string.span.stop.line, endColumn := some string.span.stop.column,
      fix := some ⟨string.span.stop.offset, string.span.stop.offset, String.singleton quote⟩ } := by
    simp [unclosedString?, string, spelled, covering, hquote]
  rw [filterMap_cons_some hunclosed, filterMap_nil, ← append_nil [quote]]
  refine .cons rfl hcolumn ?_ .nil
  rw [String.singleton_eq_ofList]

/-! ## Lines that are mended -/

/-- `Mends front added tail`: the fixes of a line whose content is `front ++ tail` insert `added`
between the two, wherever the line stands. -/
structure Mends (front added tail : List Char) : Prop where
  filled : front ≠ []
  inline : ∀ c ∈ added, Source.isInline c = true
  inserts : ∀ depth lineEnd p, Inserts p.line (p.offset + front.length) p.column added
    (rowReports lineEnd (scanContent depth p (front ++ tail)))

theorem mends_of_shuts (hbody : body ≠ [])
    (h : ∀ depth p, Shuts [] (scanContent depth p body)) : Mends body [] [] where
  filled := hbody
  inline := by simp
  inserts depth lineEnd p := by
    rw [append_nil, rowReports_of_shuts (h depth p)]
    exact .nil

theorem isInline_of_isQuote (h : isQuote quote = true) :
    Source.isInline quote = true :=
  Source.isInline_of_pos (by decide) (by decide) h

theorem mem_closers {openers : List Kind} {c : Char} (h : c ∈ closers openers) :
    c = ')' ∨ c = ']' ∨ c = '}' := by
  obtain ⟨kind, -, hc⟩ := mem_flatMap.mp h
  cases kind <;> simp [closerOf?, closerSpelling?] at hc <;> simp [hc]

theorem filter_closers (openers : List Kind) : (closers openers).filter isSignal = [] := by
  refine filter_eq_nil_iff.mpr fun c hc => ?_
  rcases mem_closers hc with rfl | rfl | rfl <;> decide

/-- Closing brackets may be put in front of what ends a line. -/
theorem follows_closers (openers : List Kind) (tail : List Char) :
    Follows tail (closers openers ++ tail) := by
  cases hclosers : closers openers with
  | nil => exact .inl rfl
  | cons c more =>
    have hc : c ∈ closers openers := by simp [hclosers]
    refine .inr ⟨?_, ?_⟩
    · rcases mem_closers hc with rfl | rfl | rfl <;> rfl
    · rw [← hclosers, filter_append, filter_closers, nil_append]

section

variable {inside : Option Nat} {front tail : List Char} {kinds : List Kind}

theorem openAfter_heads (hheads : ∀ kind ∈ heads, kind.isPlain = true) (kinds : List Kind) :
    openAfter [] (heads ++ kinds) = openAfter [] kinds := by
  rw [openAfter_append, openAfter_plains hheads]

theorem isPlain_of_comments (h : ∀ token ∈ tokens, token.kind = .comment) :
    ∀ token ∈ tokens, token.kind.isPlain = true := by
  intro token htoken
  rw [h token htoken]
  rfl

/-- A line that ends in an expression is given the brackets that close it, behind its last lexeme.
-/
theorem mends_endsIn (h : EndsIn inside front tail kinds) (hquiet : Quiet inside tail) :
    Mends front (closers (openAfter [] kinds)) tail where
  filled := h.filled
  inline c hc := by rcases mem_closers hc with rfl | rfl | rfl <;> rfl
  inserts depth lineEnd p := by
    obtain ⟨emphasis, hresumes⟩ := h.resumes
    obtain ⟨heads, hheads, hscan⟩ := hresumes depth
    obtain ⟨tokens, hfills, heq⟩ := hscan tail (.inl rfl) p
    have hcomments := hquiet.scanInside emphasis (p.advance front.length)
    have hinserts := @inserts_closing p front _ tokens _ hfills.toSpread
      (isPlain_of_comments hcomments) (p.offset + front.length) [] [] .nil
    have hclosed := (Shuts.comments hcomments).2
    have hend := foldl_endAfter_comments hcomments (tokens.foldl endAfter lineEnd)
    rw [← foldl_append, foldl_endAfter_fills hfills h.filled] at hend
    rw [heq, rowReports, filterMap_append, filterMap_unclosedString? hfills.closed,
      filterMap_unclosedString? hclosed, hend]
    rwa [openAfter_heads hheads, append_nil] at hinserts

/-- The brackets that stay open are those of the mode in which the line ends, if they match. -/
theorem fits_endsIn (h : EndsIn inside front tail kinds) (hmatched : Matched [] kinds) :
    Fits (.ofDepth inside) (openAfter [] kinds) := by
  rcases h.weaves with hweaves | hweaves
  · exact Fits.weaves hweaves rfl hmatched
  · exact Fits.weaves hweaves (by simp [Fits]) hmatched

/-- Once that is done nothing is open, if the brackets match. -/
theorem shuts_endsIn (h : EndsIn inside front tail kinds) (hquiet : Quiet inside tail)
    (hmatched : Matched [] kinds) (depth : Nat) (p : Position) :
    Shuts [] (scanContent depth p (front ++ (closers (openAfter [] kinds) ++ tail))) := by
  obtain ⟨emphasis, hresumes⟩ := h.resumes
  obtain ⟨heads, hheads, hscan⟩ := hresumes depth
  obtain ⟨tokens, hfills, heq⟩ := hscan _ (follows_closers (openAfter [] kinds) tail) p
  rw [heq]
  refine .append hfills.kinds hfills.closed ?_
  rw [openAfter_heads hheads]
  exact shuts_closers (fits_endsIn h hmatched) hquiet emphasis _

variable {gaps cs : List Char} {quote : Char}

/-- An open string in the line is closed behind the brackets that close the rest. -/
theorem mends_endsIn_string (h : EndsIn inside front (gaps ++ quote :: cs) kinds)
    (hgaps : Text.Gaps gaps) (hquote : isQuote quote = true)
    (hcs : quote ∉ cs) :
    Mends (front ++ (gaps ++ quote :: cs)) (closers (openAfter [] kinds) ++ [quote]) [] where
  filled := by simp
  inline := by
    refine forall_mem_append.mpr ⟨(fun c hc => ?_), ?_⟩
    · rcases mem_closers hc with rfl | rfl | rfl <;> rfl
    · simpa using isInline_of_isQuote hquote
  inserts depth lineEnd p := by
    obtain ⟨emphasis, hresumes⟩ := h.resumes
    obtain ⟨heads, hheads, hscan⟩ := hresumes depth
    obtain ⟨tokens, hfills, heq⟩ := hscan _ (.inl rfl) p
    let start := p.advance (front.length + gaps.length)
    let string := spelled .error start (quote :: cs)
    have hrow : scanContent depth p (front ++ (gaps ++ quote :: cs)) = tokens ++ [string] := by
      rw [heq, scanInside_gaps hgaps, advance_advance,
        scanInside_string hquote hcs]
    have hplace : string.span.stop.offset = p.offset + (front ++ (gaps ++ quote :: cs)).length := by
      simp [string, start, spelled, covering, advance]
      omega
    have hstart : p.column + front.length ≤ start.column := by
      simp only [start, advance]
      omega
    have hplain : ∀ token ∈ [string], token.kind.isPlain = true := by
      intro token htoken
      rw [mem_singleton.mp htoken]
      rfl
    have hinserts := inserts_closing hfills.toSpread hplain (inserts_string hquote cs start hstart)
    have hend : (tokens ++ [string]).foldl endAfter lineEnd = string.span.stop.offset := by
      rw [foldl_append, foldl_cons, foldl_nil, endAfter]
      rfl
    rw [append_nil, hrow, rowReports, filterMap_append,
      filterMap_unclosedString? hfills.closed, nil_append, hend, ← hplace]
    rwa [openAfter_heads hheads] at hinserts

theorem endsIn_string (h : EndsIn inside front (gaps ++ quote :: cs) kinds)
    (hgaps : Text.Gaps gaps) (hquote : isQuote quote = true)
    {more : List Char} (hmore : quote ∉ more)
    (hsignals : more.filter isSignal = cs.filter isSignal) :
    EndsIn inside (front ++ (gaps ++ quote :: (more ++ [quote]))) [] (kinds ++ [.string]) where
  filled := by simp
  trails := .nil
  weaves := h.weaves.imp (·.append (.plain rfl .nil)) (·.append (.plain rfl .nil))
  resumes := by
    obtain ⟨emphasis, hresumes⟩ := h.resumes
    refine ⟨emphasis, fun depth => ?_⟩
    obtain ⟨heads, hheads, hscan⟩ := hresumes depth
    refine ⟨heads, hheads, fun other hother p => ?_⟩
    have hfollows : Follows (gaps ++ quote :: cs)
        (gaps ++ quote :: (more ++ [quote]) ++ other) := by
      refine .inr ⟨?_, ?_⟩
      · cases gaps with
        | nil => simp [isStop, hquote]
        | cons c gaps => simp [isStop, hgaps c mem_cons_self]
      · have hplain : isSignal quote = false := by
          have hchar : quote = '"' ∨ quote = '\'' := by simpa [isQuote] using hquote
          rcases hchar with rfl | rfl <;> rfl
        have hother := hother.filter_eq
        simp [hplain, hsignals, hother]
    obtain ⟨tokens, hfills, heq⟩ := hscan _ hfollows p
    obtain ⟨last, hlast, hstring⟩ := (passes_string hquote hmore inside other).scanInside
      emphasis (p.advance (front.length + gaps.length))
    have hbehind : Fills (p.advance front.length) (gaps ++ quote :: (more ++ [quote])) [.string]
        last := by
      rw [← advance_advance] at hlast
      exact (Spread.nil gaps).fills hlast (cons_ne_nil _ _)
    refine ⟨tokens ++ last, by simpa using hfills.append hbehind, ?_⟩
    rw [append_assoc, heq, append_assoc gaps, scanInside_gaps hgaps,
      advance_advance, hstring, append_assoc]
    simp [advance_advance, Nat.add_assoc]

end

theorem mends_quoted (hquote : isQuote quote = true) (hcs : quote ∉ cs) :
    Mends (quote :: cs) [quote] [] where
  filled := cons_ne_nil _ _
  inline := by simpa using isInline_of_isQuote hquote
  inserts depth lineEnd p := by
    have hrow : scanContent depth p (quote :: cs) = [spelled .error p (quote :: cs)] := by
      rw [scanContent_quoted hquote, scanQuoted, quotedLexeme_open hcs]
      simp [scanText_nil]
    rw [append_nil, hrow]
    exact inserts_string hquote cs p (Int.le_refl _)

theorem shuts_quoted (hquote : isQuote quote = true) (hcs : quote ∉ cs) (depth : Nat)
    (p : Position) : Shuts [] (scanContent depth p (quote :: (cs ++ [quote]))) := by
  have hlexeme := quotedLexeme_closed hcs []
  rw [append_nil] at hlexeme
  rw [scanContent_quoted hquote, scanQuoted, hlexeme]
  simp only [take_length, drop_length, scanText_nil]
  exact ⟨rfl, by simp [isOpenString, spelled, covering]⟩

def Mended (body mended : List Char) : Prop :=
  ∃ front added tail, body = front ++ tail ∧ mended = front ++ (added ++ tail) ∧
    Mends front added tail

theorem mended_of_shuts (hbody : body ≠ [])
    (h : ∀ depth p, Shuts [] (scanContent depth p body)) : Mended body body :=
  ⟨body, [], [], by simp, by simp, mends_of_shuts hbody h⟩

theorem matched_of_heads {others : List Kind} (hheads : ∀ kind ∈ heads, kind.isPlain = true)
    (h : Matched [] (heads ++ kinds ++ others)) : Matched [] kinds := by
  have hkinds := (matched_append.mp (matched_append.mp h).1).2
  rwa [openAfter_plains hheads] at hkinds

/-- A line that ends in an expression is mended in two passes at most. -/
theorem exists_mended_endsIn {inside : Option Nat} {tail : List Char}
    (h : EndsIn inside front tail kinds) (hmatched : Matched [] kinds) :
    ∃ once twice, Mended (front ++ tail) once ∧ Mended once twice ∧ Mended twice twice := by
  rcases h.trails.cases with hquiet | ⟨gaps, quote, cs, rfl, hgaps, hquote, hcs⟩
  · have hstable := mended_of_shuts (by simp [h.filled]) (shuts_endsIn h hquiet hmatched)
    exact ⟨_, _, ⟨front, _, tail, rfl, rfl, mends_endsIn h hquiet⟩, hstable, hstable⟩
  · -- the brackets land inside the string at first, and behind it once it is closed
    have hmore : quote ∉ cs ++ closers (openAfter [] kinds) := by
      intro hmem
      rcases mem_append.mp hmem with hmem | hmem
      · exact hcs hmem
      · rcases mem_closers hmem with rfl | rfl | rfl <;> cases hquote
    have hsignals : (cs ++ closers (openAfter [] kinds)).filter isSignal =
        cs.filter isSignal := by
      rw [filter_append, filter_closers, append_nil]
    have hends := endsIn_string h hgaps hquote hmore hsignals
    have hkinds : Matched [] (kinds ++ [.string]) :=
      matched_append.mpr ⟨hmatched, by simp [Matched, closerSpelling?]⟩
    have hquiet : Quiet inside [] := .inl (by simp)
    have hstable := mended_of_shuts (by simp [h.filled]) (shuts_endsIn hends hquiet hkinds)
    refine ⟨_, _, ⟨_, _, [], (append_nil _).symm, rfl, mends_endsIn_string h hgaps hquote hcs⟩,
      ⟨_, _, [], ?_, rfl, mends_endsIn hends hquiet⟩, hstable⟩
    simp

/-- Every line whose brackets match is mended in two passes at most. -/
theorem exists_mended (hending : Ending body) (hbody : body ≠ []) {depth : Nat}
    (hmatched : Matched [] ((scanContent depth p body).map (·.kind))) :
    ∃ once twice, Mended body once ∧ Mended once twice ∧ Mended twice twice := by
  cases hending with
  | @comment cs =>
    have hstable : Mended ('-' :: '-' :: cs) ('-' :: '-' :: cs) := by
      refine mended_of_shuts hbody fun depth p => ?_
      exact .comments (by simp [scanContent, comment, covering])
    exact ⟨_, _, hstable, hstable, hstable⟩
  | @string quote cs hquote hcs =>
    have hstable : Mended (quote :: (cs ++ [quote])) (quote :: (cs ++ [quote])) :=
      mended_of_shuts (cons_ne_nil _ _) (shuts_quoted hquote hcs)
    exact ⟨_, _, ⟨quote :: cs, [quote], [], by simp, by simp, mends_quoted hquote hcs⟩, hstable,
      hstable⟩
  | @closed _ kinds hweaves hspread =>
    obtain ⟨heads, hheads, hscan⟩ := hspread depth
    have hkinds : Matched [] kinds := by
      rw [(hscan p).kinds] at hmatched
      exact matched_of_heads hheads (by rwa [append_nil])
    have hstable : Mended body body := by
      refine mended_of_shuts hbody fun depth p => ?_
      obtain ⟨heads, hheads, hscan⟩ := hspread depth
      refine ⟨?_, (hscan p).closed⟩
      rw [(hscan p).kinds, openAfter_heads hheads]
      exact Fits.weaves hweaves rfl hkinds
    exact ⟨_, _, hstable, hstable, hstable⟩
  | @inside inside front tail kinds hends =>
    obtain ⟨emphasis, hresumes⟩ := hends.resumes
    obtain ⟨heads, hheads, hscan⟩ := hresumes depth
    obtain ⟨tokens, hfills, heq⟩ := hscan tail (.inl rfl) p
    rw [heq, map_append, hfills.kinds] at hmatched
    exact exists_mended_endsIn hends (matched_of_heads hheads hmatched)

/-! ## Balanced rows -/

/-- Every closing bracket closes the innermost open one, and none is left open. -/
def Balanced : List Kind → List Kind → Prop
  | openers, [] => openers = []
  | openers, kind :: rest =>
    ((closerSpelling? kind).isSome = true → openers.head?.bind closerOf? = some kind) ∧
      Balanced (afterKind openers kind) rest

end GuidedTrack.Rule
