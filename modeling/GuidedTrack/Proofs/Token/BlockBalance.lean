import GuidedTrack.Proofs.Token.LineTokens

/-! # Blocks

Which blocks a line opens and closes is decided by its tabs and by the widths of the blocks that are
open before it. The widths always rise from the outermost block to the innermost, so there are as
many open blocks as indents without their dedents, and a directive stands inside a block exactly if
such an indent stands before it.
-/

namespace GuidedTrack

open List Vocabulary

variable {line : Line} {before : List Line} {opened : List Nat} {cs : List Char}
  {rest blanks : List Line} {token : Token}

namespace Source.Line

open Text

def width (line : Line) : Nat :=
  (line.content.takeWhile (· == '\t')).length

def lead (line : Line) : List Char :=
  line.content.takeWhile isGap

def body (line : Line) : List Char :=
  line.content.dropWhile isGap

end Source.Line

namespace Token

open Source Text

def blocksAfter (opened : List Nat) (line : Line) : List Nat :=
  if line.body.isEmpty then opened
  else if currentDepth opened < line.width then line.width :: opened
  else opened.dropWhile (line.width < ·)

def openBlocks (lines : List Line) : List Nat :=
  lines.foldl blocksAfter []

def lineTokens (opened : List Nat) (p : Position) (line : Line) : List Token :=
  if line.body.isEmpty then []
  else
    (indentation opened line.width line.lead p).1 ++
      scanContent (currentDepth (blocksAfter opened line)) (p.advance line.lead.length) line.body ++
      lineBreak line p

def linesTokens (opened : List Nat) (p : Position) : List Line → List Token
  | [] => []
  | line :: rest =>
    lineTokens opened p line ++ linesTokens (blocksAfter opened line) (line.after p) rest

def afterLines (p : Position) (lines : List Line) : Position :=
  lines.foldl (fun p line => line.after p) p

theorem offset_after (line : Line) (p : Position) :
    (line.after p).offset = p.offset + line.length := by
  rw [Line.after]
  split
  · rename_i hnil
    rw [Line.length, List.isEmpty_iff.mp hnil]
    rfl
  · rfl

theorem blocksAfter_of_body (h : line.body ≠ []) (opened : List Nat) (lead : List Char)
    (p : Position) : blocksAfter opened line = (indentation opened line.width lead p).2 := by
  have hfilled : ¬ line.body.isEmpty = true := by simpa using h
  rw [blocksAfter, if_neg hfilled, indentation]
  split <;> rfl

theorem scanLines_cons (opened : List Nat) (p : Position) (line : Line) (rest : List Line) :
    scanLines opened p (line :: rest) =
      lineTokens opened p line ++ scanLines (blocksAfter opened line) (line.after p) rest := by
  rw [scanLines]
  by_cases hbody : line.body = []
  · have hempty : line.body.isEmpty = true := List.isEmpty_iff.mpr hbody
    rw [lineTokens, blocksAfter, if_pos hempty, if_pos hempty]
    exact if_pos hempty
  · have hfilled : ¬ line.body.isEmpty = true := by simpa using hbody
    rw [lineTokens, if_neg hfilled, blocksAfter_of_body hbody opened line.lead p,
      append_assoc]
    refine (if_neg hfilled).trans ?_
    simp only [Line.width, Line.lead, Line.body, append_assoc]

/-- The scan of some lines is the scan of the first of them, resumed with the blocks they leave
open. -/
theorem scanLines_append (opened : List Nat) (p : Position) (lines rest : List Line) :
    scanLines opened p (lines ++ rest) =
      linesTokens opened p lines ++
        scanLines (lines.foldl blocksAfter opened) (afterLines p lines) rest := by
  induction lines generalizing opened p with
  | nil => rfl
  | cons line lines ih =>
    rw [cons_append, scanLines_cons, ih, linesTokens, append_assoc]
    rfl

theorem getLast?_lineTokens (hending : line.ending ≠ []) (opened : List Nat) (p : Position) :
    ∀ token ∈ (lineTokens opened p line).getLast?, token.kind = .newline := by
  unfold lineTokens
  split
  · simp
  · have hfilled : ¬ line.ending.isEmpty = true := by simpa using hending
    rw [lineBreak, if_neg hfilled, getLast?_concat]
    intro token htoken
    rw [← Option.some.inj htoken]
    rfl

theorem getLast?_linesTokens {lines : List Line} (hendings : ∀ line ∈ lines, line.ending ≠ [])
    (opened : List Nat) (p : Position) :
    ∀ token ∈ (linesTokens opened p lines).getLast?, token.kind = .newline := by
  induction lines generalizing opened p with
  | nil => simp [linesTokens]
  | cons line lines ih =>
    obtain ⟨hending, hrest⟩ := forall_mem_cons.mp hendings
    intro token htoken
    rw [linesTokens, getLast?_append] at htoken
    cases hlast : (linesTokens (blocksAfter opened line) (line.after p) lines).getLast? with
    | none =>
      rw [hlast] at htoken
      exact getLast?_lineTokens hending opened p token htoken
    | some last =>
      rw [hlast] at htoken
      obtain rfl := Option.some.inj htoken
      exact ih hrest _ _ last hlast

theorem ending_of_cons {first : Line} {more : List Line} (hfirst : first.ending ≠ [])
    (h : first :: more = before ++ line :: rest)
    (hmore : ∀ {before : List Line}, more = before ++ line :: rest →
      ∀ other ∈ before, other.ending ≠ []) : ∀ other ∈ before, other.ending ≠ [] := by
  cases before with
  | nil => simp
  | cons other before =>
    obtain ⟨rfl, hrest⟩ := List.cons.inj h
    exact forall_mem_cons.mpr ⟨hfirst, hmore hrest⟩

theorem ending_of_lines (h : Source.lines cs = before ++ line :: rest) :
    ∀ other ∈ before, other.ending ≠ [] := by
  fun_induction Source.lines cs generalizing before with
  | case1 => simp at h
  | case2 cs ih | case3 cs hcs ih | case4 cs ih => exact ending_of_cons (by simp) h ih
  | case5 c cs hboth hcarriage hfeed hnil ih =>
    cases before with
    | nil => simp
    | cons other before => simp at h
  | case6 c cs hboth hcarriage hfeed first more hlines ih =>
    cases before with
    | nil => simp
    | cons other before =>
      obtain ⟨rfl, hmore⟩ := List.cons.inj h
      have hrest := forall_mem_cons.mp (ih (hlines.trans (congrArg (first :: ·) hmore)))
      exact forall_mem_cons.mpr hrest

/-! ## Outlines -/

section

open Outline

theorem ofTokens_scanLines_nil (opened : List Nat) (p : Position) :
    ofTokens (scanLines opened p []) =
      (opened.map fun _ => mark .dedent p).foldr Outline.cons ⟨[], []⟩ := by
  have hmarks : ∀ token ∈ opened.map fun _ => mark .dedent p, token.kind ≠ .endOfInput := by
    rw [forall_mem_map]
    intro _ _
    exact (by decide : Kind.dedent ≠ .endOfInput)
  rw [scanLines, Outline.ofTokens_append hmarks]
  rfl

theorem items_scanLines_nil (opened : List Nat) (p : Position) :
    (ofTokens (scanLines opened p [])).items = [] := by
  rw [ofTokens_scanLines_nil]
  cases opened <;> rfl

def rowItems : List Token → List Item
  | [] => [.newline]
  | first :: rest => [.line first rest]

theorem ofTokens_scanLines_cons {row : List Token} {p : Position} (hbody : line.body ≠ [])
    (hrow : scanContent (currentDepth (blocksAfter opened line)) (p.advance line.lead.length)
      line.body = row) (hlast : line.ending = [] → rest = [] ∧ row ≠ []) :
    let behind := ofTokens (scanLines (blocksAfter opened line) (line.after p) rest)
    ofTokens (scanLines opened p (line :: rest)) =
      (indentation opened line.width line.lead p).1.foldr Outline.cons
        ⟨rowItems row ++ behind.items, behind.strays⟩ := by
  intro behind
  have hfilled : ¬ line.body.isEmpty = true := by simpa using hbody
  have hcontent : ∀ token ∈ row, token.kind.isStructural = false := by
    rw [← hrow]
    exact (kinds_scanContent _ _ _).1
  have hinput : ∀ token ∈ row, token.kind ≠ .endOfInput := by
    intro token htoken hkind
    have hstructural := hcontent token htoken
    rw [hkind] at hstructural
    cases hstructural
  have hmarks : ∀ token ∈ (indentation opened line.width line.lead p).1,
      token.kind ≠ .endOfInput := by
    intro token htoken
    rcases indentation_kinds _ _ _ _ token htoken with hkind | hkind <;> rw [hkind] <;> decide
  have hbreak : ∀ token ∈ lineBreak line p, token.kind ≠ .endOfInput := by
    intro token htoken
    rw [kinds_lineBreak line p token htoken]
    decide
  rw [scanLines_cons, lineTokens, if_neg hfilled, hrow, append_assoc, append_assoc,
    ofTokens_append hmarks, ofTokens_append hinput, ofTokens_append hbreak]
  congr 1
  by_cases hending : line.ending = []
  · obtain ⟨hrest, hsome⟩ := hlast hending
    obtain ⟨first, more, rfl⟩ := exists_cons_of_ne_nil hsome
    have hnil : behind.items = [] := by
      simp only [behind, hrest]
      exact items_scanLines_nil _ _
    rw [lineBreak, if_pos (isEmpty_iff.mpr hending), foldr_nil]
    exact foldr_cons_line (.inl ⟨hnil, hnil⟩) hcontent
  · have hsome : ¬ line.ending.isEmpty = true := by simpa using hending
    have hnext : (lineBreak line p).foldr Outline.cons behind =
        ⟨.newline :: behind.items, behind.strays⟩ := by
      rw [lineBreak, if_neg hsome]
      rfl
    rw [hnext]
    cases row with
    | nil => rfl
    | cons first more => exact foldr_cons_line (.inr rfl) hcontent

end

/-! ## Widths -/

/-- The widths of open blocks rise strictly from the margin to the innermost block. -/
def Rising (opened : List Nat) : Prop :=
  (opened ++ [0]).Pairwise (· > ·)

theorem Rising.le_currentDepth (h : Rising opened) :
    ∀ depth ∈ opened ++ [0], depth ≤ currentDepth opened := by
  intro depth hdepth
  cases opened with
  | nil =>
    rw [mem_singleton.mp hdepth]
    exact Nat.zero_le _
  | cons top outer =>
    rcases mem_cons.mp hdepth with rfl | houter
    · exact Nat.le_refl _
    · exact Nat.le_of_lt ((pairwise_cons.mp h).1 depth houter)

theorem Rising.currentDepth_pos (h : Rising opened) :
    0 < currentDepth opened ↔ 0 < opened.length := by
  cases opened with
  | nil => exact Iff.rfl
  | cons top outer =>
    have htop : 0 < top := (pairwise_cons.mp h).1 0 (by simp)
    exact ⟨fun _ => Nat.succ_pos _, fun _ => htop⟩

theorem Rising.blocksAfter (h : Rising opened) (line : Line) :
    Rising (blocksAfter opened line) := by
  unfold Token.blocksAfter
  split
  · exact h
  · split
    · rename_i hdeeper
      refine pairwise_cons.mpr ⟨?_, h⟩
      intro depth hdepth
      have := h.le_currentDepth depth hdepth
      omega
    · exact List.Pairwise.sublist ((dropWhile_sublist _).append_right [0]) h

theorem rising_foldl (h : Rising opened) (lines : List Line) :
    Rising (lines.foldl blocksAfter opened) := by
  induction lines generalizing opened with
  | nil => exact h
  | cons line lines ih => exact ih (h.blocksAfter line)

theorem rising_nil : Rising [] :=
  pairwise_singleton _ 0

theorem rising_openBlocks (lines : List Line) : Rising (openBlocks lines) :=
  rising_foldl rising_nil lines

/-! ## Nesting -/

/-- Tokens that are read with `n` blocks open and leave `m` open. No dedent closes what is not open,
and a directive is a sub-keyword exactly if its name is one and a block is open. -/
inductive Nests : Nat → List Token → Nat → Prop where
  | nil {n : Nat} : Nests n [] n
  | indent {n m : Nat} {token : Token} {tokens : List Token} (kind : token.kind = .indent)
      (rest : Nests (n + 1) tokens m) : Nests n (token :: tokens) m
  | dedent {n m : Nat} {token : Token} {tokens : List Token} (kind : token.kind = .dedent)
      (rest : Nests n tokens m) : Nests (n + 1) (token :: tokens) m
  | inside {n m : Nat} {token : Token} {tokens : List Token}
      (kind : token.kind ≠ .indent ∧ token.kind ≠ .dedent ∧ token.kind ≠ .endOfInput)
      (directive : token.kind.isDirective = true →
        (token.kind = .subKeyword ↔ token.text ∈ subKeywords ∧ 0 < n))
      (rest : Nests n tokens m) : Nests n (token :: tokens) m

def countKind (kind : Kind) (tokens : List Token) : Nat :=
  tokens.countP (·.kind = kind)

namespace Nests

variable {n k m : Nat} {front back tokens : List Token}

theorem append (hfront : Nests n front k) (hback : Nests k back m) : Nests n (front ++ back) m := by
  induction hfront with
  | nil => exact hback
  | indent kind rest ih => exact .indent kind (ih hback)
  | dedent kind rest ih => exact .dedent kind (ih hback)
  | inside kind directive rest ih => exact .inside kind directive (ih hback)

theorem split (h : Nests n (front ++ back) m) : ∃ k, Nests n front k ∧ Nests k back m := by
  induction front generalizing n with
  | nil => exact ⟨n, .nil, h⟩
  | cons token front ih =>
    cases h with
    | indent kind rest =>
      obtain ⟨k, hfront, hback⟩ := ih rest
      exact ⟨k, .indent kind hfront, hback⟩
    | dedent kind rest =>
      obtain ⟨k, hfront, hback⟩ := ih rest
      exact ⟨k, .dedent kind hfront, hback⟩
    | inside kind directive rest =>
      obtain ⟨k, hfront, hback⟩ := ih rest
      exact ⟨k, .inside kind directive hfront, hback⟩

/-- What is open in the end is what was open before and has been opened but not closed since. -/
theorem countKind_eq (h : Nests n tokens m) :
    n + countKind .indent tokens = m + countKind .dedent tokens := by
  unfold countKind
  induction h with
  | nil => rfl
  | indent kind rest ih | dedent kind rest ih =>
    simp only [countP_cons, kind, decide_true, if_true, reduceCtorEq, decide_false,
      Bool.false_eq_true, if_false]
    omega
  | inside kind directive rest ih =>
    simp only [countP_cons, kind.1, kind.2.1, decide_false, Bool.false_eq_true, if_false]
    omega

theorem ne_endOfInput (h : Nests n tokens m) : ∀ token ∈ tokens, token.kind ≠ .endOfInput := by
  induction h with
  | nil => simp
  | indent kind rest ih | dedent kind rest ih => exact forall_mem_cons.mpr ⟨by simp [kind], ih⟩
  | inside kind directive rest ih => exact forall_mem_cons.mpr ⟨kind.2.2, ih⟩

theorem level (hkinds : ∀ token ∈ tokens,
      token.kind ≠ .indent ∧ token.kind ≠ .dedent ∧ token.kind ≠ .endOfInput)
    (hdirectives : ∀ token ∈ tokens, token.kind.isDirective = true →
      (token.kind = .subKeyword ↔ token.text ∈ subKeywords ∧ 0 < n)) :
    Nests n tokens n := by
  induction tokens with
  | nil => exact .nil
  | cons token tokens ih =>
    obtain ⟨hkind, hrest⟩ := forall_mem_cons.mp hkinds
    obtain ⟨hdirective, hlater⟩ := forall_mem_cons.mp hdirectives
    exact .inside hkind hdirective (ih hrest hlater)

end Nests

theorem nests_dedents (closed outer : List Nat) (p : Position) :
    Nests (closed ++ outer).length (closed.map fun _ => mark .dedent p) outer.length := by
  induction closed with
  | nil => exact .nil
  | cons depth closed ih => exact .dedent rfl ih

theorem directiveKind_eq_subKeyword (name : String) (depth : Nat) :
    directiveKind name depth = .subKeyword ↔
      name ∈ subKeywords ∧ 0 < depth := by
  unfold directiveKind
  split
  · rename_i h
    simp only [Bool.and_eq_true, decide_eq_true_eq, contains_iff_mem] at h
    exact ⟨fun _ => ⟨h.2, by omega⟩, fun _ => rfl⟩
  · rename_i h
    simp only [Bool.and_eq_true, decide_eq_true_eq, contains_iff_mem, not_and] at h
    constructor
    · intro hkind
      cases hkind
    · rintro ⟨hname, hdepth⟩
      exact absurd hname (h (by omega))

theorem directive_scanContent {depth : Nat} {p : Position} (h : token ∈ scanContent depth p cs)
    (hdirective : token.kind.isDirective = true) :
    token.kind = .subKeyword ↔ token.text ∈ subKeywords ∧ 0 < depth := by
  obtain ⟨front, rest, lead, next, -, heq, hlead, hgoes⟩ := scanContent_cut depth p cs
  rw [heq] at h
  rcases mem_append.mp h with h | h
  · rw [hlead.directive token h hdirective]
    exact directiveKind_eq_subKeyword _ _
  · have hinner := hgoes.isInner token h
    simp [Kind.isInner, hdirective] at hinner

theorem nests_lineTokens (h : Rising opened) (p : Position) (line : Line) :
    Nests opened.length (lineTokens opened p line) (blocksAfter opened line).length := by
  by_cases hbody : line.body = []
  · simp only [lineTokens, blocksAfter, hbody, isEmpty_nil, if_true]
    exact .nil
  have hrising := h.blocksAfter line
  have hblocks := blocksAfter_of_body hbody opened line.lead p
  have hfilled : line.body.isEmpty = false := by simpa using hbody
  have hindentation : Nests opened.length (indentation opened line.width line.lead p).1
      (blocksAfter opened line).length := by
    rw [hblocks]
    unfold indentation
    split
    · exact .indent rfl .nil
    · have hclosed := nests_dedents (opened.takeWhile (line.width < ·))
        (opened.dropWhile (line.width < ·)) (p.advance line.lead.length)
      rwa [takeWhile_append_dropWhile] at hclosed
  simp only [lineTokens, hfilled, Bool.false_eq_true, if_false]
  refine (hindentation.append (.level ?_ ?_)).append (.level ?_ ?_)
  · intro token htoken
    have hkind := (kinds_scanContent _ _ _).1 token htoken
    refine ⟨?_, ?_, ?_⟩ <;> intro heq <;> rw [heq] at hkind <;> cases hkind
  · intro token htoken hdirective
    rw [directive_scanContent htoken hdirective, hrising.currentDepth_pos]
  · intro token htoken
    simp [kinds_lineBreak line p token htoken]
  · intro token htoken hdirective
    rw [kinds_lineBreak line p token htoken] at hdirective
    cases hdirective

theorem nests_scanLines (h : Rising opened) (p : Position) (lines : List Line) :
    ∃ front stop, scanLines opened p lines = front ++ [stop] ∧ stop.kind = .endOfInput ∧
      Nests opened.length front 0 := by
  induction lines generalizing opened p with
  | nil =>
    have hclosed := nests_dedents opened [] p
    rw [append_nil] at hclosed
    exact ⟨_, _, rfl, rfl, hclosed⟩
  | cons line lines ih =>
    obtain ⟨front, stop, hscan, hstop, hnests⟩ := ih (h.blocksAfter line) (line.after p)
    refine ⟨lineTokens opened p line ++ front, stop, ?_, hstop, ?_⟩
    · rw [scanLines_cons, hscan, append_assoc]
    · exact (nests_lineTokens h p line).append hnests

theorem nests_linesTokens (h : Rising opened) (p : Position) (lines : List Line) :
    Nests opened.length (linesTokens opened p lines) (lines.foldl blocksAfter opened).length := by
  induction lines generalizing opened p with
  | nil => exact .nil
  | cons line lines ih =>
    exact (nests_lineTokens h p line).append (ih (h.blocksAfter line) (line.after p))

/-! ## Documents -/

/-- The tokens of a source with its blocks in order: one mark at the end, no dedent before its
indent and none missing, widths that rise from the margin at every line, and directives that are
sub-keywords exactly if their name is one and a block is open. -/
structure Blocked (source : String) (tokens : List Token) : Prop where
  ends : ∃ front stop, tokens = front ++ [stop] ∧ stop.kind = .endOfInput ∧
    ∀ token ∈ front, token.kind ≠ .endOfInput
  closes : ∀ front, front <+: tokens → countKind .dedent front ≤ countKind .indent front
  balanced : countKind .dedent tokens = countKind .indent tokens
  rising : ∀ done rest, Source.lines source.toList = done ++ rest →
    (openBlocks done ++ [0]).Pairwise (· > ·) ∧
      ∃ front p, tokens = front ++ scanLines (openBlocks done) p rest ∧
        countKind .indent front = countKind .dedent front + (openBlocks done).length
  directives : ∀ before token after, tokens = before ++ token :: after →
    token.kind.isDirective = true →
      ∃ name, slice source.toList token.span.start.offset token.span.stop.offset = '*' :: name ∧
        (token.kind = .subKeyword ↔ lower (String.ofList name) ∈ subKeywords ∧
          countKind .dedent before < countKind .indent before)

theorem countKind_append (kind : Kind) (front back : List Token) :
    countKind kind (front ++ back) = countKind kind front + countKind kind back :=
  countP_append

theorem exists_name {source : String} (h : token ∈ ofSource source)
    (hdirective : token.kind.isDirective = true) :
    ∃ name, slice source.toList token.span.start.offset token.span.stop.offset = '*' :: name ∧
      lower (String.ofList name) = token.text := by
  obtain ⟨i, j, hlaid⟩ := (covers_ofSource source).faithful.laid token h
  have hspells := hlaid.spells
  have hstart : token.span.start.offset = i := by
    rw [hlaid.start]
    rfl
  rw [hstart, hlaid.stop]
  cases hkind : token.kind <;> simp_all [Kind.isDirective, Spells]

theorem blocked_ofSource (source : String) : Blocked source (ofSource source) := by
  obtain ⟨front, stop, hscan, hstop, hnests⟩ :=
    nests_scanLines rising_nil .origin (Source.lines source.toList)
  have htokens : ofSource source = front ++ [stop] := hscan
  have hends : ∀ kind, kind ≠ .endOfInput → countKind kind [stop] = 0 := by
    intro kind hkind
    simp [countKind, hstop, Ne.symm hkind]
  refine ⟨⟨front, stop, htokens, hstop, hnests.ne_endOfInput⟩, ?_, ?_, ?_, ?_⟩
  · intro start hstart
    rw [htokens] at hstart
    -- the mark at the end neither opens nor closes a block
    rcases prefix_concat_iff.mp hstart with rfl | ⟨rest, rfl⟩
    · have hcount := hnests.countKind_eq
      rw [countKind_append, countKind_append, hends _ (by decide), hends _ (by decide)]
      simp only [length_nil] at hcount
      omega
    · obtain ⟨k, hbefore, -⟩ := hnests.split
      have hcount := hbefore.countKind_eq
      simp only [length_nil] at hcount
      omega
  · have hcount := hnests.countKind_eq
    rw [htokens, countKind_append, countKind_append, hends _ (by decide), hends _ (by decide)]
    simp only [length_nil] at hcount
    omega
  · intro done rest hlines
    refine ⟨rising_openBlocks done, linesTokens [] .origin done, afterLines .origin done, ?_, ?_⟩
    · rw [ofSource, hlines, scanLines_append, openBlocks]
    · have hcount := (nests_linesTokens rising_nil .origin done).countKind_eq
      rw [openBlocks]
      simp only [length_nil] at hcount
      omega
  · intro before token after hsplit hdirective
    obtain ⟨name, hname, hlower⟩ := exists_name (hsplit ▸ mem_append_right before
      mem_cons_self) hdirective
    refine ⟨name, hname, ?_⟩
    rw [hlower]
    have hinside : ∃ rest, front = before ++ token :: rest := by
      rcases eq_nil_or_concat after with rfl | ⟨rest, last, rfl⟩
      · have hlast := (append_inj' (htokens.symm.trans hsplit) rfl).2
        rw [← (List.cons.inj hlast).1, hstop] at hdirective
        cases hdirective
      · rw [concat_eq_append, ← cons_append, ← append_assoc] at hsplit
        exact ⟨rest, (append_inj' (htokens.symm.trans hsplit) rfl).1⟩
    obtain ⟨rest, rfl⟩ := hinside
    obtain ⟨k, hbefore, hrest⟩ := hnests.split
    have hcount := hbefore.countKind_eq
    simp only [length_nil] at hcount
    cases hrest with
    | indent kind | dedent kind => simp [kind, Kind.isDirective] at hdirective
    | inside kind directive rest =>
      rw [directive hdirective]
      exact and_congr_right fun _ => by omega

/-! ## Lines of one width -/

/-- The tokens that open or close blocks in front of a line after some lines. -/
def blockTokens (before : List Line) (line : Line) : List Token :=
  (indentation (openBlocks before) line.width line.lead (afterLines .origin before)).1

def contentTokens (before : List Line) (line : Line) : List Token :=
  scanContent (currentDepth (openBlocks (before ++ [line])))
    ((afterLines .origin before).advance line.lead.length) line.body

theorem openBlocks_concat (before : List Line) (line : Line) :
    openBlocks (before ++ [line]) = blocksAfter (openBlocks before) line := by
  rw [openBlocks, foldl_append]
  rfl

theorem openBlocks_blanks (h : ∀ line ∈ blanks, line.body = []) (before : List Line) :
    openBlocks (before ++ blanks) = openBlocks before := by
  induction blanks generalizing before with
  | nil => rw [append_nil]
  | cons line blanks ih =>
    obtain ⟨hline, hblanks⟩ := forall_mem_cons.mp h
    have hempty : line.body.isEmpty = true := List.isEmpty_iff.mpr hline
    rw [append_cons, ih hblanks, openBlocks_concat, blocksAfter, if_pos hempty]

theorem linesTokens_blanks (h : ∀ line ∈ blanks, line.body = []) (opened : List Nat)
    (p : Position) :
    linesTokens opened p blanks = [] := by
  induction blanks generalizing opened p with
  | nil => rfl
  | cons line blanks ih =>
    obtain ⟨hline, hblanks⟩ := forall_mem_cons.mp h
    have hempty : line.body.isEmpty = true := List.isEmpty_iff.mpr hline
    rw [linesTokens, ih hblanks, lineTokens, if_pos hempty, append_nil]

/-- The scan of a document up to a line that is not blank, that line, and the scan after it. -/
theorem scanLines_split (h : line.body ≠ []) (before rest : List Line) :
    scanLines (openBlocks before) (afterLines .origin before) (line :: rest) =
      blockTokens before line ++ (contentTokens before line ++
        (lineBreak line (afterLines .origin before) ++
          scanLines (openBlocks (before ++ [line]))
              (afterLines .origin (before ++ [line])) rest)) := by
  have hfilled : ¬ line.body.isEmpty = true := by simpa using h
  rw [scanLines_cons, lineTokens, if_neg hfilled, ← openBlocks_concat, blockTokens, contentTokens,
    append_assoc, append_assoc, afterLines, afterLines, foldl_append]
  rfl

theorem currentDepth_le_width (h : line.body ≠ []) (opened : List Nat) :
    currentDepth (blocksAfter opened line) ≤ line.width := by
  have hfilled : ¬ line.body.isEmpty = true := by simpa using h
  rw [blocksAfter, if_neg hfilled]
  split
  · exact Nat.le_refl _
  · cases hrest : opened.dropWhile (line.width < ·) with
    | nil => exact Nat.zero_le _
    | cons top outer =>
      have htop := head?_dropWhile_not (line.width < ·) opened
      rw [hrest] at htop
      simpa [currentDepth] using htop

/-- A line that is not blank has the width of the innermost open block exactly if a block of its
width is open behind it, the margin counted as one. -/
theorem currentDepth_eq_width (h : line.body ≠ []) (before : List Line) :
    currentDepth (openBlocks (before ++ [line])) = line.width ↔
      line.width ∈ openBlocks (before ++ [line]) ++ [0] := by
  constructor
  · intro hdepth
    rw [← hdepth]
    cases openBlocks (before ++ [line]) with
    | nil => exact mem_singleton.mpr rfl
    | cons top outer => exact mem_cons_self
  · intro hmem
    have hle := (rising_openBlocks (before ++ [line])).le_currentDepth _ hmem
    have hge := currentDepth_le_width h (openBlocks before)
    rw [← openBlocks_concat] at hge
    omega

/-- Only a line that closes blocks can have a width that no open block has. -/
theorem width_lt_currentDepth (h : line.body ≠ [])
    (hwidth : line.width ∉ openBlocks (before ++ [line]) ++ [0]) :
    line.width < currentDepth (openBlocks before) := by
  have hfilled : ¬ line.body.isEmpty = true := by simpa using h
  rw [openBlocks_concat, blocksAfter, if_neg hfilled] at hwidth
  by_contra hle
  split at hwidth
  · exact hwidth mem_cons_self
  · rename_i hlevel
    have hdepth : currentDepth (openBlocks before) = line.width := by omega
    cases hopened : openBlocks before with
    | nil =>
      rw [hopened] at hwidth hdepth
      exact hwidth (mem_singleton.mpr hdepth.symm)
    | cons top outer =>
      rw [hopened] at hwidth hdepth
      have htop : top = line.width := hdepth
      subst htop
      simp at hwidth

theorem blockTokens_eq_nil (h : currentDepth (openBlocks before) = line.width) :
    blockTokens before line = [] := by
  have hlevel : ¬ currentDepth (openBlocks before) < line.width := by omega
  rw [blockTokens, indentation, if_neg hlevel]
  cases hopened : openBlocks before with
  | nil => rfl
  | cons top outer =>
    rw [hopened] at h
    have htop : ¬ line.width < top := by
      rw [← h]
      exact Nat.lt_irrefl _
    rw [takeWhile_cons_of_neg (by simpa using htop)]
    rfl

end Token
end GuidedTrack
