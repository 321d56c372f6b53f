import Mathlib.Data.Int.Order.Basic
import GuidedTrack.Proofs.Program.LineAccounting
import GuidedTrack.Proofs.Program.NodeOrigins
import GuidedTrack.Proofs.Token.InterpolationNesting

/-! # Prose without loss

The text of prose goes into the tree as it stands between the interpolations, with a space for every
character that no token covers. An interpolation gives the expression that is read from its tokens
or, where none can be read, a fault on its line.
-/

namespace GuidedTrack

open Text Source List Token Bool Node

variable {content : List Char} {before faults after : List Fault}
  {rest front line behind : List Token} {s k : Nat} {p : Position} {source text : String}
  {token first : Token}

/-! ## How prose is scanned -/

namespace Token

variable {p : Position} {cs : List Char} {tokens : List Token}

/-- The tokens of prose: what is spelled as it stands, and lexemes inside interpolations. -/
inductive Flow : List Token → Prop where
  | nil : Flow []
  | plain {token : Token} {rest : List Token}
      (kind : token.kind = .text ∨ token.kind = .string ∨ token.kind = .error) (more : Flow rest) :
      Flow (token :: rest)
  | unclosed {start : Token} {inner : List Token} (kind : start.kind = .interpolationStart)
      (lexemes : ∀ token ∈ inner, token.kind.isLexeme = true) : Flow (start :: inner)
  | hole {start close : Token} {inner rest : List Token} (kind : start.kind = .interpolationStart)
      (lexemes : ∀ token ∈ inner, token.kind.isLexeme = true)
      (closes : close.kind = .interpolationEnd) (more : Flow rest) :
      Flow (start :: (inner ++ close :: rest))

theorem Flow.kind_first (h : Flow (token :: tokens)) :
    token.kind ≠ .colon ∧ token.kind ≠ .comment := by
  cases h with
  | plain kind more => rcases kind with kind | kind | kind <;> rw [kind] <;> decide
  | unclosed kind lexemes => rw [kind]; decide
  | hole kind lexemes closes more => rw [kind]; decide

theorem flow_prose (h : Flow tokens) : Flow (prose p cs ++ tokens) := by
  unfold prose
  split
  · exact h
  · exact .plain (.inl rfl) h

theorem flow_scanText (emphasis : Bool) (p : Position) (cs : List Char) :
    Flow (scanText emphasis p cs) := by
  induction cs using @prose_induction emphasis generalizing p with
  | plain cs hplain =>
    rw [scanText_plain hplain, ← append_nil (prose p cs)]
    exact flow_prose .nil
  | hole chunk cs hplain ih =>
    rw [scanText_hole hplain]
    refine flow_prose ?_
    obtain ⟨tokens, n, hscan, ⟨-, heq⟩ | ⟨more, hdrop, heq⟩⟩ :=
      scanHole_cases 0 (p.advance (chunk.length + 1)) cs
    · rw [heq]
      exact .unclosed rfl hscan.isLexeme
    · rw [heq]
      exact .hole rfl hscan.isLexeme rfl (ih more (length_lt_of_drop_eq_cons hdrop).le _)
  | span chunk c piece cs hplain hmarker hpiece ih =>
    rw [scanText_emphasis hplain (by rcases hmarker with rfl | rfl <;> decide) hpiece,
      append_assoc]
    exact flow_prose (flow_prose (ih _))

theorem Scanned.flow {source : List Char} (h : Scanned source (first :: rest))
    (hkind : first.kind.opensProse = true) : Flow (first :: rest) := by
  obtain ⟨depth, i, text, tail, hrow, -⟩ := h
  have hbegins := begins_scanContent depth (place source i) text
  rw [← hrow] at hbegins
  generalize hall : first :: rest = tokens at hbegins
  cases hbegins with
  | nil => cases hall
  | comment | expression =>
    cases hall
    cases hkind
  | directive more =>
    obtain ⟨rfl, -⟩ := List.cons.inj hall
    rcases directiveKind_eq (lower (String.ofList (more.takeWhile isNameChar))) depth with heq | heq
      <;> simp [covering, heq, Kind.opensProse] at hkind
  | @quoted c more quote =>
    exact .plain (.inr (quotedLexeme_kind c more)) (flow_scanText true _ _)
  | prose c more => exact flow_scanText true _ _

theorem Scanned.flow_argument {source : List Char} {colon : Token}
    (h : Scanned source (first :: colon :: rest)) (hcolon : colon.kind = .colon)
    (hkind : first.kind.isDirective = true)
    (htakes : first.kind = .keyword → Contract.takesExpression first.text = false) : Flow rest := by
  obtain ⟨depth, i, text, tail, hrow, -⟩ := h
  have hbegins := begins_scanContent depth (place source i) text
  rw [← hrow] at hbegins
  generalize hall : first :: colon :: rest = tokens at hbegins
  cases hbegins with
  | nil | comment => cases hall
  | expression =>
    obtain ⟨rfl, -⟩ := List.cons.inj hall
    cases hkind
  | directive more =>
    rw [scanDirective, List.cons.injEq] at hall
    obtain ⟨rfl, hbehind⟩ := hall
    split at hbehind
    · obtain ⟨-, rfl⟩ := List.cons.inj hbehind
      unfold scanArgument
      dsimp only
      split
      · rename_i hcode
        rw [and_eq_true, beq_iff_eq] at hcode
        cases (htakes hcode.1).symm.trans hcode.2
      · exact flow_scanText _ _ _
    · exact absurd hcolon (Flow.kind_first (hbehind ▸ flow_scanText true _ _)).1
  | @quoted c more quote =>
    exact absurd hcolon (Flow.kind_first ((List.cons.inj hall).2 ▸ flow_scanText true _ _)).1
  | prose c more =>
    have hinner := isInner_scanText (hall ▸ mem_cons_self)
    rw [Kind.isInner, hkind, Bool.not_true, Bool.and_false] at hinner
    cases hinner

end Token

def Node.prose? : Node → Option Prose
  | prose text | statement (.prose text) => some text
  | _ => none

namespace Program

/-! ## What prose says -/

def veil (tokens : List Token) (cs : List Char) : List Char :=
  cs.mapIdx fun i c =>
    if tokens.any fun token => token.span.start.offset ≤ i && i < token.span.stop.offset then c
    else ' '

def tokensIn (span : Span) (tokens : List Token) : List Token :=
  tokens.filter fun token => !token.kind.isStructural &&
    (span.start.offset ≤ token.span.start.offset && token.span.stop.offset ≤ span.stop.offset)

/-- An interpolation: the token that opens it, those inside it, and the one that closes it. -/
structure Hole where
  start : Token
  inner : List Token
  close : Option Token

namespace Hole

/-- The interpolations among some tokens, each up to the first token that ends one. -/
def among : List Token → List Hole
  | [] => []
  | token :: rest =>
    if token.kind = .interpolationStart then
      ⟨token, rest.takeWhile (·.kind ≠ .interpolationEnd),
        rest.find? (·.kind = .interpolationEnd)⟩ :: among rest
    else among rest

def stop (hole : Hole) (last : Int) : Int :=
  (hole.close.map (·.span.stop.offset)).getD last

/-- What is read from an interpolation. If it is nothing, a fault on its line says so. -/
def Reads (faults : List Fault) (hole : Hole) (value? : Option Expr) : Prop :=
  ∃ found ⊆ faults, Expr.ofTokens false hole.start.span.start hole.inner = .ok (value?, found) ∧
    (value? = none → ∃ fault ∈ found, fault.position.line = hole.start.span.start.line)

end Hole

def pieceOf (cs : List Char) : List Part :=
  if cs = [] then [] else [.text (String.ofList cs)]

/-- The text between two offsets, cut at its interpolations, with what is read from them between the
pieces. -/
def interleave (text : List Char) (start stop : Int) : List (Hole × Option Expr) → List Part
  | [] => pieceOf (slice text start stop)
  | (hole, value?) :: rest =>
    pieceOf (slice text start hole.start.span.start.offset) ++ value?.toList.map .expr ++
      interleave text (hole.stop stop) stop rest

/-- Prose has all the text of the source where it stands, and all its interpolations. -/
def Conveys (source : String) (faults : List Fault) (prose : Prose) : Prop :=
  let tokens := Token.ofSource source
  let holes := Hole.among (tokensIn prose.span tokens)
  ∃ values, Forall₂ (Hole.Reads faults) holes values ∧
    prose.parts = interleave (veil tokens source.toList) prose.span.start.offset
      prose.span.stop.offset (holes.zip values)

/-! ## Slices -/

section

variable {cs : List Char} {i j k : Nat} {tokens : List Token} {token : Token}

theorem length_veil (tokens : List Token) (cs : List Char) : (veil tokens cs).length = cs.length :=
  length_mapIdx

theorem getElem?_veil (tokens : List Token) (cs : List Char) (i : Nat) :
    (veil tokens cs)[i]? = cs[i]?.map fun c =>
      if tokens.any fun token => token.span.start.offset ≤ i && i < token.span.stop.offset then c
      else ' ' := by
  rw [veil, getElem?_mapIdx]

theorem slice_veil_of_laid (h : token.Laid cs i j) (hmem : token ∈ tokens) :
    slice (veil tokens cs) i j = slice cs i j := by
  rw [slice_of_le h.forward (by rw [length_veil]; exact h.bound), slice_of_le h.forward h.bound]
  refine ext_getElem? fun n => ?_
  rw [getElem?_drop, getElem?_drop, getElem?_take, getElem?_take, getElem?_veil]
  split
  · have hcovered : (tokens.any fun token => token.span.start.offset ≤ (i + n : Nat) &&
        (i + n : Nat) < token.span.stop.offset) = true := by
      refine any_eq_true.mpr ⟨token, hmem, ?_⟩
      rw [h.offset, h.stop, and_eq_true, decide_eq_true_eq, decide_eq_true_eq]
      omega
    simp only [hcovered, if_true, Option.map_id']
  · rfl

theorem slice_veil_of_gap (hij : i ≤ j) (hj : j ≤ cs.length)
    (h : ∀ token ∈ tokens, token.span.stop.offset ≤ i ∨ j ≤ token.span.start.offset) :
    slice (veil tokens cs) i j = replicate (j - i) ' ' := by
  have hlength := length_veil tokens cs
  rw [slice_of_le hij (by omega), eq_replicate_iff, length_drop, length_take]
  refine ⟨by omega, fun c hc => ?_⟩
  obtain ⟨n, hn⟩ := mem_iff_getElem?.mp hc
  rw [getElem?_drop, getElem?_take, getElem?_veil] at hn
  split at hn
  · obtain ⟨_, -, rfl⟩ := Option.map_eq_some_iff.mp hn
    refine if_neg fun hany => ?_
    obtain ⟨token, htoken, hcovers⟩ := any_eq_true.mp hany
    rw [and_eq_true, decide_eq_true_eq, decide_eq_true_eq] at hcovers
    have := h token htoken
    omega
  · cases hn

end

/-! ## Interpolations -/

theorem textPart_eq (text : String) : textPart text = pieceOf text.toList := by
  unfold textPart pieceOf
  rw [String.ofList_toList]
  split <;> split <;> simp_all

theorem Hole.stop_none (start : Token) (inner : List Token) (last : Int) :
    (Hole.mk start inner none).stop last = last :=
  rfl

theorem Hole.among_append {more : List Token}
    (h : ∀ token ∈ front, token.kind ≠ .interpolationStart) :
    among (front ++ more) = among more := by
  induction front with
  | nil => rfl
  | cons token front ih =>
    obtain ⟨htoken, hfront⟩ := forall_mem_cons.mp h
    rw [cons_append, among, if_neg htoken, ih hfront]

section

variable {start close : Token} {inner rest : List Token}

theorem Hole.among_unclosed (hstart : start.kind = .interpolationStart)
    (hinner : ∀ token ∈ inner, token.kind.isLexeme = true) :
    among (start :: inner) = [⟨start, inner, none⟩] := by
  have hkinds (token : Token) (htoken : token ∈ inner) :=
    Token.Kind.ne_of_isLexeme (hinner token htoken)
  have hnone : among (inner ++ []) = [] :=
    Hole.among_append fun token htoken => (hkinds token htoken).2.2.1
  rw [append_nil] at hnone
  rw [among, if_pos hstart, hnone,
    takeWhile_eq_self_iff.mpr fun token htoken => decide_eq_true (hkinds token htoken).2.2.2,
    find?_eq_none.mpr fun token htoken => by simpa using (hkinds token htoken).2.2.2]

theorem Hole.among_hole (hstart : start.kind = .interpolationStart)
    (hinner : ∀ token ∈ inner, token.kind.isLexeme = true)
    (hclose : close.kind = .interpolationEnd) :
    among (start :: (inner ++ close :: rest)) = ⟨start, inner, some close⟩ :: among rest := by
  have hkinds (token : Token) (htoken : token ∈ inner) :=
    Token.Kind.ne_of_isLexeme (hinner token htoken)
  have hall : ∀ token ∈ inner, decide (token.kind ≠ .interpolationEnd) = true :=
    fun token htoken => decide_eq_true (hkinds token htoken).2.2.2
  have hfind : inner.find? (fun token => token.kind = .interpolationEnd) = none :=
    find?_eq_none.mpr fun token htoken => by simpa using (hkinds token htoken).2.2.2
  rw [among, if_pos hstart, Hole.among_append fun token htoken => (hkinds token htoken).2.2.1,
    takeWhile_append_of_pos hall, takeWhile_cons_of_neg (by simp [hclose]), append_nil,
    find?_append, hfind, Option.none_or, find?_cons_of_pos (by simp [hclose]), among,
    if_neg (by simp [hclose])]

end

def lastStop (start : Int) (tokens : List Token) : Int :=
  (tokens.getLast?.map (·.span.stop.offset)).getD start

theorem lastStop_append (start : Int) (tokens more : List Token) :
    lastStop start (tokens ++ more) = lastStop (lastStop start tokens) more := by
  unfold lastStop
  rw [getLast?_append]
  cases more.getLast? <;> rfl

theorem lastStop_cons (start : Int) (token : Token) (tokens : List Token) :
    lastStop start (token :: tokens) = lastStop token.span.stop.offset tokens :=
  lastStop_append start [token] tokens

theorem Hole.reads_of_run {hole : Hole} {mid : List Fault} {value? : Option Expr} {line : Int}
    (h : (readExpr false hole.start hole.inner).run before = .ok (value?, mid))
    (hmid : mid ⊆ faults)
    (hline : ∀ token ∈ hole.start :: hole.inner, ∃ piece,
      token.Solid (fun p => p.line = line) piece) :
    Hole.Reads faults hole value? := by
  obtain ⟨found, htree, rfl⟩ := run_readExpr h
  obtain ⟨⟨piece, hstart⟩, hinner⟩ := forall_mem_cons.mp hline
  refine ⟨found, fun fault hfault => hmid (mem_append_right before hfault), htree, ?_⟩
  rintro rfl
  rw [hstart.start_place]
  exact Expr.exists_fault_of_none htree hinner hstart.start_place

structure Ahead (tokens : List Token) (k : Nat) (later : List Token) : Prop where
  suffix : later <:+ tokens
  passed : ∀ token ∈ tokens, token.span.stop.offset ≤ k ∨ token ∈ later
  starts : ∀ token ∈ later, k ≤ token.span.start.offset

section

variable {cs : List Char} {tokens inner later : List Token} {line : Int} {i j : Nat}
  (hlaid : ∀ token ∈ tokens, ∃ i j, token.Laid cs i j)
  (hordered : tokens.Pairwise fun s t => s.span.stop.offset ≤ t.span.start.offset)

include hlaid hordered

theorem bounds_of_append (htokens : tokens = front ++ token :: behind) :
    (∀ other ∈ front, other.span.stop.offset ≤ token.span.start.offset) ∧
      token.span.start.offset ≤ token.span.stop.offset ∧
      ∀ other ∈ behind, token.span.stop.offset ≤ other.span.start.offset := by
  obtain ⟨i, j, hlaid⟩ := hlaid token (by simp [htokens])
  rw [htokens, pairwise_append, pairwise_cons] at hordered
  refine ⟨fun other hother => hordered.2.2 other hother token mem_cons_self, ?_, hordered.2.1.1⟩
  rw [hlaid.stop, hlaid.offset]
  exact Int.ofNat_le.mpr hlaid.forward

/-- Behind a token that ends at `j` what follows it is left. -/
theorem Ahead.next (h : Ahead tokens k (inner ++ token :: later)) (hl : token.Laid cs i j) :
    Ahead tokens j later := by
  obtain ⟨front, htokens⟩ := h.suffix
  rw [← append_assoc] at htokens
  obtain ⟨hbefore, hwhole, hbehind⟩ := bounds_of_append hlaid hordered htokens.symm
  rw [hl.stop] at hwhole hbehind
  refine ⟨⟨front ++ inner ++ [token], by simp [← htokens]⟩, fun other hother => ?_, hbehind⟩
  rw [← htokens, mem_append, mem_cons] at hother
  rcases hother with hother | rfl | hother
  · exact .inl (Int.le_trans (hbefore other hother) hwhole)
  · exact .inl hl.stop.le
  · exact .inr hother

/-- The text up to a token, with spaces for what no token covers. -/
theorem Ahead.toList_append_gap (h : Ahead tokens k (token :: later)) (hsk : s ≤ k)
    (htext : text.toList = slice (veil tokens cs) s k) :
    (text ++ gap k token.span.start.offset).toList =
      slice (veil tokens cs) s token.span.start.offset := by
  obtain ⟨front, htokens⟩ := h.suffix
  obtain ⟨-, hwhole, hbehind⟩ := bounds_of_append hlaid hordered htokens.symm
  obtain ⟨i, j, hl⟩ := hlaid token (by simp [← htokens])
  have hk := h.starts token mem_cons_self
  have hbound := hl.bound
  have hforward := hl.forward
  have hlength := length_veil tokens cs
  rw [hl.offset] at hk hwhole ⊢
  have hki : k ≤ i := by omega
  rw [String.toList_append, htext, ← slice_append_slice hsk hki (by omega)]
  congr 1
  rw [slice_veil_of_gap hki (by omega), gap, String.toList_ofList]
  · congr 1
    omega
  · intro other hother
    refine (h.passed other hother).imp_right fun hother => ?_
    rcases mem_cons.mp hother with rfl | hother
    · exact hl.offset.ge
    · exact Int.le_trans hwhole (hbehind other hother)

/-- Prose is read piece by piece: `s` is where the text gathered so far starts and `k` where it
ends. -/
theorem interleave_of_readParts {row : List Token} (h : Flow row)
    (hahead : Ahead tokens k (row ++ behind)) {parts : List Part} (hsk : s ≤ k)
    (htext : text.toList = slice (veil tokens cs) s k)
    (hline : ∀ token ∈ row, ∃ piece, token.Solid (fun p => p.line = line) piece)
    (hread : (readParts (some (k : Int)) text row).run before = .ok (parts, after))
    (hfaults : after ⊆ faults) :
    ∃ values, Forall₂ (Hole.Reads faults) (Hole.among row) values ∧
      parts = interleave (veil tokens cs) s (lastStop k row) ((Hole.among row).zip values) := by
  induction h generalizing s k text parts before with
  | nil =>
    rw [readParts] at hread
    cases hread
    exact ⟨[], .nil, by rw [textPart_eq, htext]; rfl⟩
  | @plain token rest kind more ih =>
    have hkinds : token.kind ≠ .comment ∧ token.kind ≠ .interpolationStart := by
      rcases kind with kind | kind | kind <;> rw [kind] <;> decide
    rw [readParts_plain _ _ _ hkinds.1 hkinds.2] at hread
    have hmem := hahead.suffix.subset (mem_append_left behind mem_cons_self)
    obtain ⟨i, j, hl⟩ := hlaid token hmem
    have hgap := hahead.toList_append_gap hlaid hordered hsk htext
    have hk := hahead.starts token (by simp)
    rw [hl.offset] at hgap hk hread
    rw [hl.stop] at hread
    have hspells : token.text.toList = slice (veil tokens cs) i j := by
      rw [slice_veil_of_laid hl hmem]
      refine Eq.symm ?_
      rcases kind with kind | kind | kind <;> simpa only [Spells, kind] using hl.spells
    have hforward := hl.forward
    have hgathered : (text ++ gap k i ++ token.text).toList = slice (veil tokens cs) s j := by
      rw [String.toList_append, hgap, hspells]
      exact slice_append_slice (by omega) hforward (length_veil tokens cs ▸ hl.bound)
    rw [Hole.among, if_neg hkinds.2, lastStop_cons, hl.stop]
    have hlater : Ahead tokens k ([] ++ token :: (rest ++ behind)) := hahead
    exact ih (hlater.next hlaid hordered hl) (by omega) hgathered (forall_mem_cons.mp hline).2
      hread
  | @unclosed start inner kind lexemes =>
    rw [readParts_open _ _ kind fun t ht =>
      (Token.Kind.ne_of_isLexeme (lexemes t ht)).2.2.2] at hread
    obtain ⟨value?, mid, hvalue, hread⟩ := exists_of_run_bind hread
    obtain ⟨_, late, hrecord, hread⟩ := exists_of_run_bind hread
    cases hrecord
    cases hread
    have hgap := hahead.toList_append_gap hlaid hordered hsk htext
    rw [Hole.among_unclosed kind lexemes]
    refine ⟨[value?], .cons (Hole.reads_of_run hvalue ?_ hline) .nil, ?_⟩
    · exact fun fault hfault => hfaults (mem_append_left _ hfault)
    · rw [textPart_eq, zip_cons_cons, interleave, zip_nil_right, interleave,
        Hole.stop_none, slice_self, show pieceOf [] = [] from rfl, append_nil]
      exact congrArg (pieceOf · ++ _) hgap
  | @hole start close inner rest kind lexemes closes more ih =>
    rw [readParts_hole _ _ kind (fun t ht => (Token.Kind.ne_of_isLexeme (lexemes t ht)).2.2.2)
      closes] at hread
    obtain ⟨value?, mid, hvalue, hread⟩ := exists_of_run_bind hread
    obtain ⟨others, late, hothers, hread⟩ := exists_of_run_bind hread
    cases hread
    have hgap := hahead.toList_append_gap hlaid hordered hsk htext
    rw [← cons_append, append_assoc] at hahead
    rw [← cons_append] at hline ⊢
    obtain ⟨i, j, hl⟩ := hlaid close (hahead.suffix.subset (by simp))
    obtain ⟨found, rfl, -⟩ := adds_readParts _ _ _ _ _ _ hothers
    rw [hl.stop] at hothers
    obtain ⟨hstart, hmore⟩ := forall_mem_append.mp hline
    obtain ⟨values, hvalues, rfl⟩ := ih (hahead.next hlaid hordered hl) (Nat.le_refl j)
      (by rw [slice_self]; rfl) (forall_mem_cons.mp hmore).2 hothers
    rw [cons_append, Hole.among_hole kind lexemes closes]
    refine ⟨value? :: values, .cons (Hole.reads_of_run hvalue ?_ hstart) hvalues, ?_⟩
    · exact fun fault hfault => hfaults (mem_append_left _ hfault)
    · rw [← cons_append, lastStop_append, lastStop_cons, zip_cons_cons, interleave,
        textPart_eq]
      dsimp only [Hole.stop, Option.map_some, Option.getD_some]
      rw [hl.stop]
      exact congrArg (pieceOf · ++ _ ++ _) hgap

/-- The tokens inside the span of a row are those of the row. -/
theorem tokensIn_spanOf (htokens : tokens = front ++ (first :: rest ++ behind))
    (hcontent : ∀ token ∈ first :: rest, token.kind.isStructural = false) :
    tokensIn (spanOf first rest) tokens = first :: rest := by
  have hfilled {token : Token} (htoken : token ∈ tokens) (hkind : token.kind.isStructural = false) :
      token.span.start.offset < token.span.stop.offset := by
    obtain ⟨i, j, hl⟩ := hlaid token htoken
    rw [hl.stop, hl.start]
    refine Int.ofNat_lt.mpr (hl.filled ?_ ?_) <;> intro heq <;> rw [heq] at hkind <;> cases hkind
  have hlast : (first :: rest).getLast? = some (rest.getLastD first) := by
    rw [getLast?_cons, getLastD_eq_getLast?]
  obtain ⟨row, hrow⟩ := getLast?_eq_some_iff.mp hlast
  obtain ⟨hbefore, hfirst, hlater⟩ := bounds_of_append hlaid hordered htokens
  have hsplit : tokens = (front ++ row) ++ rest.getLastD first :: behind := by
    rw [htokens, hrow]
    simp only [append_assoc, singleton_append]
  obtain ⟨hearlier, hend, hbehind⟩ := bounds_of_append hlaid hordered hsplit
  have hstop : (spanOf first rest).stop.offset = (rest.getLastD first).span.stop.offset := rfl
  have hstart : (spanOf first rest).start.offset = first.span.start.offset := rfl
  rw [tokensIn, hstop, hstart, htokens, filter_append, filter_append,
    filter_eq_nil_iff.mpr, filter_eq_self.mpr, filter_eq_nil_iff.mpr]
  · simp
  · intro token htoken hin
    simp only [and_eq_true, not_eq_true', decide_eq_true_eq] at hin
    have := hfilled (by simp [htokens, htoken]) hin.1
    have := hbehind token htoken
    omega
  · intro token htoken
    simp only [and_eq_true, not_eq_true', decide_eq_true_eq]
    refine ⟨hcontent token htoken, ?_, ?_⟩
    · rcases mem_cons.mp htoken with rfl | htoken
      · exact Int.le_refl _
      · exact Int.le_trans hfirst (hlater token (mem_append_left behind htoken))
    · rw [hrow] at htoken
      rcases mem_append.mp htoken with htoken | htoken
      · exact Int.le_trans (hearlier token (mem_append_right front htoken)) hend
      · rw [mem_singleton.mp htoken]
  · intro token htoken hin
    simp only [and_eq_true, not_eq_true', decide_eq_true_eq] at hin
    have := hfilled (by simp [htokens, htoken]) hin.1
    have := hbefore token htoken
    omega

theorem interleave_of_readProse {text : Prose} (h : Flow (first :: rest))
    (htokens : tokens = front ++ (first :: rest ++ behind))
    (hline : ∀ token ∈ first :: rest, ∃ piece, token.Solid (fun p => p.line = line) piece)
    (hread : (readProse first rest).run before = .ok (text, after)) (hfaults : after ⊆ faults) :
    text.span = spanOf first rest ∧
    ∃ values, Forall₂ (Hole.Reads faults) (Hole.among (first :: rest)) values ∧
      text.parts = interleave (veil tokens cs) text.span.start.offset text.span.stop.offset
        ((Hole.among (first :: rest)).zip values) := by
  obtain ⟨parts, mid, hparts, hread⟩ := exists_of_run_bind hread
  cases hread
  have hcursor : readParts none "" (first :: rest) =
      readParts (some first.span.start.offset) "" (first :: rest) := by
    rw [readParts, if_neg h.kind_first.2, readParts, if_neg h.kind_first.2]
    rfl
  have hlast : lastStop first.span.start.offset (first :: rest) =
      (rest.getLastD first).span.stop.offset := by
    rw [lastStop_cons, lastStop, getLastD_eq_getLast?]
    cases rest.getLast? <;> rfl
  obtain ⟨i, j, hl⟩ := hlaid first (by simp [htokens])
  obtain ⟨hbefore, hwhole, hbehind⟩ := bounds_of_append hlaid hordered htokens
  have hahead : Ahead tokens i (first :: rest ++ behind) := by
    rw [hl.offset] at hbefore hwhole
    refine ⟨⟨front, htokens.symm⟩, fun token htoken => ?_, forall_mem_cons.mpr
      ⟨hl.offset.ge, fun other hother => Int.le_trans hwhole (hbehind other hother)⟩⟩
    rw [htokens] at htoken
    exact (mem_append.mp htoken).imp_left (hbefore token)
  rw [hcursor, hl.offset] at hparts
  obtain ⟨values, hvalues, rfl⟩ := interleave_of_readParts hlaid hordered h hahead (Nat.le_refl i)
    (by rw [slice_self]; rfl) hline hparts hfaults
  refine ⟨rfl, values, hvalues, ?_⟩
  rw [← hl.offset, hlast]
  rfl

end

/-! ## Lines -/

def IsConveyed (source : String) (faults : List Fault) (node : Node) : Prop :=
  ∀ text, node.prose? = some text → Conveys source faults text

theorem isConveyed_of_eq_none {node : Node} (h : node.prose? = none) :
    IsConveyed source faults node := by
  intro text htext
  rw [h] at htext
  cases htext

theorem isConveyed_ofParts (parts : List Part) :
    ∀ child ∈ ofParts parts, ∀ node ∈ child.walk, IsConveyed source faults node := by
  intro child hchild node hnode
  have hcode := forall_mem_walk_of_children (Q := fun node => node.isCode = true)
    (fun h => isCode_children (isWithinLine_of_isCode h))
    (isCode_of_mem_ofParts hchild) node hnode
  refine isConveyed_of_eq_none ?_
  cases node <;> first | rfl | cases hcode

theorem conveys_of_readProse {text : Prose} (hflow : Flow (first :: rest))
    (hlined : Lined (InSource source.toList) p content line)
    (hinside : line <:+: Token.ofSource source) (hsuffix : first :: rest <:+ line)
    (hread : (readProse first rest).run before = .ok (text, after)) (hfaults : after ⊆ faults) :
    Conveys source faults text := by
  obtain ⟨hlaid, hordered, -⟩ := Token.ofSource_faithful source
  obtain ⟨front, rfl⟩ := hsuffix
  obtain ⟨outer, back, hsource⟩ := hinside
  have hmem {token : Token} (htoken : token ∈ first :: rest) : token ∈ front ++ first :: rest :=
    mem_append_right front htoken
  have htokens : Token.ofSource source = (outer ++ front) ++ (first :: rest ++ back) := by
    rw [← hsource]
    simp only [append_assoc]
  have hsolid := hlined.onLine.solidChain.solid
  obtain ⟨hspan, values, hvalues, hparts⟩ := interleave_of_readProse hlaid hordered hflow htokens
    (fun token htoken => hsolid token (hmem htoken)) hread hfaults
  have hwithin := tokensIn_spanOf hlaid hordered htokens
    fun token htoken => hlined.content token (hmem htoken)
  rw [← hspan] at hwithin
  refine ⟨values, ?_, ?_⟩ <;> rwa [hwithin]

theorem Heads.isConveyed {parent : Option String} {heading : Heading} {start stop : Position}
    {inner : List Node} (h : Heads parent first line before heading after)
    (hscanned : Scanned source.toList (first :: line))
    (hlined : Lined (InSource source.toList) p content (first :: line))
    (hinside : first :: line <:+: Token.ofSource source) (hfaults : after ⊆ faults) :
    (∀ node ∈ heading.nodes start stop inner, IsConveyed source faults node) ∧
      ∀ part ∈ heading.parts, ∀ node ∈ part.walk, IsConveyed source faults node := by
  have hwhole {text : Prose} {before : List Fault} (hkind : first.kind.opensProse = true)
      (reads : (readProse first line).run before = .ok (text, after)) :
          Conveys source faults text :=
    conveys_of_readProse (hscanned.flow hkind) hlined hinside (suffix_refl _) reads hfaults
  have hprose {text : Prose} (h : Conveys source faults text) :
      ∀ node ∈ (Node.prose text).walk, IsConveyed source faults node := by
    refine forall_mem_walk.mpr ⟨?_, isConveyed_ofParts text.parts⟩
    rintro other ⟨⟩
    exact h
  have hexpr (value : Expr) : ∀ node ∈ (expr value).walk, IsConveyed source faults node :=
    isConveyed_ofParts [.expr value] _ mem_cons_self
  have hargument {parent : Option String} {name : String} {argument : Option Argument}
      {before : List Fault} (hkind : first.kind.isDirective = true)
      (htakes : takesExpression parent name = false → first.kind = .keyword →
        Contract.takesExpression first.text = false)
      (reads : (readArgument parent name first line).run before = .ok (argument, after)) :
      ∀ part ∈ argument.toList.map ofArgument, ∀ node ∈ part.walk,
        IsConveyed source faults node := by
    rcases argument_cases reads with rfl | ⟨colon, head, rest, rfl, hcolon, hcases⟩
    · simp
    · rcases hcases with ⟨value?, found, -, -, rfl⟩ | ⟨prose, hread, hnot, rfl⟩
      · cases value? with
        | none => simp
        | some value => exact forall_mem_singleton.mpr (hexpr value)
      · have hflow := hscanned.flow_argument hcolon hkind (htakes hnot)
        refine forall_mem_singleton.mpr (hprose ?_)
        exact conveys_of_readProse hflow hlined hinside ⟨[first, colon], rfl⟩ hread hfaults
  have hdirective {kind : Kind} (h : first.kind = kind) (hkind : kind ≠ .keyword) :
      first.kind = .keyword → Contract.takesExpression first.text = false :=
    fun hfirst => absurd (h.symm.trans hfirst) hkind
  cases h with
  | comment kind =>
    exact ⟨forall_mem_singleton.mpr (isConveyed_of_eq_none rfl),
      by simp [Heading.parts, Block.ofStatement, children]⟩
  | @expression value? found kind tree =>
    cases value? with
    | none => simp [Heading.nodes, Heading.parts]
    | some value =>
      exact ⟨forall_mem_singleton.mpr (isConveyed_of_eq_none rfl),
        forall_mem_singleton.mpr (hexpr value)⟩
  | keyword kind reads =>
    refine ⟨forall_mem_singleton.mpr (isConveyed_of_eq_none rfl),
      hargument (by rw [kind]; rfl) (fun hnot _ => ?_) reads⟩
    rw [← not_eq_true] at hnot ⊢
    exact fun htakes => hnot (takesExpression_lower htakes)
  | stray kind alone reads | subKeyword kind owned reads =>
    exact ⟨forall_mem_singleton.mpr (isConveyed_of_eq_none rfl),
      hargument (by rw [kind]; rfl) (fun _ => hdirective kind (by decide)) reads⟩
  | answer kind owned reads =>
    exact ⟨forall_mem_singleton.mpr (isConveyed_of_eq_none rfl),
      forall_mem_singleton.mpr (hprose (hwhole kind reads))⟩
  | @prose text after kind alone reads =>
    refine ⟨forall_mem_singleton.mpr ?_, ?_⟩
    · rintro other ⟨⟩
      exact hwhole kind reads
    · simpa [Heading.parts, Block.ofStatement, children] using isConveyed_ofParts text.parts

/-- In the tree of a source every piece of prose has all the text of the source where it stands. -/
theorem ofSource_conveys {source : String} {program : Program} {faults : List Fault}
    (h : ofSource source = .ok (program, faults)) :
    ∀ node ∈ (Node.program program).walk, ∀ text, node.prose? = some text →
      Conveys source faults text := by
  obtain ⟨items, stop, hreading⟩ := reading_ofSource h
  change ∀ node ∈ (Node.program program).walk, IsConveyed source faults node
  refine Node.forall_mem_walk.mpr ⟨isConveyed_of_eq_none rfl, ?_⟩
  refine hreading.reads.forall_mem_walk (List.Subset.refl faults) ?_
  intro parent first line before heading after inner start stop hline hheads hfaults _
  obtain ⟨p, content, hlined⟩ := hreading.lined _ hline
  rw [hreading.lines] at hline
  obtain ⟨hscanned, hinside⟩ := Token.scanned_of_mem_contentLines hline
  exact hheads.isConveyed hscanned hlined hinside hfaults

/-- A literal in front, a tab that no token covers, an interpolation that cannot be read and one
that is not closed: three parts and two faults. -/
theorem ofSource_conveys_unclosed :
    ∃ program faults, ofSource "'a'\t\x7b)\x7d b\x7bc" = .ok (program, faults) ∧
      ((Node.program program).walk.filterMap Node.prose?).map (·.parts.length) = [3] ∧
      faults.length = 2 ∧
      ∀ node ∈ (Node.program program).walk, ∀ text, node.prose? = some text →
        Conveys "'a'\t\x7b)\x7d b\x7bc" faults text := by
  obtain ⟨⟨program, faults⟩, hread, hcount⟩ := exists_ok_of_any
    (ofSource "'a'\t\x7b)\x7d b\x7bc") (fun result =>
      (((Node.program result.1).walk.filterMap Node.prose?).map (·.parts.length),
        result.2.length) == ([3], 2)) (by decide +kernel)
  obtain ⟨hparts, hfaults⟩ := Prod.mk.inj (eq_of_beq hcount)
  exact ⟨program, faults, hread, hparts, hfaults, ofSource_conveys hread⟩

end Program
end GuidedTrack
