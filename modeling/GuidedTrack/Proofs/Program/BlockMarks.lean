import GuidedTrack.Proofs.Program.AnswerShape

/-! # Blocks and the marks around them

Indents and dedents match like brackets. A node stands in the blocks of indents that are open at the
first token of its line, and the dedents that match no indent are those that are reported.
-/

namespace GuidedTrack

open List Node

variable {tokens rest : List Token} {place : Nat} {token : Token} {opened around : List Nat}
  {items : List Item} {before after : List Fault} {nodes : List Node}

namespace Token

/-- The places of the indents that are open at a place, innermost first. -/
def openAt (tokens : List Token) : Nat → List Nat
  | 0 => []
  | place + 1 =>
    match (tokens[place]?).map Token.kind with
    | some .indent => place :: openAt tokens place
    | some .dedent => (openAt tokens place).tail
    | _ => openAt tokens place

def isStray (tokens : List Token) (entry : Token × Nat) : Bool :=
  entry.1.kind = .dedent ∧ openAt tokens entry.2 = []

def strayDedents (tokens : List Token) : List Token :=
  (tokens.zipIdx.filter (isStray tokens)).map Prod.fst

def lineLength : List Token → Nat
  | [] => 0
  | token :: rest =>
    if token.kind = .newline then 1 else if token.kind.isStructural then 0 else lineLength rest + 1

def lineStop (tokens : List Token) (place : Nat) : Nat :=
  place + lineLength (tokens.drop place)

section

variable (h : tokens.drop place = token :: rest)
include h

theorem getElem?_of_drop : tokens[place]? = some token := by
  rw [← Nat.add_zero place, ← getElem?_drop, h]
  rfl

theorem drop_succ_of_drop : tokens.drop (place + 1) = rest := by
  rw [← tail_drop, h, tail_cons]

theorem openAt_succ :
    openAt tokens (place + 1) =
      match token.kind with
      | .indent => place :: openAt tokens place
      | .dedent => (openAt tokens place).tail
      | _ => openAt tokens place := by
  rw [openAt, getElem?_of_drop h]
  cases hkind : token.kind <;> simp [hkind]

theorem openAt_content (hindent : token.kind ≠ .indent) (hdedent : token.kind ≠ .dedent) :
    openAt tokens (place + 1) = openAt tokens place := by
  rw [openAt_succ h]
  split
  · exact absurd ‹_› hindent
  · exact absurd ‹_› hdedent
  · rfl

theorem lineStop_content (hkind : token.kind.isStructural = false) :
    lineStop tokens place = lineStop tokens (place + 1) := by
  have hnewline : token.kind ≠ .newline := fun hnewline => by rw [hnewline] at hkind; cases hkind
  rw [lineStop, lineStop, h, drop_succ_of_drop h, lineLength, if_neg hnewline, hkind,
    if_neg Bool.false_ne_true]
  omega

end

end Token

namespace Program

open Outline (Item)
open Token (openAt isStray strayDedents lineStop openAt_succ openAt_content lineStop_content
  getElem?_of_drop drop_succ_of_drop)
open GuidedTrack.Expr (exists_of_bind_eq_ok)

/-! ## The places of items -/

/-- Items that start at a place, all of them in the blocks of the indents `opened`. -/
inductive Sited (tokens : List Token) : List Nat → Nat → List Item → Prop where
  | nil {opened : List Nat} {place : Nat} : Sited tokens opened place []
  | newline {opened : List Nat} {place : Nat} {items : List Item}
      (here : lineStop tokens place = place + 1) (more : Sited tokens opened (place + 1) items) :
      Sited tokens opened place (.newline :: items)
  | line {opened : List Nat} {place : Nat} {first : Token} {rest : List Token} {items : List Item}
      (here : tokens[place]? = some first) (within : openAt tokens place = opened)
      (more : Sited tokens opened (lineStop tokens place) items) :
      Sited tokens opened place (.line first rest :: items)
  | block {opened : List Nat} {place next : Nat} {indent : Token} {inside items : List Item}
      (here : tokens[place]? = some indent)
      (kind : indent.kind = .indent) (stop : lineStop tokens place = place)
      (inner : Sited tokens (place :: opened) (place + 1) inside)
      (more : Sited tokens opened next items) :
      Sited tokens opened place (.block indent inside :: items)

/-- The outline of the tokens from a place on: what it holds lies in the blocks that are open there,
and every dedent that closes nothing in it leaves one of them. -/
structure Cut (tokens : List Token) (place : Nat) (rest : List Token) (outline : Outline) :
    Prop where
  items : Sited tokens (openAt tokens place) place outline.items
  strays : ∀ i stray, outline.strays[i]? = some stray →
    ∃ next, Sited tokens ((openAt tokens place).drop (i + 1)) next stray.2
  dedents : ((rest.zipIdx place).filter (isStray tokens)).map Prod.fst =
    (outline.strays.map Prod.fst).drop (openAt tokens place).length

theorem Sited.prepend (h : Sited tokens opened (place + 1) items)
    (hdrop : tokens.drop place = token :: rest) (hkind : token.kind.isStructural = false)
    (hopened : openAt tokens place = opened) :
    Sited tokens opened place (Outline.prepend token items) := by
  have hhere := getElem?_of_drop hdrop
  have hstop := lineStop_content hdrop hkind
  cases h with
  | nil => exact .line hhere hopened .nil
  | newline here more =>
    refine .line hhere hopened ?_
    rw [hstop, here]
    exact more
  | line here within more =>
    refine .line hhere hopened ?_
    rw [hstop]
    exact more
  | block here kind stop inner more =>
    refine .line hhere hopened ?_
    rw [hstop, stop]
    exact .block here kind stop inner more

theorem Cut.cons {outline : Outline} (h : Cut tokens (place + 1) rest outline)
    (hdrop : tokens.drop place = token :: rest) (hend : token.kind ≠ .endOfInput) :
    Cut tokens place (token :: rest) (Outline.cons token outline) := by
  obtain ⟨items, strays⟩ := outline
  obtain ⟨hitems, hstrays, hdedents⟩ := h
  have hstop (hkind : token.kind.isStructural = true) :
      lineStop tokens place = place + if token.kind = .newline then 1 else 0 := by
    rw [lineStop, hdrop, Token.lineLength, hkind, if_pos rfl]
  have hplain (hdedent : token.kind ≠ .dedent) : isStray tokens (token, place) = false := by
    simp [isStray, hdedent]
  by_cases hdedent : token.kind = .dedent
  · have hopened := openAt_succ hdrop
    simp only [hdedent] at hopened
    simp only [Outline.cons, hdedent]
    rw [hopened] at hitems hstrays hdedents
    refine ⟨.nil, fun i stray hstray => ?_, ?_⟩
    · cases i with
      | zero =>
        cases hstray
        exact ⟨_, drop_one ▸ hitems⟩
      | succ i =>
        obtain ⟨next, hsited⟩ := hstrays i stray hstray
        rw [← drop_one, drop_drop, Nat.add_comm 1] at hsited
        exact ⟨next, hsited⟩
    · rw [zipIdx_cons, filter_cons]
      cases hnone : openAt tokens place with
      | nil =>
        rw [hnone] at hdedents
        rw [if_pos (by simp [isStray, hdedent, hnone]), map_cons, hdedents]
        rfl
      | cons mark marks =>
        rw [hnone] at hdedents
        rw [if_neg (by simp [isStray, hnone]), hdedents]
        rfl
  by_cases hindent : token.kind = .indent
  · have hopened := openAt_succ hdrop
    simp only [hindent] at hopened
    rw [hopened] at hitems hstrays hdedents
    have hhere := getElem?_of_drop hdrop
    have hsame : lineStop tokens place = place := by
      simpa [hindent] using hstop (by rw [hindent]; rfl)
    simp only [Outline.cons, hindent]
    cases strays with
    | nil =>
      refine ⟨.block hhere hindent hsame hitems (.nil : Sited tokens _ 0 []), by simp, ?_⟩
      rw [zipIdx_cons, filter_cons, hplain hdedent, if_neg Bool.false_ne_true, hdedents]
      simp
    | cons stray strays =>
      obtain ⟨next, hafter⟩ := hstrays 0 stray rfl
      refine ⟨.block hhere hindent hsame hitems hafter, fun i other hother => ?_, ?_⟩
      · exact hstrays (i + 1) other hother
      · rw [zipIdx_cons, filter_cons, hplain hdedent, if_neg Bool.false_ne_true, hdedents]
        rfl
  · rw [openAt_content hdrop hindent hdedent] at hitems hstrays hdedents
    have hfilter : (((token :: rest).zipIdx place).filter (isStray tokens)).map Prod.fst =
        (strays.map Prod.fst).drop (openAt tokens place).length := by
      rw [zipIdx_cons, filter_cons, hplain hdedent, if_neg Bool.false_ne_true, hdedents]
    by_cases hnewline : token.kind = .newline
    · simp only [Outline.cons, hnewline]
      exact ⟨.newline (by simpa [hnewline] using hstop (by rw [hnewline]; rfl)) hitems, hstrays,
        hfilter⟩
    · have hkind : token.kind.isStructural = false := by
        cases hkind : token.kind <;> simp_all [Token.Kind.isStructural]
      rw [Outline.cons_content _ hkind]
      exact ⟨hitems.prepend hdrop hkind rfl, hstrays, hfilter⟩

theorem cut_of_drop (hdrop : tokens.drop place = rest)
    (hends : ∀ token ∈ rest.dropLast, token.kind ≠ .endOfInput) :
    Cut tokens place rest (.ofTokens rest) := by
  induction rest generalizing place with
  | nil => exact ⟨.nil, by simp [Outline.ofTokens], by simp [Outline.ofTokens]⟩
  | cons token rest ih =>
    by_cases hend : token.kind = .endOfInput
    · cases rest with
      | nil =>
        refine ⟨?_, ?_, ?_⟩ <;> simp [Outline.ofTokens, hend, isStray]
        exact .nil
      | cons next rest => exact absurd hend (hends token mem_cons_self)
    · have hrest := ih (drop_succ_of_drop hdrop) fun other hother => hends other (by
        cases rest with
        | nil => cases hother
        | cons next rest => exact mem_cons_of_mem _ hother)
      have hofTokens : Outline.ofTokens (token :: rest) = .cons token (.ofTokens rest) :=
        Outline.ofTokens_append (by simpa using hend : ∀ other ∈ [token], _) rest
      rw [hofTokens]
      exact hrest.cons hdrop hend

/-! ## The places of nodes -/

/-- A node that the line at some place opens, where the indents `around` are all open. What is not
in the line itself is in the block of the indent that follows it. -/
inductive Enclosed (tokens : List Token) : List Nat → Node → Prop where
  | intro {around : List Nat} {place : Nat} {first : Token} {node : Node}
      (here : tokens[place]? = some first) (opens : Opens first node)
      (within : around ⊆ openAt tokens place)
      (mark : ∀ child ∈ node.children, child.isWithinLine = false →
        (tokens[lineStop tokens place]?).map Token.kind = some .indent)
      (inside : ∀ child ∈ node.children, child.isWithinLine = false →
        Enclosed tokens (lineStop tokens place :: around) child) : Enclosed tokens around node

theorem Heads.opens {parent : Option String} {first : Token} {line : List Token} {heading : Heading}
    (h : Heads parent first line before heading after) (stop : Position) (inner : List Node) :
    ∀ node ∈ heading.nodes first.span.start stop inner, Opens first node := by
  intro node hnode
  cases h with
  | comment kind => exact mem_singleton.mp hnode ▸ .comment kind
  | @expression value? faults kind value =>
    cases value? with
    | none => cases hnode
    | some value => exact mem_singleton.mp hnode ▸ .expression kind rfl
  | keyword kind reads | stray kind alone reads =>
    exact mem_singleton.mp hnode ▸ .keyword (by rw [kind]; rfl) rfl
  | subKeyword kind owned reads => exact mem_singleton.mp hnode ▸ .subKeyword kind rfl
  | answer kind owned reads => exact mem_singleton.mp hnode ▸ .answer kind rfl
  | prose kind alone reads =>
    obtain ⟨parts, mid, -, hresult⟩ := exists_of_run_bind reads
    cases hresult
    exact mem_singleton.mp hnode ▸ .prose kind rfl

theorem Reads.enclosed {parent : Option String} (h : Reads parent items before nodes after)
    (hsited : Sited tokens opened place items) (haround : around ⊆ opened) :
    ∀ node ∈ nodes, Enclosed tokens around node := by
  induction h generalizing opened around place with
  | nil => simp
  | newline rest ih =>
    cases hsited with
    | newline here more => exact ih more haround
  | block inner rest ihInner ih =>
    cases hsited with
    | block here kind stop inside more =>
      exact forall_mem_append.mpr
        ⟨ihInner inside (List.Subset.trans haround (subset_cons_self _ _)), ih more haround⟩
  | @line parent first line owned items others heading before mid late after nodes more owns taken
      heads inner rest ihInner ih =>
    cases hsited with
    | line here within next =>
      have hmade (hmark : nodes ≠ [] →
          (tokens[lineStop tokens place]?).map Token.kind = some .indent)
          (hinside : ∀ node ∈ nodes, Enclosed tokens (lineStop tokens place :: around) node)
          (stop : Position) :
          ∀ node ∈ heading.nodes first.span.start stop nodes, Enclosed tokens around node := by
        intro node hnode
        have hbelow (child : Node) (hchild : child ∈ node.children)
            (hblock : child.isWithinLine = false) : child ∈ nodes := by
          refine (Heading.mem_parts_or_mem hnode hchild).resolve_left fun hpart => ?_
          rw [heads.isWithinLine child hpart] at hblock
          cases hblock
        exact .intro here (heads.opens stop nodes node hnode) (within ▸ haround)
          (fun child hchild hblock => hmark (ne_nil_of_mem (hbelow child hchild hblock)))
          fun child hchild hblock => hinside child (hbelow child hchild hblock)
      rcases owns with ⟨rfl, rfl⟩ | ⟨-, indent, rfl⟩
      · obtain rfl := inner.nodes_of_nil
        exact forall_mem_append.mpr ⟨hmade (fun h => absurd rfl h) (by simp) _, ih next haround⟩
      · cases next with
        | block here kind stop inside others =>
          have hinside := ihInner inside (cons_subset_cons _ haround)
          exact forall_mem_append.mpr
            ⟨hmade (fun _ => by rw [here, Option.map_some, kind]) hinside _, ih others haround⟩

/-! ## Dedents that match nothing -/

def dedentFaults (faults : List Fault) : List Fault :=
  faults.filter (·.cause = .unexpectedDedent)

theorem dedentFaults_of_reads {parent : Option String}
    (h : Reads parent items before nodes after) : dedentFaults after = dedentFaults before := by
  obtain ⟨found, rfl, hfound⟩ := h.adds
  have hnone : dedentFaults found = [] := filter_eq_nil_iff.mpr (by simpa using hfound)
  rw [dedentFaults, filter_append]
  exact (congrArg (_ ++ ·) hnone).trans (append_nil _)

theorem dedentFaults_of_readSections {strays : List (Token × List Item)} {body : List Statement}
    (h : (readSections strays).run before = .ok (body, after)) :
    (dedentFaults after).map Fault.position =
      (dedentFaults before).map Fault.position ++ strays.map (·.1.span.start) := by
  induction strays generalizing before body with
  | nil =>
    cases h
    exact (append_nil _).symm
  | cons stray strays ih =>
    obtain ⟨_, mid, hrecord, h⟩ := exists_of_run_bind h
    cases hrecord
    obtain ⟨block, late, hitems, h⟩ := exists_of_run_bind h
    obtain ⟨others, last, hothers, h⟩ := exists_of_run_bind h
    cases h
    obtain ⟨nodes, hreads, rfl⟩ := reads_of_readItems hitems
    rw [ih hothers, dedentFaults_of_reads hreads, dedentFaults, filter_append, map_append,
      append_assoc]
    rfl

/-- The dedents that match no indent are those that are reported, in order and where they stand.
Every node of the tree is in blocks whose indents are open at the first token of its line. -/
theorem ofTokens_enclosed {program : Program} {faults : List Fault}
    (hends : ∀ token ∈ tokens.dropLast, token.kind ≠ .endOfInput)
    (h : ofTokens tokens = .ok (program, faults)) :
    (dedentFaults faults).map Fault.position = (strayDedents tokens).map (·.span.start) ∧
      ∀ node ∈ (Node.program program).children, Enclosed tokens [] node := by
  have hcut : Cut tokens 0 tokens (.ofTokens tokens) := cut_of_drop rfl hends
  refine ⟨?_, fun node hnode => ?_⟩
  · obtain ⟨⟨body, last⟩, hread, hprogram⟩ := exists_of_bind_eq_ok h
    cases hprogram
    obtain ⟨block, mid, hitems, hrest⟩ := exists_of_run_bind hread
    obtain ⟨others, last, hothers, hrest⟩ := exists_of_run_bind hrest
    cases hrest
    obtain ⟨nodes, hreads, -⟩ := reads_of_readItems hitems
    have hdedents : strayDedents tokens = (Outline.ofTokens tokens).strays.map Prod.fst :=
      hcut.dedents
    rw [dedentFaults_of_readSections hothers, dedentFaults_of_reads hreads, hdedents, map_map]
    rfl
  · obtain ⟨sections, houtline, hsections, hchildren⟩ := reads_sections_of_ofTokens h
    rw [hchildren] at hnode
    obtain ⟨part, hpart, hnode⟩ := mem_flatMap.mp hnode
    obtain ⟨before, after, hreads⟩ := hsections part hpart
    have hmem : part.1 ∈ (Outline.ofTokens tokens).sections := houtline ▸ mem_map_of_mem hpart
    rcases mem_cons.mp hmem with hitems | hstray
    · exact hreads.enclosed (hitems ▸ hcut.items) (nil_subset _) node hnode
    · obtain ⟨stray, hstray, hitems⟩ := mem_map.mp hstray
      obtain ⟨i, hi⟩ := mem_iff_getElem?.mp hstray
      obtain ⟨next, hsited⟩ := hcut.strays i stray hi
      exact hreads.enclosed (hitems ▸ hsited) (nil_subset _) node hnode

/-- Tokens on their own: a page with a text in its block, and one dedent more than there are
indents. -/
def marked : List Token :=
  [⟨.keyword, "page", ⟨.origin, .origin⟩⟩, ⟨.newline, "", ⟨.origin, .origin⟩⟩,
    ⟨.indent, "", ⟨.origin, .origin⟩⟩, ⟨.text, "A", ⟨.origin, .origin⟩⟩,
    ⟨.dedent, "", ⟨.origin, .origin⟩⟩, ⟨.dedent, "", ⟨⟨4, 2, 9⟩, ⟨4, 2, 9⟩⟩⟩,
    ⟨.text, "B", ⟨.origin, .origin⟩⟩, ⟨.endOfInput, "", ⟨.origin, .origin⟩⟩]

theorem ofTokens_enclosed_marked :
    ∃ program faults, ofTokens marked = .ok (program, faults) ∧
      strayDedents marked = [⟨.dedent, "", ⟨⟨4, 2, 9⟩, ⟨4, 2, 9⟩⟩⟩] ∧ openAt marked 3 = [2] ∧
      (dedentFaults faults).map Fault.position = (strayDedents marked).map (·.span.start) ∧
      ∀ node ∈ (Node.program program).children, Enclosed marked [] node := by
  obtain ⟨result, hread, -⟩ := exists_ok_of_any (ofTokens marked) (fun _ => true)
    (by decide +kernel)
  exact ⟨result.1, result.2, hread, by decide, by decide, ofTokens_enclosed (by decide) hread⟩

end Program
end GuidedTrack
