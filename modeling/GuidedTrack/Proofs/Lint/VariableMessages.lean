import GuidedTrack.Proofs.Lint.RuleIndependence
import GuidedTrack.Proofs.Program.SpanNesting

/-! # Variables of a document

Every identifier of a document is a target, exempt or a read, by where it stands in the tree and not
by what a tour has met before it. The rules on variables report the reads of names that nothing
defines, and the first definitions of names that nothing reads.
-/

namespace GuidedTrack

open List

variable {root node child : Node} {ancestors : List Node} {place : Nat} {visit other : Visit}
  {P : Position → Prop} {tokens : List Token} {use : Use}

theorem Visit.entered?_eq_some : visit.entered? = some node ↔
    visit.phase = .enter ∧ visit.node = node := by
  obtain ⟨phase, inner, ancestors, place⟩ := visit
  cases phase <;> simp [Visit.entered?]

namespace Node

/-! ## Steps of a tour -/

structure Inward (outer inner : Visit) : Prop where
  enters : outer.phase = .enter
  ancestors : inner.ancestors = outer.node :: outer.ancestors
  child : outer.node.children[inner.place]? = some inner.node

theorem mem_tour_of_inward (h : other ∈ root.tour ancestors place) (hinward : Inward other visit)
    (henter : visit.phase = .enter) : visit ∈ root.tour ancestors place := by
  obtain ⟨phase, node, around, i⟩ := visit
  obtain ⟨hphase, haround, hchild⟩ := hinward
  induction root using inductionOnChildren generalizing ancestors place with
  | step root ih =>
    rw [tour_eq] at h ⊢
    simp only [mem_append, mem_cons, mem_flatMap, not_mem_nil, or_false] at h ⊢
    rcases h with (rfl | ⟨⟨below, j⟩, hbelow, hvisit⟩) | rfl
    · refine .inl (.inr ⟨(node, i), mem_zipIdx_iff_getElem?.mpr hchild, ?_⟩)
      cases haround
      cases henter
      rw [tour_eq]
      exact mem_cons_self
    · exact .inl (.inr ⟨_, hbelow, ih _ (fst_mem_of_mem_zipIdx hbelow) hvisit⟩)
    · cases hphase

/-- Every step into a node but the first comes with a step into the node around it. -/
theorem exists_inward (h : visit ∈ root.tour ancestors place) (henter : visit.phase = .enter) :
    visit = ⟨.enter, root, ancestors, place⟩ ∨
      ∃ outer ∈ root.tour ancestors place, Inward outer visit := by
  induction root using inductionOnChildren generalizing ancestors place with
  | step root ih =>
    rw [tour_eq] at h ⊢
    simp only [mem_append, mem_cons, mem_flatMap, not_mem_nil, or_false] at h ⊢
    rcases h with (rfl | ⟨⟨child, i⟩, hchild, hvisit⟩) | rfl
    · exact .inl rfl
    · rcases ih _ (fst_mem_of_mem_zipIdx hchild) hvisit with rfl | ⟨outer, houter, hinward⟩
      · exact .inr ⟨_, .inl (.inl rfl), rfl, rfl, mem_zipIdx_iff_getElem?.mp hchild⟩
      · exact .inr ⟨outer, .inl (.inr ⟨_, hchild, houter⟩), hinward⟩
    · cases henter

/-! ## Leaves in order -/

theorem Nested.lt_of_mem_walk (h : root.Nested P)
    (hfilled : root.span.start.offset < root.span.stop.offset) (hnode : node ∈ root.walk) :
    node.span.start.offset < root.span.stop.offset := by
  induction h with
  | @mk root start stop chained below ih =>
    rw [walk_eq] at hnode
    rcases mem_cons.mp hnode with rfl | hnode
    · exact hfilled
    · obtain ⟨child, hchild, hnode⟩ := mem_flatMap.mp hnode
      have hbounds := chained.bounds (mem_map_of_mem hchild)
      have hinside := ih child hchild hbounds.2.1 hnode
      omega

/-- A node that holds nothing starts before all nodes behind it. -/
theorem Nested.pairwise_leaf (h : root.Nested P) :
    root.walk.Pairwise fun a b => a.children = [] → a.span.start.offset < b.span.start.offset := by
  induction h with
  | @mk root start stop chained below ih =>
    rw [walk_eq]
    refine .cons (fun node hnode hleaf => ?_) (pairwise_flatMap.mpr ⟨ih, ?_⟩)
    · rw [hleaf] at hnode
      cases hnode
    · refine (pairwise_map.mp chained.pairwise).imp_of_mem ?_
      intro left right hleft hright hle a ha b hb _
      have hbefore := (below left hleft).lt_of_mem_walk
        (chained.bounds (mem_map_of_mem hleft)).2.1 ha
      have hafter := (below right hright).bounds_of_mem_walk hb
      omega

end Node

namespace Rule

/-! ## What a document says about variables -/

def lineFrom (tokens : List Token) (start : Int) : List Token :=
  (tokens.filter fun token => start ≤ token.span.start.offset).takeWhile fun token =>
    token.kind ≠ .newline && token.kind ≠ .endOfInput

def isIn (token : Token) : Bool :=
  token.kind = .operator && token.text == "in"

def namesIn (afterDot : Bool) : List Token → List Use
  | [] => []
  | token :: rest =>
    let names := namesIn (token.kind = .dot) rest
    if token.kind = .identifier && !afterDot then ⟨token.text, token.span.start⟩ :: names else names

def boundNames (tokens : List Token) (start : Int) : List Use :=
  namesIn false ((lineFrom tokens start).takeWhile (!isIn ·))

def listedNames (tokens : List Token) (start : Int) : List Use :=
  namesIn false ((lineFrom tokens start).dropWhile (!isIn ·)).tail

/-- The left side of the assignment of a line of code, and the argument of a `*set`. -/
def targets : Node → List Use
  | .statement (.expression _ (.binary _ .equal (.identifier target) _))
  | .statement (.keyword _ "set" (some (.expr (.identifier target))) _ _) =>
    [⟨target.text, target.span.start⟩]
  | _ => []

def bound (tokens : List Token) : Node → List Use
  | .statement (.keyword span "for" _ _ _) => boundNames tokens span.start.offset
  | _ => []

def saved : Node → List Use
  | .subKeyword (.mk _ "save" (some (.prose prose)) _) =>
    if isPlainName (literalText prose) then
      [⟨String.ofList (literalText prose), prose.span.start⟩]
    else []
  | _ => []

def definitions (tokens : List Token) (node : Node) : List Use :=
  targets node ++ bound tokens node ++ saved node

/-- Whether a step to an identifier is one to the target of an assignment or of a `*set`. -/
def isTarget (visit : Visit) : Bool :=
  match visit.ancestors with
  | .expr (.binary _ .equal _ _) :: .statement (.expression ..) :: _ => visit.place == 0
  | .statement (.keyword _ "set" ..) :: _ => true
  | _ => false

/-- Whether a step to an identifier, in a tree of the given nodes, is one to a target or to a name
that a `*for` binds. -/
def isDefining (tokens : List Token) (nodes : List Node) (visit : Visit) : Bool :=
  isTarget visit || (nodes.flatMap (bound tokens)).any fun use =>
    use.position.offset == visit.node.span.start.offset

/-- The names that a step reads, given which identifiers are defining. -/
def readsAt (tokens : List Token) (defining : Visit → Bool) (visit : Visit) : List Use :=
  match visit.phase, visit.node with
  | .enter, .expr (.identifier name) =>
    if defining visit || isExempt visit.ancestors.head? visit.place then []
    else [⟨name.text, name.span.start⟩]
  | .enter, .statement (.keyword span "for" none _ _) => listedNames tokens span.start.offset
  | _, _ => []

/-! ## The tour of a document -/

theorem splitAtIn_true (afterDot : Bool) (line : List Token) :
    splitAtIn true afterDot line = ([], namesIn afterDot line) := by
  induction line generalizing afterDot with
  | nil => rfl
  | cons token line ih =>
    rw [splitAtIn, if_neg (by simp), ih, namesIn]
    dsimp only
    split <;> rfl

theorem splitAtIn_false (afterDot : Bool) (line : List Token) :
    splitAtIn false afterDot line =
      (namesIn afterDot (line.takeWhile (!isIn ·)),
        namesIn false (line.dropWhile (!isIn ·)).tail) := by
  induction line generalizing afterDot with
  | nil => rfl
  | cons token line ih =>
    rw [splitAtIn]
    by_cases hin : isIn token = true
    · have hsplit : (token.kind = .operator && token.text == "in" && !false) = true := by
        simpa [isIn] using hin
      rw [if_pos hsplit, splitAtIn_true, takeWhile_cons_of_neg (by simpa using hin),
        dropWhile_cons_of_neg (by simpa using hin)]
      rfl
    · have hsplit : ¬ (token.kind = .operator && token.text == "in" && !false) = true := by
        simpa [isIn] using hin
      rw [if_neg hsplit, ih, takeWhile_cons_of_pos (by simpa using hin),
        dropWhile_cons_of_pos (by simpa using hin), namesIn]
      dsimp only
      split <;> rfl

theorem forNames_eq_names (tokens : List Token) (start : Int) :
    forNames tokens start = (boundNames tokens start, listedNames tokens start) :=
  splitAtIn_false false _

def definingOffsets (tokens : List Token) (node : Node) : List Int :=
  (targets node ++ bound tokens node).map (·.position.offset)

theorem foldl_defineAt (known : Variables) (uses : List Use) :
    uses.foldl Variables.defineAt known = ⟨known.definitions ++ uses, known.reads,
      known.defining ++ uses.map (·.position.offset)⟩ := by
  induction uses generalizing known with
  | nil => simp
  | cons use uses ih => simp [ih, Variables.defineAt, Variables.define]

theorem observe_eq (known : Variables) (visit : Visit) :
    observe tokens known visit =
      ⟨known.definitions ++ visit.entered?.toList.flatMap (definitions tokens),
        known.reads ++ readsAt tokens (fun visit =>
          known.defining.contains visit.node.span.start.offset) visit,
        known.defining ++ visit.entered?.toList.flatMap (definingOffsets tokens)⟩ := by
  obtain ⟨phase, node, ancestors, place⟩ := visit
  cases phase with
  | leave => simp [observe, Visit.entered?, readsAt]
  | enter =>
    simp only [Visit.entered?, Option.toList_some, flatMap_singleton]
    unfold observe
    split
    case h_1 hnode | h_2 hnode =>
      cases hnode
      simp [Variables.defineAt, Variables.define, definitions, targets, bound, saved, readsAt,
        definingOffsets]
    · rename_i argument _ _ _ hnode
      cases hnode
      dsimp only
      rw [forNames_eq_names, foldl_defineAt]
      cases argument <;>
        simp [definitions, targets, bound, saved, readsAt, definingOffsets, Variables.addReads]
    · rename_i hnode
      cases hnode
      dsimp only
      split <;> simp_all [definitions, targets, bound, saved, readsAt, definingOffsets,
        Variables.define]
    · rename_i hnode
      cases hnode
      dsimp only
      split <;> simp_all [definitions, targets, bound, saved, readsAt, definingOffsets,
        Variables.addReads, Node.span, Expr.span]
    · rename_i hassign hset hfor hsave hname
      have htargets : targets node = [] := by
        unfold targets
        split
        · exact (hassign _ _ _ _ rfl rfl).elim
        · exact (hset _ _ _ _ rfl rfl).elim
        · rfl
      have hbound : bound tokens node = [] := by
        unfold bound
        split
        · exact (hfor _ _ _ _ rfl rfl).elim
        · rfl
      have hsaved : saved node = [] := by
        unfold saved
        split
        · exact (hsave _ _ _ rfl rfl).elim
        · rfl
      have hreads (defining : Visit → Bool) :
          readsAt tokens defining ⟨.enter, node, ancestors, place⟩ = [] := by
        unfold readsAt
        split
        · rename_i hnode
          exact (hname _ rfl hnode).elim
        · rename_i hnode
          exact (hfor _ _ _ _ rfl hnode).elim
        · rfl
      simp [definitions, definingOffsets, htargets, hbound, hsaved, hreads]

/-! ## Defining identifiers -/

theorem mem_targets (h : use ∈ targets node) :
    ∃ target : Name, use = ⟨target.text, target.span.start⟩ ∧
      ((∃ span span' right, node =
          .statement (.expression span (.binary span' .equal (.identifier target) right))) ∨
        ∃ span subKeywords body, node =
          .statement (.keyword span "set" (some (.expr (.identifier target)))
            subKeywords body)) := by
  unfold targets at h
  split at h
  · exact ⟨_, mem_singleton.mp h, .inl ⟨_, _, _, rfl⟩⟩
  · exact ⟨_, mem_singleton.mp h, .inr ⟨_, _, _, rfl⟩⟩
  · cases h

theorem exists_token_of_mem_namesIn {afterDot : Bool} (h : use ∈ namesIn afterDot tokens) :
    ∃ token ∈ tokens, use.position = token.span.start := by
  induction tokens generalizing afterDot with
  | nil => cases h
  | cons token rest ih =>
    rw [namesIn] at h
    have hlater (h : use ∈ namesIn (token.kind = .dot) rest) :
        ∃ token' ∈ token :: rest, use.position = token'.span.start := by
      obtain ⟨other, hother, hplace⟩ := ih h
      exact ⟨other, mem_cons_of_mem _ hother, hplace⟩
    split at h
    · rcases mem_cons.mp h with rfl | h
      · exact ⟨token, mem_cons_self, rfl⟩
      · exact hlater h
    · exact hlater h

theorem start_le_of_mem_bound (h : use ∈ bound tokens node) :
    node.isCode = false ∧ node.span.start.offset ≤ use.position.offset := by
  unfold bound at h
  split at h
  · obtain ⟨token, htoken, hplace⟩ := exists_token_of_mem_namesIn h
    have hline := (takeWhile_subset _) ((takeWhile_subset _) htoken)
    rw [hplace]
    exact ⟨rfl, of_decide_eq_true (mem_filter.mp hline).2⟩
  · cases h

section

variable {before after : List Visit} {name : Name} (h : root.Nested P)
  (hvisits : root.tour [] 0 = before ++ visit :: after) (henter : visit.phase = .enter)
  (hname : visit.node = .expr (.identifier name))
include h hvisits henter hname

theorem eq_or_mem_before (hother : other ∈ root.tour [] 0) (hphase : other.phase = .enter)
    (hle : other.node.span.start.offset ≤ visit.node.span.start.offset) :
    other = visit ∨ other ∈ before := by
  have hpairwise := pairwise_filterMap.mp h.pairwise_leaf
  rw [hvisits] at hother hpairwise
  rcases mem_append.mp hother with hbefore | hrest
  · exact .inr hbefore
  rcases mem_cons.mp hrest with rfl | hafter
  · exact .inl rfl
  have hlt := (pairwise_cons.mp (pairwise_append.mp hpairwise).2.1).1 other hafter visit.node
    (by simp [Visit.entered?, henter]) other.node (by simp [Visit.entered?, hphase])
    (by rw [hname]; rfl)
  omega

/-- There is one identifier at a place. -/
theorem eq_of_start_eq {target : Name} (hother : other ∈ root.tour [] 0)
    (hphase : other.phase = .enter) (htarget : other.node = .expr (.identifier target))
    (hstart : target.span.start.offset = visit.node.span.start.offset) : other = visit := by
  have hplace : other.node.span.start.offset = visit.node.span.start.offset := by
    rw [htarget]
    exact hstart
  rcases eq_or_mem_before h hvisits henter hname hother hphase (Int.le_of_eq hplace) with
    heq | hbefore
  · exact heq
  have hpairwise := pairwise_filterMap.mp h.pairwise_leaf
  rw [hvisits] at hpairwise
  have hlt := (pairwise_append.mp hpairwise).2.2 other hbefore visit mem_cons_self other.node
    (by simp [Visit.entered?, hphase]) visit.node (by simp [Visit.entered?, henter])
    (by rw [htarget]; rfl)
  omega

theorem isTarget_of_mem_targets {outer : Visit} (houter : outer ∈ root.tour [] 0)
    (hphase : outer.phase = .enter) (huse : use ∈ targets outer.node)
    (hstart : use.position.offset = visit.node.span.start.offset) : isTarget visit = true := by
  have hsame {place : Nat} {around : List Node} {target : Name}
      (huse : use = ⟨target.text, target.span.start⟩)
      (hmem : ⟨.enter, .expr (.identifier target), around, place⟩ ∈ root.tour [] 0) :
      ⟨.enter, .expr (.identifier target), around, place⟩ = visit :=
    eq_of_start_eq h hvisits henter hname hmem rfl rfl (by rw [← hstart, huse])
  obtain ⟨target, rfl, ⟨span, span', right, hnode⟩ | ⟨span, subKeywords, body, hnode⟩⟩ :=
    mem_targets huse
  · have hassign : ⟨.enter, .expr (.binary span' .equal (.identifier target) right),
        outer.node :: outer.ancestors, 0⟩ ∈ root.tour [] 0 :=
      Node.mem_tour_of_inward houter ⟨hphase, rfl, by rw [hnode]; rfl⟩ rfl
    have htarget : ⟨.enter, .expr (.identifier target), _, 0⟩ ∈ root.tour [] 0 :=
      Node.mem_tour_of_inward hassign ⟨rfl, rfl, rfl⟩ rfl
    rw [← hsame rfl htarget, hnode]
    rfl
  · have htarget : ⟨.enter, .expr (.identifier target), _, 0⟩ ∈ root.tour [] 0 :=
      Node.mem_tour_of_inward houter ⟨hphase, rfl, by rw [hnode]; rfl⟩ rfl
    rw [← hsame rfl htarget, hnode]
    rfl

/-- The statement that makes an identifier a target is met before it. -/
theorem exists_targets_of_isTarget (htarget : isTarget visit = true) :
    ∃ outer ∈ before, outer.phase = .enter ∧
      ⟨name.text, name.span.start⟩ ∈ targets outer.node := by
  have hmem : visit ∈ root.tour [] 0 := hvisits ▸ mem_append_right _ mem_cons_self
  have hinward {inner : Visit} (hinner : inner ∈ root.tour [] 0) (hphase : inner.phase = .enter)
      (haround : inner.ancestors ≠ []) : ∃ outer ∈ root.tour [] 0, Node.Inward outer inner := by
    refine (Node.exists_inward hinner hphase).resolve_left fun heq => haround ?_
    rw [heq]
  have hle {outer inner : Visit} (houter : outer ∈ root.tour [] 0)
      (hchild : Node.Inward outer inner) :
      outer.node.span.start.offset ≤ inner.node.span.start.offset :=
    ((h.of_mem_walk (Node.mem_walk_of_mem_tour houter)).strung.chained.bounds
      (mem_map_of_mem (mem_of_getElem? hchild.child))).1
  have hbefore {outer : Visit} (houter : outer ∈ root.tour [] 0) (hphase : outer.phase = .enter)
      (hlate : outer.node.span.start.offset ≤ visit.node.span.start.offset)
      (hcode : outer.node.isCode = false) : outer ∈ before := by
    refine (eq_or_mem_before h hvisits henter hname houter hphase hlate).resolve_left ?_
    rintro rfl
    rw [hname] at hcode
    cases hcode
  unfold isTarget at htarget
  split at htarget
  · rename_i span left right span' value around hancestors
    obtain ⟨assign, hassign, hchild⟩ := hinward hmem henter (by simp [hancestors])
    have hancestors' := hancestors.symm.trans hchild.ancestors
    obtain ⟨hnode, haround⟩ := cons.inj hancestors'
    obtain ⟨line, hline, hchild'⟩ := hinward hassign hchild.enters (by simp [← haround])
    have hnode' := (cons.inj (haround.trans hchild'.ancestors)).1
    have hleft := hchild.child
    have hvalue := mem_of_getElem? hchild'.child
    rw [← hnode, hname, eq_of_beq htarget] at hleft
    rw [← hnode', ← hnode] at hvalue
    obtain rfl : left = .identifier name := Node.expr.inj (Option.some.inj hleft)
    obtain rfl := Node.expr.inj (mem_singleton.mp hvalue)
    refine ⟨line, hbefore hline hchild'.enters ((hle hline hchild').trans (hle hassign hchild)) ?_,
      hchild'.enters, ?_⟩ <;> rw [← hnode']
    · rfl
    · exact mem_singleton.mpr rfl
  · rename_i span argument subKeywords body around hancestors
    obtain ⟨line, hline, hchild⟩ := hinward hmem henter (by simp [hancestors])
    obtain ⟨hnode, -⟩ := cons.inj (hancestors.symm.trans hchild.ancestors)
    have hargument := mem_of_getElem? hchild.child
    rw [← hnode, hname, (Node.children_perm_held _).mem_iff] at hargument
    obtain rfl : argument = some (.expr (.identifier name)) := by
      rcases argument with - | (value | text) <;> simp_all [Node.held, Node.ofArgument]
    refine ⟨line, hbefore hline hchild.enters (hle hline hchild) ?_, hchild.enters, ?_⟩ <;>
      rw [← hnode]
    · rfl
    · exact mem_singleton.mpr rfl
  · cases htarget

/-- What a tour has met before an identifier is enough to tell whether it is defining. -/
theorem contains_defining :
    ((before.filterMap Visit.entered?).flatMap (definingOffsets tokens)).contains
      visit.node.span.start.offset = isDefining tokens root.walk visit := by
  rw [Bool.eq_iff_iff, contains_iff_mem, isDefining, Bool.or_eq_true, any_eq_true]
  constructor
  · intro hmem
    obtain ⟨node, hnode, hoffset⟩ := mem_flatMap.mp hmem
    obtain ⟨outer, houter, hentered⟩ := mem_filterMap.mp hnode
    obtain ⟨hphase, rfl⟩ := Visit.entered?_eq_some.mp hentered
    obtain ⟨use, huse, hstart⟩ := mem_map.mp hoffset
    have hmem : outer ∈ root.tour [] 0 := hvisits ▸ mem_append_left _ houter
    rcases mem_append.mp huse with htarget | hbound
    · exact .inl (isTarget_of_mem_targets h hvisits henter hname hmem hphase htarget hstart)
    · exact .inr ⟨use, mem_flatMap.mpr ⟨_, Node.mem_walk_of_mem_tour hmem, hbound⟩,
        beq_iff_eq.mpr hstart⟩
  · have hmem {outer : Visit} {use : Use} (houter : outer ∈ before) (hphase : outer.phase = .enter)
        (huse : use ∈ targets outer.node ++ bound tokens outer.node)
        (hstart : use.position.offset = visit.node.span.start.offset) :
        visit.node.span.start.offset ∈
          (before.filterMap Visit.entered?).flatMap (definingOffsets tokens) :=
      mem_flatMap.mpr ⟨outer.node,
        mem_filterMap.mpr ⟨outer, houter, Visit.entered?_eq_some.mpr ⟨hphase, rfl⟩⟩,
        mem_map.mpr ⟨use, huse, hstart⟩⟩
    rintro (htarget | ⟨use, huse, hstart⟩)
    · obtain ⟨outer, houter, hphase, huse⟩ :=
        exists_targets_of_isTarget h hvisits henter hname htarget
      exact hmem houter hphase (mem_append_left _ huse) (by rw [hname]; rfl)
    · obtain ⟨node, hnode, huse⟩ := mem_flatMap.mp huse
      obtain ⟨outer, houter, hentered⟩ := mem_filterMap.mp hnode
      obtain ⟨hphase, rfl⟩ := Visit.entered?_eq_some.mp hentered
      obtain ⟨hcode, hle⟩ := start_le_of_mem_bound huse
      rw [eq_of_beq hstart] at hle
      rcases eq_or_mem_before h hvisits henter hname houter hphase hle with rfl | hbefore
      · rw [hname] at hcode
        cases hcode
      · exact hmem hbefore hphase (mem_append_right _ huse) (eq_of_beq hstart)

end

theorem foldl_observe (h : root.Nested P) {before after : List Visit}
    (hvisits : root.tour [] 0 = before ++ after) :
    before.foldl (observe tokens) {} =
      ⟨(before.filterMap Visit.entered?).flatMap (definitions tokens),
        before.flatMap (readsAt tokens (isDefining tokens root.walk)),
        (before.filterMap Visit.entered?).flatMap (definingOffsets tokens)⟩ := by
  induction before using reverseRecOn generalizing after with
  | nil => rfl
  | append_singleton before visit ih =>
    rw [append_assoc] at hvisits
    have hreads : readsAt tokens (fun visit =>
        ((before.filterMap Visit.entered?).flatMap (definingOffsets tokens)).contains
          visit.node.span.start.offset) visit =
        readsAt tokens (isDefining tokens root.walk) visit := by
      unfold readsAt
      split
      · rename_i hphase hnode
        simp only [contains_defining h hvisits hphase hnode]
      · rfl
      · rfl
    rw [foldl_append, ih hvisits, foldl_cons, foldl_nil, observe_eq, hreads]
    cases hentered : visit.entered? <;> simp [filterMap_append, hentered]

theorem variablesOf_eq (h : root.Nested P) (source : String) (tokens : List Token) :
    let found := variablesOf ⟨source, tokens, root.tour [] 0⟩
    found.definitions = root.walk.flatMap (definitions tokens) ∧
      found.reads = (root.tour [] 0).flatMap (readsAt tokens (isDefining tokens root.walk)) := by
  have hfold : variablesOf ⟨source, tokens, root.tour [] 0⟩ = _ :=
    foldl_observe h (append_nil _).symm
  rw [hfold]
  exact ⟨rfl, rfl⟩

theorem mem_firstUses_iff {uses : List Use} :
    use ∈ firstUses uses ↔ uses.find? (·.name == use.name) = some use := by
  induction uses with
  | nil => simp [firstUses]
  | cons first rest ih =>
    rw [firstUses, mem_cons, mem_filter, ih]
    by_cases hname : first.name = use.name
    · simp [hname, eq_comm]
    · have hne : use ≠ first := fun h => hname (h ▸ rfl)
      rw [find?_cons_of_neg (by simpa using hname)]
      simp [hne, Ne.symm hname]

theorem nodup_firstUses (uses : List Use) : ((firstUses uses).map Use.name).Nodup := by
  induction uses with
  | nil => exact nodup_nil
  | cons first rest ih =>
    rw [firstUses, map_cons, nodup_cons]
    refine ⟨by simp, ih.sublist (filter_sublist.map _)⟩

end Rule

namespace Lint

open Rule

/-- The rules on variables are exact. An identifier of the tree is read unless it is defining or
exempt, whatever the order of the statements. A read is reported if nothing defines its name, and
the first definition of a name if nothing reads it. -/
theorem messages_variables {settings : Settings} {source : String} {found : List Message}
    (h : messages settings source = .ok found) :
    ∃ program faults, Program.ofSource source = .ok (program, faults) ∧
      let tokens := Token.ofSource source
      let nodes := (Node.program program).walk
      let defined := nodes.flatMap (definitions tokens)
      let reads := ((Node.program program).tour [] 0).flatMap
        (readsAt tokens (isDefining tokens nodes))
      (∀ severity, severityOf settings noUndefinedVars = some severity →
        (ofRule noUndefinedVars found).Perm
          ((reads.filter fun use => use.name ≠ "it" ∧ use.name ∉ defined.map Use.name).map
            fun use =>
            ⟨"no-undefined-vars", severity,
              .ofPosition use.position s!"Variable '{use.name}' is used but never defined"⟩)) ∧
      ∀ severity, severityOf settings noUnusedVars = some severity →
        ∃ unused : List Use, (unused.map Use.name).Nodup ∧
          (∀ use, use ∈ unused ↔ defined.find? (·.name == use.name) = some use ∧
            use.name ∉ reads.map Use.name) ∧
          (ofRule noUnusedVars found).Perm (unused.map fun use =>
            ⟨"no-unused-vars", severity,
              .ofPosition use.position s!"Variable '{use.name}' is defined but never used"⟩) := by
  obtain ⟨program, faults, hread, rfl⟩ := exists_program_of_messages h
  obtain ⟨items, stop, hreading⟩ := Program.reading_ofSource hread
  obtain ⟨hdefined, hreads⟩ := variablesOf_eq hreading.nested source (Token.ofSource source)
  have huses (uses : List Use) (name : String) :
      usesName uses name = decide (name ∈ uses.map Use.name) := by
    rw [Bool.eq_iff_iff]
    simp [usesName]
  refine ⟨program, faults, hread, fun severity hon => ?_, fun severity hon => ?_⟩
  · refine (perm_onLeave rfl (by simp [Rule.all]) hon source _ program).trans (.of_eq ?_)
    dsimp only
    rw [hreads, hdefined, map_map]
    refine congrArg (map _) (filter_congr fun use _ => ?_)
    rw [huses]
    simp [builtinNames]
  · refine ⟨(firstUses (variablesOf _).definitions).filter fun use =>
        !usesName (variablesOf _).reads use.name,
      (nodup_firstUses _).sublist (filter_sublist.map _), fun use => ?_,
      (perm_onLeave rfl (by simp [Rule.all]) hon source _ program).trans
        (.of_eq (by rw [map_map]; rfl))⟩
    rw [hdefined, hreads, mem_filter, mem_firstUses_iff, huses]
    simp

/-- An assignment to a name that is not read, of a name that is not defined. -/
theorem messages_variables_apart :
    ∃ found, messages [] ">> a = b" = .ok found ∧ (ofRule noUndefinedVars found).length = 1 := by
  obtain ⟨result, hread, hcount⟩ := exists_ok_of_any (Program.ofSource ">> a = b") (fun result =>
      let tokens := Token.ofSource ">> a = b"
      let nodes := (Node.program result.1).walk
      let defined := nodes.flatMap (definitions tokens)
      let reads := ((Node.program result.1).tour [] 0).flatMap
        (readsAt tokens (isDefining tokens nodes))
      (reads.filter fun use => use.name ≠ "it" ∧ use.name ∉ defined.map Use.name).length == 1)
    (by decide +kernel)
  obtain ⟨found, hfound, -⟩ := exists_ok_of_any (messages [] ">> a = b") (fun _ => true)
    (by decide +kernel)
  obtain ⟨program, faults, hother, hundefined, -⟩ := messages_variables hfound
  cases hread.symm.trans hother
  refine ⟨found, hfound, ?_⟩
  rw [(hundefined .error rfl).length_eq, length_map]
  exact eq_of_beq hcount

end Lint
end GuidedTrack
