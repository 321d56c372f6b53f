import GuidedTrack.Proofs.Lint.FixableMessages

/-! # Fixing until nothing changes

Where no closing bracket meets a wrong one, fixing comes to an end: the second pass leaves a text
that no further pass changes.
-/

namespace GuidedTrack.Lint

open List

open Source (Line)
open Source Text Rule

variable {line : Line} {lead body mended : List Char}

/-! ## Lines that are mended are lines -/

theorem exists_of_mem_tabify {c : Char} (h : c ∈ tabify lead) :
    c = '\t' ∨ c ∈ lead ∧ c ≠ ' ' := by
  fun_induction tabify lead with
  | case1 => cases h
  | case2 d rest hd ih =>
    rcases mem_cons.mp h with rfl | h
    · exact .inr ⟨mem_cons_self, by simpa using hd⟩
    · exact (ih h).imp_right fun h => ⟨mem_cons_of_mem d h.1, h.2⟩
  | case3 d rest hd more hlonger ih =>
    rcases mem_cons.mp h with rfl | h
    · exact .inl rfl
    · exact (ih h).imp_right fun h =>
        ⟨mem_cons_of_mem d ((dropWhile_sublist _).subset h.1), h.2⟩
  | case4 d rest hd more hlonger ih =>
    exact (ih h).imp_right fun h =>
      ⟨mem_cons_of_mem d ((dropWhile_sublist _).subset h.1), h.2⟩

theorem mem_fixedLead {c : Char} (h : c ∈ fixedLead lead) : c = '\t' ∨ c ∈ lead := by
  unfold fixedLead at h
  split at h
  · exact (exists_of_mem_tabify h).imp_right And.left
  · exact .inr h

theorem isGap_fixedLead (content : List Char) :
    Gaps (fixedLead (content.takeWhile isGap)) := by
  intro c hc
  rcases mem_fixedLead hc with rfl | hc
  · rfl
  · exact mem_takeWhile_imp hc

theorem head?_fixedLead (lead : List Char) : (fixedLead lead).head? ≠ some ' ' := by
  unfold fixedLead
  split
  · intro hhead
    rcases exists_of_mem_tabify (mem_of_head? hhead) with htab | ⟨-, hspace⟩
    · cases htab
    · exact hspace rfl
  · rename_i hhead
    simpa using hhead

theorem fixedLead_fixedLead (lead : List Char) : fixedLead (fixedLead lead) = fixedLead lead :=
  if_neg (by simpa using head?_fixedLead lead)

structure Replaces (line mended : Line) : Prop where
  ending : mended.ending = line.ending
  inline : ∀ c ∈ mended.content, isInline c = true
  filled : mended.content = [] → line.content = []

theorem ending_of_lines {cs : List Char} {more : List Line} (h : lines cs = line :: more)
    (hcontent : line.content = []) : line.ending ≠ [] := by
  intro hending
  obtain ⟨tail, hopens, -⟩ := opens_of_lines h
  obtain ⟨htext, -, hends⟩ := hopens
  rw [hending] at hends
  cases hends
  rw [hcontent, hending] at htext
  subst htext
  cases h

section

variable {cs : List Char} {lines mended : List Line}

theorem head?_textOf (h : Forall₂ Replaces lines mended) (hlines : Source.lines cs = lines)
    (hhead : cs.head? ≠ some '\n') : (textOf mended).head? ≠ some '\n' := by
  cases h with
  | nil => simp [textOf]
  | @cons line mendedLine lines mended hline hrest =>
    rw [textOf, flatMap_cons]
    cases hcontent : mendedLine.content with
    | nil =>
      have hempty := hline.filled hcontent
      obtain ⟨tail, hopens, -⟩ := opens_of_lines hlines
      obtain ⟨c, ending, hending⟩ := exists_cons_of_ne_nil (ending_of_lines hlines hempty)
      rw [hopens.text, hempty, hending] at hhead
      rw [hline.ending, hending]
      exact hhead
    | cons c content =>
      have hc := hline.inline c (by simp [hcontent])
      rintro heq
      obtain rfl : c = '\n' := by simpa using heq
      cases hc

theorem lines_textOf (h : Forall₂ Replaces lines mended) (hlines : Source.lines cs = lines) :
    Source.lines (textOf mended) = mended := by
  induction h generalizing cs with
  | nil => rfl
  | @cons line mendedLine lines mended hline hrest ih =>
    obtain ⟨tail, hopens, hmore⟩ := opens_of_lines hlines
    have hends : Ends line.ending (textOf mended) := by
      have hends := hopens.ends
      generalize line.ending = ending at hends
      cases hends with
      | source =>
        subst hmore
        cases hrest
        exact .source
      | feed => exact .feed
      | both => exact .both
      -- a carriage return stays alone, since no line starts to begin with a line feed
      | carriage alone => exact .carriage (head?_textOf hrest hmore alone)
    have hfirst : mendedLine.Opens (textOf (mendedLine :: mended)) (textOf mended) := by
      refine ⟨?_, hline.inline, hline.ending ▸ hends⟩
      rw [textOf, flatMap_cons, append_assoc, textOf]
    refine (lines_of_opens hfirst fun hnil => ?_).trans (by rw [ih hmore])
    obtain ⟨hcontent, hending, -⟩ : mendedLine.content = [] ∧ mendedLine.ending = [] ∧ _ := by
      simpa [hfirst.text] using hnil
    exact ending_of_lines hlines (hline.filled hcontent) (hline.ending ▸ hending)

end

/-! ## Lines that are mended twice -/

theorem head?_mended (h : Mended body mended) : mended.head? = body.head? := by
  obtain ⟨front, added, tail, rfl, rfl, hmends⟩ := h
  rw [head?_append_of_ne_nil _ hmends.filled, head?_append_of_ne_nil _ hmends.filled]

theorem inline_mended (h : Mended body mended) (hbody : Inline body) :
    Inline mended := by
  obtain ⟨front, added, tail, rfl, rfl, hmends⟩ := h
  obtain ⟨hfront, htail⟩ := forall_mem_append.mp hbody
  exact forall_mem_append.mpr ⟨hfront, forall_mem_append.mpr ⟨hmends.inline, htail⟩⟩

theorem replaces_of_mendedLine {mended : Line} (h : MendedLine line mended)
    (hinline : Inline line.content) : Replaces line mended := by
  refine ⟨h.ending, ?_, ?_⟩
  all_goals rcases h.content with ⟨-, hcontent⟩ | ⟨body, hbody, hcontent⟩
  · rwa [hcontent]
  · rw [hcontent]
    refine forall_mem_append.mpr ⟨fun c hc => ?_, inline_mended hbody fun c hc => ?_⟩
    · rcases mem_fixedLead hc with rfl | hc
      · rfl
      · exact hinline c ((takeWhile_sublist _).subset hc)
    · exact hinline c ((dropWhile_sublist _).subset hc)
  · rw [hcontent]
    exact id
  · intro hnil
    obtain ⟨front, added, tail, -, rfl, hmends⟩ := hbody
    rw [hcontent] at hnil
    exact absurd (append_eq_nil_iff.mp (append_eq_nil_iff.mp hnil).2).1 hmends.filled

theorem mendedLine_append {ending : List Char} (hlead : Gaps lead)
    (hfixed : fixedLead lead = lead) (hbody : body.head?.any isGap = false)
    (h : Mended body mended) : MendedLine ⟨lead ++ body, ending⟩ ⟨lead ++ mended, ending⟩ := by
  obtain ⟨htake, hdrop⟩ := Token.cut_gaps hlead hbody
  refine ⟨rfl, .inr ⟨mended, ?_, ?_⟩⟩
  · rwa [hdrop]
  · rw [htake, hfixed]

/-- A line whose brackets match is mended in two passes at most. -/
theorem exists_mendedLine (h : line.content.dropWhile isGap ≠ [] → ∃ depth p,
      Matched [] ((Token.scanContent depth p (line.content.dropWhile isGap)).map
        (·.kind))) :
    ∃ once twice, MendedLine line once ∧ MendedLine once twice ∧ MendedLine twice twice := by
  by_cases hbody : line.content.dropWhile isGap = []
  · have hstable : MendedLine line line := ⟨rfl, .inl ⟨hbody, rfl⟩⟩
    exact ⟨line, line, hstable, hstable, hstable⟩
  · obtain ⟨depth, p, hmatched⟩ := h hbody
    obtain ⟨once, twice, hfirst, hsecond, hthird⟩ :=
      exists_mended (Token.ending_exists hbody) hbody hmatched
    have hgap := Token.head?_dropWhile_isGap line.content
    let lead := fixedLead (line.content.takeWhile isGap)
    have hlead : Gaps lead := isGap_fixedLead line.content
    have hfixed : fixedLead lead = lead := fixedLead_fixedLead _
    rw [← head?_mended hfirst] at hgap
    have hagain := hgap
    rw [← head?_mended hsecond] at hagain
    exact ⟨⟨lead ++ once, line.ending⟩, ⟨lead ++ twice, line.ending⟩,
      ⟨rfl, .inr ⟨once, hfirst, rfl⟩⟩, mendedLine_append hlead hfixed hgap hsecond,
      mendedLine_append hlead hfixed hagain hthird⟩

/-! ## Sources that are mended twice -/

section

variable {cs : List Char} {lines mended : List Line}

theorem matched_scanLines (hlines : Source.lines cs = lines) {opened : List Nat} {p : Position}
    {lineEnd : Int} (h : ∀ report ∈ bracketReports [] lineEnd (Token.scanLines opened p lines),
      isMismatch report = false) :
    ∀ line ∈ lines, line.content.dropWhile isGap ≠ [] → ∃ depth q,
      Matched [] ((Token.scanContent depth q (line.content.dropWhile isGap)).map
        (·.kind)) := by
  induction lines generalizing cs opened p lineEnd with
  | nil => simp
  | cons line lines ih =>
    obtain ⟨tail, hopens, hmore⟩ := opens_of_lines hlines
    by_cases hblank : line.content.dropWhile isGap = []
    · rw [scanLines_blank hblank] at h
      exact forall_mem_cons.mpr ⟨fun hbody => absurd hblank hbody, ih hmore h⟩
    · obtain ⟨depth, inside, _, rfl, hbrackets, -⟩ := reports_scanLines hlines hblank opened p
      rw [hbrackets] at h
      obtain ⟨hrow, hrest⟩ := forall_mem_append.mp h
      exact forall_mem_cons.mpr ⟨fun _ => ⟨_, _, matched_of_rowFaults hrow⟩,
        ih hmore (forall_mem_append.mp hrest).2⟩

theorem exists_mendedLines (h : ∀ line ∈ lines, ∃ once twice,
      MendedLine line once ∧ MendedLine once twice ∧ MendedLine twice twice) :
    ∃ once twice, Forall₂ MendedLine lines once ∧ Forall₂ MendedLine once twice ∧
      Forall₂ MendedLine twice twice := by
  induction lines with
  | nil => exact ⟨[], [], .nil, .nil, .nil⟩
  | cons line lines ih =>
    obtain ⟨⟨once, twice, hfirst, hsecond, hthird⟩, hlines⟩ := forall_mem_cons.mp h
    obtain ⟨onces, twices, hfirsts, hseconds, hthirds⟩ := ih hlines
    exact ⟨once :: onces, twice :: twices, .cons hfirst hfirsts, .cons hsecond hseconds,
      .cons hthird hthirds⟩

theorem replaces_lines (hlines : Source.lines cs = lines)
    (h : Forall₂ MendedLine lines mended) : Forall₂ Replaces lines mended := by
  induction h generalizing cs with
  | nil => exact .nil
  | cons hline hrest ih =>
    obtain ⟨tail, hopens, hmore⟩ := opens_of_lines hlines
    exact .cons (replaces_of_mendedLine hline hopens.inline) (ih hmore)

theorem lines_of_mended (hlines : Source.lines cs = lines)
    (h : Forall₂ MendedLine lines mended) : Source.lines (textOf mended) = mended :=
  lines_textOf (replaces_lines hlines h) hlines

theorem fixed_textOf (hlines : Source.lines (textOf lines) = lines)
    (h : Forall₂ MendedLine lines mended) {output : String}
    (hfixed : fixed Configuration.standard.rules (String.ofList (textOf lines)) = .ok output) :
    output = String.ofList (textOf mended) :=
  fixed_of_mended (by rwa [String.toList_ofList, hlines]) hfixed

end

/-! ## Passes -/

section

variable {settings : Settings} {source output result : String}

theorem fixRepeatedly_stable (h : fixed settings source = .ok source) (passes : Nat) :
    fixRepeatedly settings passes source = .ok source := by
  cases passes with
  | zero => rfl
  | succ passes =>
    rw [fixRepeatedly, h]
    exact if_pos (beq_self_eq_true source)

theorem fixRepeatedly_succ (h : fixed settings source = .ok output) (passes : Nat) :
    fixRepeatedly settings (passes + 1) source = fixRepeatedly settings passes output := by
  by_cases heq : output = source
  · subst heq
    rw [fixRepeatedly_stable h, fixRepeatedly_stable h]
  · rw [fixRepeatedly, h]
    exact if_neg (by simpa using heq)

theorem exists_fixed {passes : Nat} (h : fixRepeatedly settings (passes + 1) source = .ok result) :
    ∃ output, fixed settings source = .ok output := by
  cases hfixed : fixed settings source with
  | error e =>
    rw [fixRepeatedly, hfixed] at h
    cases h
  | ok output => exact ⟨output, rfl⟩

end

/-- Fixing a source until it stops changing gives a text that fixing leaves as it is, and takes two
passes at most, if no closing bracket of the source meets a wrong one. -/
theorem fixUntilStable_stable {source result : String} {found : List Message}
    (hfound : messages Configuration.standard.rules source = .ok found)
    (hmatched : ∀ message ∈ found, Rule.isMismatch message.report = false)
    (hresult : fixUntilStable Configuration.standard.rules source = .ok result) :
    fixed Configuration.standard.rules result = .ok result ∧
      fixRepeatedly Configuration.standard.rules 2 source = .ok result := by
  have hlines : ∀ line ∈ Source.lines source.toList, ∃ once twice,
      MendedLine line once ∧ MendedLine once twice ∧ MendedLine twice twice := by
    have hbrackets : ∀ report ∈ Rule.bracketReports [] 0 (Token.ofSource source),
        Rule.isMismatch report = false := by
      intro report hreport
      obtain ⟨message, hmessage, rfl⟩ := mem_map.mp (mem_of_bracketReports hfound hreport)
      exact hmatched message hmessage
    exact fun line hline => exists_mendedLine (matched_scanLines rfl hbrackets line hline)
  obtain ⟨once, twice, hfirst, hsecond, hthird⟩ := exists_mendedLines hlines
  have honce := lines_of_mended rfl hfirst
  have htwice := lines_of_mended honce hsecond
  -- three passes are made, and the last changes nothing
  obtain ⟨output, houtput⟩ := exists_fixed hresult
  obtain rfl := fixed_of_mended hfirst houtput
  have hrest := (fixRepeatedly_succ houtput _).symm.trans hresult
  obtain ⟨next, hnext⟩ := exists_fixed hrest
  obtain rfl := fixed_textOf honce hsecond hnext
  have hlast := (fixRepeatedly_succ hnext _).symm.trans hrest
  obtain ⟨final, hfinal⟩ := exists_fixed hlast
  obtain rfl := fixed_textOf htwice hthird hfinal
  rw [fixRepeatedly_stable hfinal] at hlast
  cases hlast
  refine ⟨hfinal, ?_⟩
  rw [fixRepeatedly_succ houtput, fixRepeatedly_succ hnext]
  rfl

/-- What closes the brackets lands inside the string first, and behind it in the second pass. -/
theorem fixUntilStable_stable_string :
    ∃ found, messages Configuration.standard.rules "  \x7b(\"" = .ok found ∧
      (∀ message ∈ found, Rule.isMismatch message.report = false) ∧
      fixUntilStable Configuration.standard.rules "  \x7b(\"" = .ok "\t\x7b(\")\x7d\")\x7d" ∧
      fixed Configuration.standard.rules "\t\x7b(\")\x7d\")\x7d" = .ok "\t\x7b(\")\x7d\")\x7d" := by
  have hfound : messages Configuration.standard.rules "  \x7b(\"" = .ok [
      ⟨"indent-style", .error, ⟨"Use tabs for indentation, not spaces", 1, 1, some 1, some 3,
        some ⟨0, 2, "\t"⟩⟩⟩,
      ⟨"no-unclosed-bracket", .error, ⟨"Unclosed '\x7b'", 1, 3, none, none, some ⟨5, 5, ")\x7d"⟩⟩⟩,
      ⟨"no-unclosed-bracket", .error, ⟨"Unclosed '('", 1, 4, none, none, none⟩⟩,
      ⟨"no-unclosed-string", .error, ⟨"Unclosed string literal", 1, 5, some 1, some 6,
        some ⟨5, 5, "\""⟩⟩⟩] := by
    rw [messages_eq_insertion]
    decide +kernel
  have hresult : fixUntilStable Configuration.standard.rules "  \x7b(\"" =
      .ok "\t\x7b(\")\x7d\")\x7d" := by
    simp only [fixUntilStable, maxPasses, fixRepeatedly, fixed, messages_eq_insertion, Fix.applyAll,
      Fix.sorted_eq_insertion]
    decide +kernel
  refine ⟨_, hfound, ?_, hresult, (fixUntilStable_stable hfound ?_ hresult).1⟩
  all_goals decide

/-- A closing bracket that meets a wrong one leaves another open, and what is meant to close that
one is text behind it: every pass adds one more, and the passes are used up. -/
theorem fixUntilStable_mismatched :
    fixUntilStable Configuration.standard.rules "\x7b(\x7d" =
        .ok (String.ofList ('{' :: '(' :: replicate 11 '}')) ∧
      fixed Configuration.standard.rules (String.ofList ('{' :: '(' :: replicate 11 '}')) =
        .ok (String.ofList ('{' :: '(' :: replicate 12 '}')) := by
  simp only [fixUntilStable, maxPasses, fixRepeatedly, fixed, messages_eq_insertion, Fix.applyAll,
    Fix.sorted_eq_insertion]
  decide +kernel

end GuidedTrack.Lint
