import GuidedTrack.Layout
import GuidedTrack.Proofs.Layout.GapCollapse

/-! # The content of a line

Laying out the content of a line changes the code after a `>>`, or the argument after the name and
the colon of a directive, and nothing else. `ContentKept` gathers what the layout of whole lines
needs to know about it.
-/

namespace GuidedTrack.Layout

open Text List

variable {cs rest content : List Char} {f : List Char → List Char}

/-! ## What stands after a head -/

/-- A way to rewrite a text that has no gaps at its ends. -/
structure Respacing (f : List Char → List Char) : Prop where
  head : ∀ {c : Char} {rest : List Char}, isGap c = false → Trimmed (c :: rest) →
    ∃ t, f (c :: rest) = c :: t
  trimmed : ∀ {cs : List Char}, Trimmed cs → Trimmed (f cs)
  again : ∀ {cs : List Char}, Trimmed cs → f (f cs) = f cs
  mem : ∀ {cs : List Char} {d : Char}, Trimmed cs → d ∈ f cs → isGap d = true ∨ d ∈ cs

theorem respacing_id : Respacing id where
  head _ _ := ⟨_, rfl⟩
  trimmed h := h
  again _ := rfl
  mem _ h := .inr h

theorem respacing_code (style : Style) (operators : Bool) : Respacing (code style operators) where
  head hc h := code_cons style operators hc h
  trimmed h := code_trimmed style operators h
  again h := code_code style operators h
  mem h hd := mem_code h hd

theorem respacing_code_collapse (style : Style) :
    Respacing fun cs => code style false (collapse cs) where
  head hc h := by
    obtain ⟨t, ht⟩ := collapse_cons hc h
    have hcollapse := collapse_trimmed h
    rw [ht] at hcollapse ⊢
    exact code_cons style false hc hcollapse
  trimmed h := code_trimmed style false (collapse_trimmed h)
  again h := by rw [collapse_code_collapse style h, code_code style false (collapse_trimmed h)]
  mem h hd := mem_code_collapse h hd

/-- A text behind one space instead of its leading gaps, and nothing if only gaps are there. -/
def afterSpace (f : List Char → List Char) (rest : List Char) : List Char :=
  let body := rest.dropWhile isGap
  if body.isEmpty then [] else ' ' :: f body

theorem Trimmed.dropWhile (h : Trimmed cs) : Trimmed (cs.dropWhile isGap) := by
  rw [← takeWhile_append_dropWhile (p := isGap) (l := cs)] at h
  exact h.of_append

theorem Trimmed.append {as cs : List Char} (ha : Trimmed as) (hc : Trimmed cs) :
    Trimmed (as ++ cs) := by
  intro c hmem
  rw [Option.mem_def, getLast?_append] at hmem
  cases hlast : cs.getLast? with
  | none =>
    rw [hlast, Option.none_or] at hmem
    exact ha c hmem
  | some d =>
    rw [hlast, Option.some_or] at hmem
    exact hc c (hlast ▸ hmem)

theorem isGap_of_dropWhile {c : Char} (h : cs.dropWhile isGap = c :: rest) : isGap c = false := by
  simpa [h] using head?_dropWhile_not isGap cs

theorem Respacing.afterSpace_again (hf : Respacing f) (h : Trimmed rest) :
    afterSpace f (afterSpace f rest) = afterSpace f rest := by
  cases hrest : rest.dropWhile isGap with
  | nil => simp [afterSpace, hrest]
  | cons c more =>
    have ht := h.dropWhile
    rw [hrest] at ht
    have hc := isGap_of_dropWhile hrest
    obtain ⟨t, hft⟩ := hf.head hc ht
    have hfirst : afterSpace f rest = ' ' :: c :: t := by simp [afterSpace, hrest, hft]
    have hagain : f (c :: t) = c :: t := by rw [← hft, hf.again ht]
    have hspace : isGap ' ' = true := by decide
    rw [hfirst]
    simp [afterSpace, hspace, hc, hagain]

theorem Respacing.afterSpace_trimmed (hf : Respacing f) (h : Trimmed rest) :
    Trimmed (afterSpace f rest) := by
  cases hrest : rest.dropWhile isGap with
  | nil => simp [afterSpace, hrest, Trimmed]
  | cons c more =>
    have ht := h.dropWhile
    rw [hrest] at ht
    obtain ⟨t, hft⟩ := hf.head (isGap_of_dropWhile hrest) ht
    have hlast := hf.trimmed ht
    simp only [afterSpace, hrest, isEmpty_cons, Bool.false_eq_true, if_false, hft] at hlast ⊢
    intro d hd
    exact hlast d (by simpa [getLast?_cons] using hd)

theorem Respacing.mem_afterSpace (hf : Respacing f) (h : Trimmed rest) {d : Char}
    (hd : d ∈ afterSpace f rest) : isGap d = true ∨ d ∈ rest := by
  simp only [afterSpace] at hd
  split at hd
  · cases hd
  rcases mem_cons.mp hd with rfl | hd
  · exact .inl (by decide)
  · rcases hf.mem h.dropWhile hd with hgap | hmem
    · exact .inl hgap
    · exact .inr ((dropWhile_subset isGap) hmem)

/-! ## Heads -/

def argumentSpacing (style : Style) (name : List Char) : List Char → List Char :=
  if codeDirectives.contains (lower (String.ofList name)) then
    fun cs => code style false (collapse cs)
  else id

theorem respacing_argument (style : Style) (name : List Char) :
    Respacing (argumentSpacing style name) := by
  unfold argumentSpacing
  split
  · exact respacing_code_collapse style
  · exact respacing_id

theorem layoutContent_expression (style : Style) (rest : List Char) :
    layoutContent style ('>' :: '>' :: rest) =
      '>' :: '>' :: afterSpace (code style true) rest := by
  simp only [layoutContent, afterSpace]
  split <;> rfl

theorem directiveName?_colon {name : List Char} (hname : name ≠ [])
    (hchars : ∀ c ∈ name, isDirectiveChar c = true) (rest : List Char) :
    directiveName? ('*' :: (name ++ ':' :: rest)) = some name := by
  have hcolon : isDirectiveChar ':' = false := by decide
  simp [directiveName?, takeWhile_append_of_pos hchars, dropWhile_append_of_pos hchars,
    hcolon, hname]

theorem layoutContent_star (style : Style) (rest : List Char) :
    layoutContent style ('*' :: rest) =
      match directiveName? ('*' :: rest) with
      | none => '*' :: rest
      | some name => layoutDirective style ('*' :: rest) name :=
  rfl

theorem layoutContent_directive (style : Style) {name : List Char} (hname : name ≠ [])
    (hchars : ∀ c ∈ name, isDirectiveChar c = true) (rest : List Char) :
    layoutContent style ('*' :: (name ++ ':' :: rest)) =
      '*' :: (name ++ ':' :: afterSpace (argumentSpacing style name) rest) := by
  have hdrop : ('*' :: (name ++ ':' :: rest)).drop (name.length + 1) = ':' :: rest := by simp
  have htake : ('*' :: (name ++ ':' :: rest)).take (name.length + 2) =
      '*' :: (name ++ [':']) := by
    rw [take_succ_cons, take_length_add_append]
    rfl
  simp only [layoutContent_star, directiveName?_colon hname hchars, layoutDirective, hdrop, htake,
    afterSpace, argumentSpacing]
  split
  · simp
  split <;> simp

theorem directiveName?_eq_some {name : List Char} (h : directiveName? content = some name) :
    name ≠ [] ∧ (∀ c ∈ name, isDirectiveChar c = true) ∧
      ∃ after, content = '*' :: (name ++ after) := by
  cases content with
  | nil => cases h
  | cons c rest =>
    by_cases hc : c = '*'
    · subst hc
      simp only [directiveName?, Option.ite_none_left_eq_some, Option.some.injEq,
        Bool.or_eq_true, not_or] at h
      obtain ⟨⟨hne, -⟩, rfl⟩ := h
      refine ⟨by simpa using hne, fun c hc => mem_takeWhile_imp hc,
        rest.dropWhile isDirectiveChar, ?_⟩
      rw [takeWhile_append_dropWhile]
    · simp [directiveName?, hc] at h

theorem layoutContent_cases (style : Style) (content : List Char) :
    layoutContent style content = content ∨ (∃ rest, content = '>' :: '>' :: rest) ∨
      ∃ name rest, name ≠ [] ∧ (∀ c ∈ name, isDirectiveChar c = true) ∧
        content = '*' :: (name ++ ':' :: rest) := by
  unfold layoutContent
  split
  · exact .inl rfl
  · exact .inr (.inl ⟨_, rfl⟩)
  · split
    · exact .inl rfl
    · rename_i name hname
      obtain ⟨hne, hchars, after, rfl⟩ := directiveName?_eq_some hname
      have hdrop : ('*' :: (name ++ after)).drop (name.length + 1) = after := by simp
      simp only [layoutDirective, hdrop]
      split
      · exact .inr (.inr ⟨name, _, hne, hchars, rfl⟩)
      · exact .inl rfl

/-! ## Ink -/

theorem solid_afterSpace (h : Trimmed rest)
    (hf : ∀ {cs : List Char}, Trimmed cs → solid (f cs) = solid cs) :
    solid (afterSpace f rest) = solid rest := by
  have hlead : solid (rest.takeWhile isGap) = [] :=
    solid_gaps fun d hd => mem_takeWhile_imp hd
  have hbody : solid rest = solid (rest.dropWhile isGap) := by
    conv_lhs => rw [← takeWhile_append_dropWhile (p := isGap) (l := rest)]
    rw [solid_append, hlead, nil_append]
  simp only [afterSpace, hbody]
  split
  · rename_i hempty
    rw [List.isEmpty_iff.mp hempty]
  · exact hf h.dropWhile

theorem solid_argumentSpacing (style : Style) (name : List Char) (h : Trimmed cs) :
    solid (argumentSpacing style name cs) = solid cs := by
  unfold argumentSpacing
  split
  · rw [solid_code style false (collapse_trimmed h), solid_collapse h]
  · rfl

/-- Layout moves no ink: it changes the gaps of a content alone. -/
theorem solid_layoutContent (style : Style) (h : Trimmed content) :
    solid (layoutContent style content) = solid content := by
  rcases layoutContent_cases style content with hsame | ⟨rest, rfl⟩ | ⟨name, rest, hne, hchars, rfl⟩
  · rw [hsame]
  · have hrest : Trimmed rest := (show Trimmed (['>', '>'] ++ rest) from h).of_append
    rw [layoutContent_expression]
    exact congrArg (fun cs => '>' :: '>' :: cs) (solid_afterSpace hrest (solid_code style true))
  · have hrest : Trimmed rest := by
      rw [← cons_append] at h
      exact (show Trimmed ([':'] ++ rest) from h.of_append).of_append
    rw [layoutContent_directive style hne hchars]
    have hspace := solid_afterSpace hrest (solid_argumentSpacing style name)
    have hcolon (cs : List Char) : '*' :: (name ++ ':' :: cs) =
        '*' :: (name ++ [':']) ++ cs := by simp
    rw [hcolon rest, hcolon (afterSpace _ rest), solid_append, solid_append, hspace]

/-! ## Laying out the content again -/

/-- What laying out a content keeps: `text` is a content in its turn, laid out as it stands, of the
same kind and with no new characters but gaps. If it differs at all it starts with a sign that is no
blank. -/
structure ContentKept (style : Style) (content text : List Char) : Prop where
  trimmed : Trimmed text
  again : layoutContent style text = text
  dashes : text.take 2 = ['-', '-'] ↔ content.take 2 = ['-', '-']
  keyword : (directiveName? text).isSome = (directiveName? content).isSome
  mem : ∀ d ∈ text, isGap d = true ∨ d ∈ content
  head : text = content ∨ ∃ c rest, text = c :: rest ∧ (c = '>' ∨ c = '*')

theorem layoutContent_kept (style : Style) (h : Trimmed content) :
    ContentKept style content (layoutContent style content) := by
  rcases layoutContent_cases style content with hsame | ⟨rest, rfl⟩ | ⟨name, rest, hne, hchars, rfl⟩
  · rw [hsame]
    exact ⟨h, hsame, Iff.rfl, rfl, fun d hd => .inr hd, .inl rfl⟩
  · have harrows : Trimmed ['>', '>'] := by simp [Trimmed, isGap]
    have hrest : Trimmed rest := (show Trimmed (['>', '>'] ++ rest) from h).of_append
    have hcode := respacing_code style true
    rw [layoutContent_expression]
    refine ⟨?_, ?_, by simp, rfl, ?_, .inr ⟨'>', _, rfl, .inl rfl⟩⟩
    · exact harrows.append (hcode.afterSpace_trimmed hrest)
    · rw [layoutContent_expression, hcode.afterSpace_again hrest]
    · intro d hd
      simp only [mem_cons] at hd ⊢
      rcases hd with rfl | rfl | hd
      · exact .inr (.inl rfl)
      · exact .inr (.inl rfl)
      · rcases hcode.mem_afterSpace hrest hd with hgap | hmem
        · exact .inl hgap
        · exact .inr (.inr (.inr hmem))
  · have hrest : Trimmed rest := by
      rw [← cons_append] at h
      exact (show Trimmed ([':'] ++ rest) from h.of_append).of_append
    have harg := respacing_argument style name
    rw [layoutContent_directive style hne hchars]
    refine ⟨?_, ?_, by simp, ?_, ?_, .inr ⟨'*', _, rfl, .inr rfl⟩⟩
    · have hhead : Trimmed ('*' :: (name ++ [':'])) := by
        simp [Trimmed, isGap, getLast?_cons]
      simpa using hhead.append (harg.afterSpace_trimmed hrest)
    · rw [layoutContent_directive style hne hchars, harg.afterSpace_again hrest]
    · rw [directiveName?_colon hne hchars, directiveName?_colon hne hchars]
    · intro d hd
      simp only [mem_cons, mem_append] at hd ⊢
      rcases hd with rfl | hd | rfl | hd
      · exact .inr (.inl rfl)
      · exact .inr (.inr (.inl hd))
      · exact .inr (.inr (.inr (.inl rfl)))
      · rcases harg.mem_afterSpace hrest hd with hgap | hmem
        · exact .inl hgap
        · exact .inr (.inr (.inr (.inr hmem)))

end GuidedTrack.Layout
