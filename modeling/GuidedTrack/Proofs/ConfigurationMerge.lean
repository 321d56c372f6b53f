import GuidedTrack.Configuration
import Mathlib.Data.Bool.Basic
import Mathlib.Data.List.Nodup

/-! # Configurations over the defaults

Rules and patterns are added by one principle: what is there keeps its place, what is new goes to
the end once. Hence the names of the merged rules and the merged patterns have the same form, and a
merged configuration given by a user is merged to itself.
-/

namespace GuidedTrack.Configuration

theorem foldl_addPattern (patterns more : List String) :
    more.foldl addPattern patterns = patterns ++ (more.removeAll patterns).eraseDups := by
  induction more generalizing patterns with
  | nil => simp [List.removeAll]
  | cons pattern more ih =>
    rw [List.foldl_cons, ih, addPattern]
    by_cases hold : pattern ∈ patterns
    · simp [List.removeAll, hold]
    · simp [List.removeAll, hold, List.eraseDups_cons, List.filter_filter, Bool.and_comm,
        Bool.beq_eq_decide_eq]

theorem nodup_addPattern {patterns : List String} (hpatterns : patterns.Nodup) (pattern : String) :
    (addPattern patterns pattern).Nodup := by
  rw [addPattern]
  split
  case isTrue => exact hpatterns
  case isFalse hnew =>
    apply hpatterns.append (List.nodup_singleton pattern)
    simpa using hnew

theorem nodup_foldl_addPattern (more : List String) {patterns : List String}
    (hpatterns : patterns.Nodup) : (more.foldl addPattern patterns).Nodup := by
  induction more generalizing patterns with
  | nil => exact hpatterns
  | cons pattern more ih => exact ih (nodup_addPattern hpatterns pattern)

/-- What already has its place is not added again. -/
theorem foldl_addPattern_append (patterns new : List String) (hnodup : (patterns ++ new).Nodup) :
    (patterns ++ new).foldl addPattern patterns = patterns ++ new := by
  have hold : ∀ old ⊆ patterns, old.foldl addPattern patterns = patterns := by
    intro old hold
    induction old with
    | nil => rfl
    | cons pattern old ih =>
      have hpattern := hold List.mem_cons_self
      rw [List.foldl_cons, addPattern, if_pos (by simpa using hpattern)]
      exact ih (List.subset_of_cons_subset hold)
  rw [List.foldl_append, hold patterns (List.Subset.refl patterns)]
  clear hold
  induction new generalizing patterns with
  | nil => simp
  | cons pattern new ih =>
    have hpattern : pattern ∉ patterns := by
      intro hmem
      exact (List.nodup_append.mp hnodup).2.2 _ hmem _ List.mem_cons_self rfl
    rw [List.foldl_cons, addPattern, if_neg (by simpa using hpattern),
      ih (patterns ++ [pattern]) (by simpa using hnodup)]
    simp

theorem foldl_addPattern_again (more : List String) {patterns : List String}
    (hpatterns : patterns.Nodup) :
    (more.foldl addPattern patterns).foldl addPattern patterns =
      more.foldl addPattern patterns := by
  have hnodup := nodup_foldl_addPattern more hpatterns
  rw [foldl_addPattern patterns more] at hnodup ⊢
  exact foldl_addPattern_append _ _ hnodup

theorem names_setRule (rules : Lint.Settings) (entry : String × Lint.Setting) :
    (setRule rules entry).map (·.1) = addPattern (rules.map (·.1)) entry.1 := by
  have hany : rules.any (·.1 == entry.1) = (rules.map (·.1)).contains entry.1 := by
    rw [Bool.eq_iff_iff]
    simp
  rw [setRule, addPattern, hany]
  split
  · rw [List.map_map]
    apply List.map_congr_left
    intro rule _
    by_cases hname : rule.1 = entry.1 <;> simp [hname]
  · simp

theorem names_foldl_setRule (entries rules : Lint.Settings) :
    (entries.foldl setRule rules).map (·.1) =
      (entries.map (·.1)).foldl addPattern (rules.map (·.1)) := by
  induction entries generalizing rules with
  | nil => rfl
  | cons entry entries ih => rw [List.foldl_cons, ih, names_setRule, List.map_cons, List.foldl_cons]

theorem lookup_setRule (rules : Lint.Settings) (entry : String × Lint.Setting) (name : String) :
    (setRule rules entry).lookup name =
      if name = entry.1 then some entry.2 else rules.lookup name := by
  have hmap : (rules.map fun rule => if rule.1 == entry.1 then entry else rule).lookup name =
      if name = entry.1 then (rules.lookup name).map fun _ => entry.2 else rules.lookup name := by
    induction rules with
    | nil => simp
    | cons rule rules ih => grind
  rw [setRule]
  split
  case isTrue hany =>
    rw [hmap]
    split
    case isTrue hname =>
      have hfound : (rules.lookup name).isSome := by grind [List.lookup_isSome_iff]
      obtain ⟨setting, hsetting⟩ := Option.isSome_iff_exists.mp hfound
      rw [hsetting, Option.map_some]
    case isFalse => rfl
  case isFalse hnew =>
    rw [List.lookup_append]
    split
    case isTrue hname =>
      have hnone : rules.lookup name = none := by grind [List.lookup_eq_none_iff]
      rw [hnone, Option.none_or, hname, List.lookup_cons_self]
    case isFalse hname => grind

theorem lookup_foldl_setRule (entries rules : Lint.Settings) (hnodup : (entries.map (·.1)).Nodup)
    (name : String) :
    (entries.foldl setRule rules).lookup name = (entries.lookup name).or (rules.lookup name) := by
  induction entries generalizing rules with
  | nil => rfl
  | cons entry entries ih =>
    obtain ⟨hnew, hnodup⟩ := List.nodup_cons.mp hnodup
    rw [List.foldl_cons, ih _ hnodup, lookup_setRule, List.lookup_cons]
    by_cases hname : name = entry.1
    · -- no later entry has this name
      have hnone : entries.lookup name = none := by
        grind [List.lookup_eq_none_iff]
      rw [hnone, Option.none_or, if_pos hname, hname, beq_self_eq_true, Option.some_or]
    · rw [if_neg hname, beq_eq_false_iff_ne.mpr hname]

/-- Settings with the same distinct names in the same order are told apart by some name. -/
theorem eq_of_lookup {rules other : Lint.Settings} (hnames : rules.map (·.1) = other.map (·.1))
    (hnodup : (rules.map (·.1)).Nodup) (hlookup : ∀ name, rules.lookup name = other.lookup name) :
    rules = other := by
  induction rules generalizing other with
  | nil => exact (List.map_eq_nil_iff.mp hnames.symm).symm
  | cons rule rules ih =>
    cases other with
    | nil => simp at hnames
    | cons rule' other =>
      obtain ⟨hname, htail⟩ := List.cons.inj hnames
      obtain ⟨hnew, hnodup⟩ := List.nodup_cons.mp hnodup
      have hrule : rule = rule' := by
        have hfirst := hlookup rule.1
        grind
      subst hrule
      rw [ih htail hnodup]
      intro name
      by_cases hname : name = rule.1
      · rw [List.lookup_eq_none_iff.mpr, List.lookup_eq_none_iff.mpr] <;> grind
      · have hlater := hlookup name
        rwa [List.lookup_cons, List.lookup_cons, beq_eq_false_iff_ne.mpr hname] at hlater

theorem foldl_setRule_again (entries : Lint.Settings) {rules : Lint.Settings}
    (hnodup : (rules.map (·.1)).Nodup) :
    (entries.foldl setRule rules).foldl setRule rules = entries.foldl setRule rules := by
  have hnodup' := nodup_foldl_addPattern (entries.map (·.1)) hnodup
  have hnames := foldl_addPattern_again (entries.map (·.1)) hnodup
  simp only [← names_foldl_setRule] at hnodup' hnames
  apply eq_of_lookup hnames (by rwa [hnames])
  intro name
  rw [lookup_foldl_setRule _ _ hnodup']
  cases hfound : (entries.foldl setRule rules).lookup name with
  | some setting => rfl
  | none =>
    rw [Option.none_or]
    -- every name of the rules below is a name of the merged ones
    rw [List.lookup_eq_none_iff] at hfound ⊢
    intro rule hrule
    have hmem : rule.1 ∈ (entries.foldl setRule rules).map (·.1) := by
      rw [names_foldl_setRule, foldl_addPattern]
      exact List.mem_append_left _ (List.mem_map_of_mem hrule)
    obtain ⟨rule', hrule', hname⟩ := List.mem_map.mp hmem
    rw [← hname]
    exact hfound rule' hrule'

theorem nodup_names_standard : (standard.rules.map (·.1)).Nodup := by
  decide

theorem nodup_ignore_standard : standard.ignore.Nodup := by
  decide

/-- A configuration that gives each section as it was merged is merged to the same. -/
theorem merge_again (user : User) (given : Option Layout.Overrides)
    (hstyle : standard.style.overlay (given.getD {}) = (merge user).style) :
    merge { rules := (merge user).rules, style := given, ignore := (merge user).ignore } =
      merge user := by
  have hrules := foldl_setRule_again user.rules nodup_names_standard
  have hignore := foldl_addPattern_again user.ignore nodup_ignore_standard
  simp only [merge] at hstyle ⊢
  rw [hrules, hignore, hstyle]

/-- What a user gives lies over the defaults: rule by rule, option by option, and pattern by
pattern. A merged configuration given again, with all its options or with those that the user set,
is left as it is. -/
theorem merge_overlays (user : User) (hnodup : (user.rules.map (·.1)).Nodup) :
    (∀ name, (merge user).rules.lookup name =
      (user.rules.lookup name).or (standard.rules.lookup name)) ∧
    ((merge user).rules.map (·.1)).Nodup ∧
    (∀ name, name ∈ (merge user).rules.map (·.1) ↔
      name ∈ standard.rules.map (·.1) ∨ name ∈ user.rules.map (·.1)) ∧
    (merge user).style =
      { blankLinesBetweenBlocks := (user.style.bind (·.blankLinesBetweenBlocks)).getD 1
        spaceAroundOperators := (user.style.bind (·.spaceAroundOperators)).getD true
        spaceAfterComma := (user.style.bind (·.spaceAfterComma)).getD true
        spaceAroundArrow := (user.style.bind (·.spaceAroundArrow)).getD true
        trimTrailingWhitespace := (user.style.bind (·.trimTrailingWhitespace)).getD true
        insertFinalNewline := (user.style.bind (·.insertFinalNewline)).getD true } ∧
    (merge user).ignore =
      standard.ignore ++ (user.ignore.filter (· ∉ standard.ignore)).eraseDups ∧
    (merge user).ignore.Nodup ∧
    (∀ given ∈ [user.style, some (merge user).style.toOverrides],
      merge { rules := (merge user).rules, style := given, ignore := (merge user).ignore } =
        merge user) := by
  refine ⟨fun name => lookup_foldl_setRule _ _ hnodup name, ?_, ?_, ?_, ?_, ?_, ?_⟩
  · rw [merge, names_foldl_setRule]
    exact nodup_foldl_addPattern _ nodup_names_standard
  · intro name
    rw [merge, names_foldl_setRule, foldl_addPattern]
    by_cases hname : name ∈ standard.rules.map (·.1) <;> simp [List.removeAll, hname]
  · cases user with
    | mk rules style ignore => cases style <;> rfl
  · rw [merge, foldl_addPattern, List.removeAll]
    simp
  · exact nodup_foldl_addPattern _ nodup_ignore_standard
  · intro given hgiven
    apply merge_again
    rcases List.mem_pair.mp hgiven with rfl | rfl
    · rfl
    · rfl

theorem merge_overlays_repeated :
    let user : User :=
      { rules := [("indent-style", .off), ("tone", .warn)]
        style := some { spaceAroundArrow := some false }
        ignore := ["build/**", "**/dist/**", "build/**"] }
    (merge user).rules.lookup "indent-style" = some .off ∧
      (merge user).ignore = ["**/node_modules/**", "**/dist/**", "build/**"] := by
  intro user
  have h := merge_overlays user (by decide)
  rw [h.1, h.2.2.2.2.1]
  decide

end GuidedTrack.Configuration
