import GuidedTrack.Ignore
import Mathlib.Data.Bool.AllAny
import Mathlib.Data.List.Basic

/-! # Patterns that name a directory

A pattern is matched against one text, with stars that run over slashes. A pattern of the form
`**/name/**` nevertheless means what it says of the parts of a path: one of the directories above
the file has exactly this name.
-/

namespace GuidedTrack

namespace Glob

theorem anyTail_iff {p : List Char → Bool} {cs : List Char} :
    anyTail p cs = true ↔ ∃ before after, cs = before ++ after ∧ p after = true := by
  induction cs with
  | nil => simp [anyTail]
  | cons c cs ih =>
    rw [anyTail, Bool.or_eq_true, ih]
    constructor
    · rintro (hwhole | ⟨before, after, rfl, hafter⟩)
      · exact ⟨[], c :: cs, rfl, hwhole⟩
      · exact ⟨c :: before, after, rfl, hafter⟩
    · rintro ⟨before, after, heq, hafter⟩
      cases before with
      | nil => exact .inl (heq ▸ hafter)
      | cons d before => exact .inr ⟨before, after, (List.cons.inj heq).2, hafter⟩

theorem accepts_literals_iff {text cs : List Char} {more : Glob} :
    accepts (text.map .literal ++ more) cs = true ↔
      ∃ rest, cs = text ++ rest ∧ accepts more rest = true := by
  induction text generalizing cs with
  | nil => simp
  | cons c text ih =>
    cases cs with
    | nil => simp [accepts]
    | cons d cs => simp [accepts, Piece.accepts, ih, and_assoc]

theorem accepts_star_star (cs : List Char) : accepts [.star, .star] cs = true := by
  have hone : ∀ cs, accepts [.star] cs = true := fun cs =>
    anyTail_iff.mpr ⟨cs, [], (List.append_nil cs).symm, rfl⟩
  exact anyTail_iff.mpr ⟨[], cs, rfl, hone cs⟩

/-- Characters without a meaning of their own are matched as they are. -/
theorem ofChars_append {text : List Char} (htext : ∀ c ∈ text, c ∉ ['*', '?', '['])
    (rest : List Char) : ofChars (text ++ rest) = text.map .literal ++ ofChars rest := by
  induction text with
  | nil => rfl
  | cons c text ih =>
    obtain ⟨hc, htext⟩ := List.forall_mem_cons.mp htext
    simp only [List.mem_cons, List.not_mem_nil, or_false, not_or] at hc
    rw [List.cons_append, ofChars, ih htext] <;> grind

end Glob

namespace Ignore

open Glob

theorem exists_of_append_eq {part before rest after : List Char} (hpart : '/' ∉ part)
    (h : part ++ rest = before ++ '/' :: after) :
    ∃ more, before = part ++ more ∧ rest = more ++ '/' :: after := by
  rcases List.append_eq_append_iff.mp h with ⟨more, hbefore, hrest⟩ | ⟨more, hpart', hafter⟩
  · exact ⟨more, hbefore, hrest⟩
  · cases more with
    | nil => exact ⟨[], by simpa using hpart'.symm, hafter.symm⟩
    | cons c more =>
      obtain ⟨rfl, -⟩ := List.cons.inj hafter
      exact absurd (hpart' ▸ List.mem_append_right before List.mem_cons_self) hpart

/-- Where no part holds a slash, a name stands between two slashes exactly if it is a part and not
the last one. -/
theorem exists_between_slashes_iff {parts : List (List Char)} {name : List Char}
    (hparts : ∀ part ∈ parts, '/' ∉ part) (hname : '/' ∉ name) :
    (∃ before after, parts.flatMap ('/' :: ·) = before ++ '/' :: (name ++ '/' :: after)) ↔
      name ∈ parts.dropLast := by
  induction parts with
  | nil => simp
  | cons part parts ih =>
    obtain ⟨hpart, hparts⟩ := List.forall_mem_cons.mp hparts
    have hlast : name ∈ (part :: parts).dropLast ↔
        parts ≠ [] ∧ name = part ∨ name ∈ parts.dropLast := by
      cases parts <;> simp
    rw [hlast, ← ih hparts, List.flatMap_cons, List.cons_append]
    constructor
    · rintro ⟨before, after, heq⟩
      cases before with
      | nil =>
        obtain ⟨more, rfl, hrest⟩ := exists_of_append_eq hpart (List.cons.inj heq).2
        left
        cases parts with
        | nil => simp at hrest
        | cons next parts =>
          cases more with
          | nil => simp
          | cons c more =>
            -- what follows a part is a slash, and the name holds none
            obtain ⟨rfl, -⟩ := List.cons.inj hrest
            simp at hname
      | cons c before =>
        obtain ⟨more, -, hrest⟩ := exists_of_append_eq hpart (List.cons.inj heq).2
        exact .inr ⟨more, after, hrest⟩
    · rintro (⟨hnext, rfl⟩ | ⟨before, after, hrest⟩)
      · obtain ⟨next, parts, rfl⟩ := List.exists_cons_of_ne_nil hnext
        exact ⟨[], next ++ parts.flatMap ('/' :: ·), rfl⟩
      · exact ⟨'/' :: (part ++ before), after, by simp [hrest]⟩

theorem accepts_directory_iff {name : List Char} (hname : ∀ c ∈ name, c ∉ ['*', '?', '['])
    {text : List Char} :
    (ofChars (name ++ ['/', '*', '*'])).accepts text = true ↔
      ∃ after, text = name ++ '/' :: after := by
  have hglob : ofChars (name ++ ['/', '*', '*']) =
      (name ++ ['/']).map .literal ++ [.star, .star] := by
    rw [ofChars_append hname]
    simp [ofChars]
  rw [hglob, accepts_literals_iff]
  simp [accepts_star_star]

/-- With a slash put before the text, both ways to match it are one. -/
theorem coversText_directory_iff {name : String} (hname : ∀ c ∈ name.toList, c ∉ ['*', '?', '['])
    {text : List Char} :
    coversText ("**/" ++ name ++ "/**") text = true ↔
      ∃ before after, '/' :: text = before ++ '/' :: (name.toList ++ '/' :: after) := by
  have hwhole : ("**/" ++ name ++ "/**").toList =
      '*' :: '*' :: ('/' :: name.toList ++ ['/', '*', '*']) := by
    simp
  have hslash : ∀ c ∈ '/' :: name.toList, c ∉ ['*', '?', '['] := by
    simpa using hname
  rw [coversText, hwhole, Bool.or_eq_true, ofChars, ofChars]
  change _ ∨ (ofChars (name.toList ++ ['/', '*', '*'])).accepts text = true ↔ _
  rw [accepts_directory_iff hname, accepts, anyTail_iff]
  simp only [accepts, anyTail_iff, accepts_directory_iff hslash]
  constructor
  · rintro (⟨skipped, _, rfl, before, _, rfl, after, rfl⟩ | ⟨after, rfl⟩)
    · exact ⟨'/' :: (skipped ++ before), after, by simp⟩
    · exact ⟨[], after, rfl⟩
  · rintro ⟨before, after, heq⟩
    cases before with
    | nil => exact .inr ⟨after, (List.cons.inj heq).2⟩
    | cons c before =>
      exact .inl ⟨[], text, rfl, before, _, (List.cons.inj heq).2, after, rfl⟩

theorem mem_resolve {path : Path} {here : Place} {part : String} (h : part ∈ path.resolve here) :
    part ∈ here ∨ part ∈ path.parts := by
  have hsteps : ∀ (parts : List String) (place : Place),
      part ∈ parts.foldl Place.step place → part ∈ place ∨ part ∈ parts := by
    intro parts
    induction parts with
    | nil => exact fun place h => .inl h
    | cons next parts ih =>
      intro place h
      rcases ih _ h with hplace | hlater
      · rw [Place.step] at hplace
        split at hplace
        · exact .inl (List.dropLast_subset _ hplace)
        · rcases List.mem_append.mp hplace with hplace | hnext
          · exact .inl hplace
          · exact .inr (List.mem_singleton.mp hnext ▸ List.mem_cons_self)
      · exact .inr (List.mem_cons_of_mem _ hlater)
  rcases hsteps _ _ h with hstart | hlater
  · rw [Path.start] at hstart
    split at hstart
    · exact .inl hstart
    · simp at hstart
  · exact .inr hlater

theorem slash_cons_joinSlashes {parts : List String} (hparts : parts ≠ []) :
    '/' :: (Path.joinSlashes parts).toList = (parts.map String.toList).flatMap ('/' :: ·) := by
  rw [Path.joinSlashes, String.toList_intercalate]
  induction parts with
  | nil => exact absurd rfl hparts
  | cons part parts ih =>
    cases parts with
    | nil => simp
    | cons next parts => simpa using ih (List.cons_ne_nil next parts)

/-- A file is left out for the name of a directory exactly if one of the directories between the
root and the file has this name; and for some patterns exactly if it is for one of them. -/
theorem covers_directory_iff (name : String) (path : Path) (root here : Place)
    (relative : List String) (hname : ∀ c ∈ name.toList, c ∉ ['/', '*', '?', '['])
    (hparts : ∀ part ∈ here ++ path.parts, '/' ∉ part.toList)
    (hbelow : path.resolve here = root ++ relative) (hrelative : relative ≠ []) :
    (covers ["**/" ++ name ++ "/**"] path root here = true ↔ name ∈ relative.dropLast) ∧
      ∀ (patterns : List String) (path : Path) (root here : Place),
        covers patterns path root here = true ↔
          ∃ pattern ∈ patterns, covers [pattern] path root here = true := by
  have hsubject : subject path root here = Path.joinSlashes relative := by
    have hplace : (path.resolve here).below? root = some relative := by
      simp [Place.below?, hbelow]
    obtain ⟨part, relative, rfl⟩ := List.exists_cons_of_ne_nil hrelative
    rw [subject, hplace]
    rfl
  have hslashes : ∀ part ∈ relative.map String.toList, '/' ∉ part := by
    intro part hpart
    obtain ⟨part, hmem, rfl⟩ := List.mem_map.mp hpart
    have hresolved : part ∈ path.resolve here := hbelow ▸ List.mem_append_right root hmem
    exact hparts part (List.mem_append.mpr (mem_resolve hresolved))
  refine ⟨?_, by simp [covers]⟩
  calc covers ["**/" ++ name ++ "/**"] path root here = true
    _ ↔ coversText ("**/" ++ name ++ "/**") (Path.joinSlashes relative).toList = true := by
        simp [covers, hsubject]
    _ ↔ name.toList ∈ (relative.map String.toList).dropLast := by
        rw [coversText_directory_iff (by grind), slash_cons_joinSlashes hrelative,
          exists_between_slashes_iff hslashes (by grind)]
    _ ↔ name ∈ relative.dropLast := by
        rw [← List.map_dropLast, List.mem_map_of_injective fun _ _ => String.toList_inj.mp]

theorem covers_directory_iff_above :
    covers ["**/" ++ "dist" ++ "/**"] (.ofString "../dist/a/dist.gt") ["w"] ["w", "sub"] =
      true := by
  have h := covers_directory_iff "dist" (.ofString "../dist/a/dist.gt") ["w"] ["w", "sub"]
    ["dist", "a", "dist.gt"] (List.all_iff_forall_prop.mp (by decide)) (by decide) (by decide)
    (by decide)
  exact h.1.mpr (by decide)

end Ignore
end GuidedTrack
