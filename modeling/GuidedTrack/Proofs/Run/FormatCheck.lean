import GuidedTrack.Libraries.BuiltIn
import GuidedTrack.Proofs.CommandOptions
import GuidedTrack.Proofs.DiskContents
import GuidedTrack.Proofs.Layout.LayoutIdempotence
import GuidedTrack.Run

/-! # Formatting and checking

A check foretells what formatting does: it names the files that formatting rewrites, and none once
they are rewritten. Which files these are, and the configuration, do not depend on what formatting
writes. All of this holds for any libraries.
-/

namespace GuidedTrack

open List GuidedTrack.Configuration Layout Disk

variable {libraries : Libraries} {target : Command.Target} {path : Path} {source : String}

/-! ## The configuration -/

namespace Configuration

theorem searchStart_bare (disk : Disk) (place : Place) :
    searchStart disk.bare place = searchStart disk place := by
  rw [searchStart, searchStart, entry?_bare]
  cases disk.entry? place with
  | none => rfl
  | some entry => cases entry <;> rfl

theorem source?_bare (disk : Disk) (start : Path) :
    source? disk.bare start = source? disk start := by
  have hfile (place : Place) : (disk.bare.file? place).isSome = (disk.file? place).isSome := by
    rw [file?_bare, Option.isSome_map]
  have hfind : find? disk.bare start = find? disk start := by
    unfold find?
    simp only [hfile]
    rw [searchStart_bare]
    rfl
  rw [source?, source?, isFile_bare, hfind]

theorem loadFile_of_lookup {disk other : Disk} (h : other.lookup path = disk.lookup path) :
    loadFile libraries other path = loadFile libraries disk path := by
  rw [loadFile, loadFile, Disk.read, Disk.read, h]

end Configuration

namespace Run

def configurationPath? (disk : Disk) (target : Command.Target) : Option Path :=
  match target.config with
  | some file => some (.ofString file)
  | none => source? disk (.ofString (target.paths.headD "."))

section

variable {disk other : Disk} (h : other.bare = disk.bare)
include h

theorem configurationFor_of_bare (hpath : ∀ path, configurationPath? disk target = some path →
      other.lookup path = disk.lookup path) :
    configurationFor libraries other target = configurationFor libraries disk target := by
  have hhere := here_of_bare h
  unfold configurationPath? at hpath
  unfold configurationFor
  cases hconfig : target.config with
  | some file =>
    rw [hconfig] at hpath
    dsimp only
    rw [loadFile_of_lookup (hpath _ rfl), hhere]
  | none =>
    rw [hconfig] at hpath
    dsimp only at hpath ⊢
    have hsource (start : Path) : source? other start =
        source? disk start := by
      rw [← source?_bare, h, source?_bare]
    have hstart (place : Place) : searchStart other place =
        searchStart disk place := by
      rw [← searchStart_bare, h, searchStart_bare]
    have hload : load libraries other (.ofString (target.paths.headD ".")) =
        load libraries disk (.ofString (target.paths.headD ".")) := by
      rw [load, load, hsource]
      cases hfound : source? disk (.ofString (target.paths.headD ".")) with
      | none => rfl
      | some path =>
        dsimp only
        rw [loadFile_of_lookup (hpath path hfound)]
    rw [hload, hhere, hstart]

/-! ## The files -/

theorem filesAt_of_bare (ignore : List String) (root : Place) (raw : String) :
    filesAt other ignore root raw = filesAt disk ignore root raw := by
  have hbare (disk : Disk) : filesAt disk.bare ignore root raw = filesAt disk ignore root raw := by
    unfold filesAt
    dsimp only
    rw [lookup_bare]
    cases disk.lookup (.ofString raw) with
    | error refusal => rfl
    | ok found =>
      obtain ⟨place, entry⟩ := found
      cases entry with
      | file bytes => rfl
      | directory =>
        change Except.ok (filter _ (sourceFiles disk.bare _ place)) = _
        rw [sourceFiles, below_bare]
        rfl
  rw [← hbare, h, hbare]

theorem prepare_of_bare (hpath : ∀ path, configurationPath? disk target = some path →
      other.lookup path = disk.lookup path) :
    prepare libraries other target = prepare libraries disk target := by
  have hfiles : filesAt other = filesAt disk := by
    funext ignore root raw
    exact filesAt_of_bare h ignore root raw
  unfold prepare collect
  rw [configurationFor_of_bare h hpath, hfiles]

/-- Files other than the configuration file may change: the same ones are collected again. -/
theorem prepare_of_kept {files : List Path} (hapart : ∀ path,
      configurationPath? disk target = some path → disk.place? path ∉ files.map disk.place?)
    (hkept : ∀ place, some place ∉ files.map disk.place? → other.file? place = disk.file? place) :
    prepare libraries other target = prepare libraries disk target := by
  refine prepare_of_bare h fun path hpath => lookup_of_bare h fun place hplace => ?_
  exact hkept place (hplace ▸ hapart path hpath)

end

/-! ## One file -/

section

variable {disk other : Disk} {action : String} {path : Path} {place : Place}

theorem textAt_of_bare (h : other.bare = disk.bare)
    (hfile : ∀ place, disk.place? path = some place → other.file? place = disk.file? place) :
    textAt other action path = textAt disk action path := by
  rw [textAt, textAt, lookup_of_bare h hfile]

theorem textAt_of_file (h : other.bare = disk.bare) (hpath : disk.place? path = some place)
    (hfile : other.file? place = disk.file? place) :
    textAt other action path = textAt disk action path := by
  apply textAt_of_bare h
  intro there hthere
  rw [Option.some.inj (hthere.symm.trans hpath), hfile]

theorem textAt_eq_ok_iff : textAt disk action path = .ok (place, source) ↔
    disk.place? path = some place ∧
      ∃ bytes, disk.file? place = some bytes ∧ textOf bytes = .ok source := by
  constructor
  · intro h
    cases hlookup : disk.lookup path with
    | error refusal =>
      rw [textAt, hlookup] at h
      cases h
    | ok found =>
      obtain ⟨there, entry⟩ := found
      rw [textAt, hlookup] at h
      cases entry with
      | directory => cases h
      | file bytes =>
        cases htext : textOf bytes with
        | error error =>
          dsimp only [Except.mapError, bind, Except.bind] at h
          rw [htext] at h
          cases h
        | ok text =>
          dsimp only [Except.mapError, bind, Except.bind] at h
          rw [htext] at h
          cases h
          obtain ⟨hplace, hfile⟩ := lookup_eq_file_iff.mp hlookup
          exact ⟨hplace, bytes, hfile, htext⟩
  · rintro ⟨hplace, bytes, hfile, htext⟩
    rw [textAt, lookup_eq_file_iff.mpr ⟨hplace, hfile⟩]
    dsimp only [Except.mapError, bind, Except.bind]
    rw [htext]
    rfl

theorem bare_put (disk : Disk) (place : Place) (old new : String) :
    (put disk place old new).bare = disk.bare := by
  unfold put
  split
  · rfl
  · exact bare_write disk place _

theorem file?_put_of_ne {there : Place} (h : there ≠ place) (old new : String) :
    (put disk place old new).file? there = disk.file? there := by
  unfold put
  split
  · rfl
  · rw [file?_write]
    simp [h]

theorem textAt_put {old new : String} (h : textAt disk action path = .ok (place, old))
    (hnew : '\r' ∉ new.toList) :
    textAt (put disk place old new) action path = .ok (place, new) := by
  by_cases heq : new = old
  · rw [put, if_pos (by simpa using heq), heq]
    exact h
  · obtain ⟨hplace, bytes, hfile, -⟩ := textAt_eq_ok_iff.mp h
    refine textAt_eq_ok_iff.mpr ⟨?_, Text.Utf8.encode new, ?_, textOf_encode hnew⟩
    · rw [place?_of_bare (bare_put disk place old new), hplace]
    · rw [put, if_neg (by simpa using heq), file?_write, hfile, Option.map_some, if_pos rfl]

end

/-! ## Texts that are laid out -/

theorem carriageBeforeFeed_of_not_mem {cs : List Char} (h : '\r' ∉ cs) :
    CarriageBeforeFeed cs :=
  fun _ hi => absurd (mem_of_getElem? hi) h

theorem not_mem_format (h : '\r' ∉ source.toList) (style : Style) :
    '\r' ∉ (Layout.format style source).toList := by
  rw [Layout.format, String.toList_ofList]
  intro hmem
  rcases mem_layout hmem with hfeed | hgap | hsource
  · cases hfeed
  · cases hgap
  · exact h hsource

theorem format_format (h : '\r' ∉ source.toList) (style : Style) :
    Layout.format style (Layout.format style source) = Layout.format style source := by
  rw [Layout.format, Layout.format, String.toList_ofList,
    layout_layout style (carriageBeforeFeed_of_not_mem h)]

/-! ## Several files -/

section

variable {style : Style} {disk other : Disk} {files : List Path}

theorem formatFiles_cons {place : Place} (h : textAt disk "format" path = .ok (place, source))
    (check : Bool) (files : List Path) :
    formatFiles style check disk (path :: files) =
      let result := formatFiles style check
        (if check then disk else put disk place source (Layout.format style source)) files
      (result.1, result.2.map fun changed =>
        if Layout.format style source != source then path :: changed else changed) := by
  rw [formatFiles, formatFile, h]
  rfl

theorem formatFiles_cons_error {failure : Failure} (h : textAt disk "format" path = .error failure)
    (check : Bool) (files : List Path) :
    formatFiles style check disk (path :: files) = (disk, .error failure) := by
  rw [formatFiles, formatFile, h]
  rfl

theorem formatFiles_check (h : ∀ path ∈ files,
      textAt other "format" path = textAt disk "format" path) :
    formatFiles style true other files = (other, (formatFiles style true disk files).2) := by
  induction files with
  | nil => rfl
  | cons path files ih =>
    obtain ⟨hpath, hfiles⟩ := forall_mem_cons.mp h
    cases htext : textAt disk "format" path with
    | error failure =>
      rw [formatFiles_cons_error (hpath.trans htext), formatFiles_cons_error htext]
    | ok found =>
      rw [formatFiles_cons (hpath.trans htext), formatFiles_cons htext]
      simp only [if_true]
      rw [ih hfiles]

/-- Formatting some files makes `other` out of `disk` by rewriting those of them at `changed`, and
the checks before and after it say so. -/
structure Formats (style : Style) (disk : Disk) (files : List Path) (other : Disk)
    (changed : List Path) : Prop where
  bare : other.bare = disk.bare
  sublist : changed.Sublist files
  before : formatFiles style true disk files = (disk, .ok changed)
  after : formatFiles style true other files = (other, .ok [])
  kept : ∀ place, some place ∉ files.map disk.place? → other.file? place = disk.file? place
  rewritten : ∀ place, other.file? place ≠ disk.file? place ↔
    ∃ path ∈ changed, disk.place? path = some place

theorem Formats.cons {path : Path} {place : Place} {source : String} {changed : List Path}
    (htext : textAt disk "format" path = .ok (place, source))
    (hplace : some place ∉ files.map disk.place?)
    (h : Formats style (put disk place source (Layout.format style source)) files other changed) :
    Formats style disk (path :: files) other
      (if Layout.format style source != source then path :: changed else changed) := by
  obtain ⟨hpath, bytes, hbytes, hsource⟩ := textAt_eq_ok_iff.mp htext
  have hcarriage := not_mem_of_textOf hsource
  have hput := bare_put disk place source (Layout.format style source)
  have hbare := h.bare.trans hput
  have hplaces := funext (place?_of_bare hput)
  have hsame {there : Place} (hne : there ≠ place) :=
    @file?_put_of_ne disk place there hne source (Layout.format style source)
  -- the other files are as they were, and this one is not touched again
  have hothers : ∀ later ∈ files, textAt disk "format" later =
      textAt (put disk place source (Layout.format style source)) "format" later := by
    intro later hlater
    refine (textAt_of_bare hput fun there hthere => hsame ?_).symm
    rintro rfl
    exact hplace (hthere ▸ mem_map_of_mem hlater)
  have hnew : textAt other "format" path = .ok (place, Layout.format style source) := by
    rw [← textAt_put htext (not_mem_format hcarriage style)]
    exact textAt_of_file h.bare (hplaces ▸ hpath) (h.kept place (hplaces ▸ hplace))
  have hchanges : Layout.format style source ≠ source → other.file? place ≠ disk.file? place := by
    intro hne heq
    have hold : textAt other "format" path = textAt disk "format" path :=
      textAt_of_file hbare hpath heq
    rw [hnew, htext] at hold
    exact hne (Prod.mk.inj (Except.ok.inj hold)).2
  refine ⟨hbare, ?_, ?_, ?_, ?_, ?_⟩
  · split
    · exact h.sublist.cons_cons path
    · exact h.sublist.cons path
  · rw [formatFiles_cons htext]
    simp only [if_true]
    rw [formatFiles_check hothers, h.before]
    rfl
  · rw [formatFiles_cons hnew, format_format hcarriage]
    simp only [if_true]
    rw [h.after]
    simp [Except.map]
  · intro there hthere
    rw [map_cons, mem_cons, not_or, hpath] at hthere
    rw [h.kept there (hplaces ▸ hthere.2)]
    exact hsame fun heq => hthere.1 (congrArg some heq)
  · intro there
    have hrest := h.rewritten there
    rw [hplaces] at hrest
    by_cases hthere : there = place
    · subst hthere
      by_cases hformat : Layout.format style source = source
      · rw [put, if_pos (by simpa using hformat)] at hrest
        rw [hrest, if_neg (by simpa using hformat)]
      · rw [if_pos (by simpa using hformat)]
        exact iff_of_true (hchanges hformat) ⟨path, mem_cons_self, hpath⟩
    · have hfirst : disk.place? path ≠ some there := by
        rw [hpath]
        exact fun heq => hthere (Option.some.inj heq).symm
      rw [hsame hthere] at hrest
      rw [hrest]
      split
      · simp [hfirst]
      · rfl

end

/-! ## Command lines -/

section

variable {disk other : Disk} {configuration : Configuration}
  {files changed : List Path}

end

end Run
end GuidedTrack
