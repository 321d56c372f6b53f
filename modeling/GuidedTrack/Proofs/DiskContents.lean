import GuidedTrack.Disk
import GuidedTrack.Proofs.Text.Utf8RoundTrip

/-! # Disks that differ in the content of files

Where a path leads does not depend on what the files hold, and writing changes nothing but the
content of one file. A text without carriage returns is read back from the file it is written to.
-/

namespace GuidedTrack.Disk

open List

variable {disk : Disk} {bytes : List UInt8} {path : Path} {place : Place} {text : String}

/-! ## Disks without content -/

def Entry.bare : Entry → Entry
  | file _ => file []
  | directory => directory

def bare (disk : Disk) : Disk :=
  { disk with files := disk.files.map fun entry => (entry.1, []) }

def place? (disk : Disk) (path : Path) : Option Place :=
  match disk.lookup path with
  | .ok (place, .file _) => some place
  | _ => none

theorem lookup_map (content : Place → List UInt8 → List UInt8) (files : List (Place × List UInt8))
    (place : Place) :
    (files.map fun entry => (entry.1, content entry.1 entry.2)).lookup place =
      (files.lookup place).map (content place) := by
  induction files with
  | nil => rfl
  | cons entry files ih =>
    rw [map_cons, lookup_cons, lookup_cons, ih]
    by_cases h : place = entry.1
    · simp [h]
    · simp [beq_false_of_ne h]

section

variable (disk : Disk)

theorem file?_bare (place : Place) : disk.bare.file? place = (disk.file? place).map fun _ => [] :=
  lookup_map (fun _ _ => []) disk.files place

theorem hasDirectory_bare (place : Place) :
    disk.bare.hasDirectory place = disk.hasDirectory place := by
  rw [hasDirectory, hasDirectory, bare, map_map]
  rfl

theorem entry?_bare (place : Place) :
    disk.bare.entry? place = Option.map Entry.bare ( disk.entry? place) := by
  unfold entry?
  rw [file?_bare, hasDirectory_bare]
  cases disk.file? place with
  | some bytes => rfl
  | none => cases disk.hasDirectory place <;> rfl

theorem walk_bare (place : Place) (parts : List String) :
    disk.bare.walk place parts = disk.walk place parts := by
  induction parts generalizing place with
  | nil => rfl
  | cons part parts ih =>
    rw [walk, walk, entry?_bare]
    cases disk.entry? place with
    | none => rfl
    | some entry =>
      cases entry with
      | file bytes => rfl
      | directory => exact ih _

theorem lookup_bare (path : Path) :
    disk.bare.lookup path = (disk.lookup path).map fun found => (found.1, found.2.bare) := by
  have hwalk := disk.walk_bare (path.start disk.here) path.parts
  change disk.bare.walk (path.start disk.bare.here) path.parts = _ at hwalk
  unfold lookup
  rw [hwalk]
  cases disk.walk (path.start disk.here) path.parts with
  | error refusal => rfl
  | ok place =>
    dsimp only [bind, Except.bind]
    rw [entry?_bare]
    cases disk.entry? place <;> rfl

theorem isFile_bare (path : Path) : disk.bare.isFile path = disk.isFile path := by
  rw [isFile, isFile, lookup_bare]
  cases disk.lookup path with
  | error refusal => rfl
  | ok found =>
    obtain ⟨place, entry⟩ := found
    cases entry <;> rfl

theorem place?_bare (path : Path) : disk.bare.place? path = disk.place? path := by
  rw [place?, place?, lookup_bare]
  cases disk.lookup path with
  | error refusal => rfl
  | ok found =>
    obtain ⟨place, entry⟩ := found
    cases entry <;> rfl

theorem below_bare (place : Place) : disk.bare.below place = disk.below place := by
  rw [below, below, bare, filterMap_map]
  rfl

end

/-! ## Reading and writing -/

theorem entry?_of_file (h : disk.file? place = some bytes) :
    disk.entry? place = some (.file bytes) := by
  unfold entry?
  rw [h]

theorem write_files (disk : Disk) (place : Place) (bytes : List UInt8) :
    (disk.write place bytes).files =
      disk.files.map fun entry => (entry.1, if entry.1 = place then bytes else entry.2) := by
  refine map_congr_left fun entry _ => ?_
  by_cases h : entry.1 = place
  · simp [h]
  · simp [h]

theorem file?_write (disk : Disk) (place : Place) (bytes : List UInt8) (other : Place) :
    (disk.write place bytes).file? other =
      (disk.file? other).map fun old => if other = place then bytes else old := by
  rw [file?, write_files]
  exact lookup_map (fun key old => if key = place then bytes else old) disk.files other

theorem bare_write (disk : Disk) (place : Place) (bytes : List UInt8) :
    (disk.write place bytes).bare = disk.bare := by
  unfold bare
  rw [write_files, map_map]
  rfl

theorem lookup_eq_file_iff :
    disk.lookup path = .ok (place, .file bytes) ↔
      disk.place? path = some place ∧ disk.file? place = some bytes := by
  have hfile {place : Place} {bytes : List UInt8}
      (h : disk.lookup path = .ok (place, .file bytes)) : disk.file? place = some bytes := by
    unfold lookup at h
    cases hwalk : disk.walk (path.start disk.here) path.parts with
    | error refusal =>
      rw [hwalk] at h
      cases h
    | ok found =>
      rw [hwalk] at h
      dsimp only [bind, Except.bind] at h
      cases hfile : disk.file? found with
      | some old =>
        rw [entry?_of_file hfile] at h
        cases h
        exact hfile
      | none =>
        unfold entry? at h
        rw [hfile] at h
        cases hdirectory : disk.hasDirectory found <;> rw [hdirectory] at h <;> cases h
  constructor
  · intro h
    exact ⟨by rw [place?, h], hfile h⟩
  · rintro ⟨hplace, hbytes⟩
    unfold place? at hplace
    split at hplace
    · rename_i found old hlookup
      obtain rfl := Option.some.inj hplace
      rw [hlookup, ← Option.some.inj ((hfile hlookup).symm.trans hbytes)]
    · cases hplace

section

variable {disk other : Disk} (h : other.bare = disk.bare)
include h

theorem here_of_bare : other.here = disk.here :=
  show other.bare.here = disk.bare.here from congrArg Disk.here h

theorem place?_of_bare (path : Path) : other.place? path = disk.place? path := by
  rw [← place?_bare, h, place?_bare]

/-- Disks with the same places agree on a path if they agree on the file that it leads to. -/
theorem lookup_of_bare
    (hfile : ∀ place, disk.place? path = some place → other.file? place = disk.file? place) :
    other.lookup path = disk.lookup path := by
  have hwalk : other.walk (path.start other.here) path.parts =
      disk.walk (path.start disk.here) path.parts := by
    rw [here_of_bare h, ← walk_bare, h, walk_bare]
  unfold place? at hfile
  unfold lookup at hfile ⊢
  rw [hwalk]
  cases hplace : disk.walk (path.start disk.here) path.parts with
  | error refusal => rfl
  | ok place =>
    rw [hplace] at hfile
    dsimp only [bind, Except.bind] at hfile ⊢
    have hdirectory : other.hasDirectory place = disk.hasDirectory place := by
      rw [← hasDirectory_bare, h, hasDirectory_bare]
    have hcontent : other.file? place = disk.file? place := by
      cases hold : disk.file? place with
      | some bytes =>
        rw [entry?_of_file hold] at hfile
        rw [hfile place rfl, hold]
      | none =>
        have hbare := file?_bare other place
        rw [h, file?_bare, hold] at hbare
        exact Option.map_eq_none_iff.mp hbare.symm
    have hentry : other.entry? place = disk.entry? place := by
      unfold entry?
      rw [hcontent, hdirectory]
    rw [hentry]

end

/-! ## Texts -/

theorem not_mem_unifyBreaks (cs : List Char) : '\r' ∉ unifyBreaks cs := by
  fun_induction unifyBreaks cs with
  | case1 => simp
  | case2 rest ih => simpa using ih
  | case3 rest hrest ih => simpa using ih
  | case4 c rest hfeed hcarriage ih =>
    intro h
    rcases mem_cons.mp h with rfl | h
    · exact hcarriage rfl
    · exact ih h

theorem unifyBreaks_of_not_mem {cs : List Char} (h : '\r' ∉ cs) : unifyBreaks cs = cs := by
  fun_induction unifyBreaks cs with
  | case1 => rfl
  | case2 rest ih => simp at h
  | case3 rest hrest ih => simp at h
  | case4 c rest hfeed hcarriage ih => rw [ih fun hmem => h (mem_cons_of_mem c hmem)]

theorem not_mem_of_textOf (h : textOf bytes = .ok text) : '\r' ∉ text.toList := by
  unfold textOf at h
  cases hdecode : Text.Utf8.decode bytes with
  | error error =>
    rw [hdecode] at h
    cases h
  | ok decoded =>
    rw [hdecode] at h
    obtain rfl := Except.ok.inj h
    rw [String.toList_ofList]
    exact not_mem_unifyBreaks _

/-- A text without carriage returns is read back from its bytes. -/
theorem textOf_encode (h : '\r' ∉ text.toList) : textOf (Text.Utf8.encode text) = .ok text := by
  rw [textOf, Text.Utf8.decode_encode]
  change Except.ok (String.ofList (unifyBreaks text.toList)) = _
  rw [unifyBreaks_of_not_mem h, String.ofList_toList]

end GuidedTrack.Disk
