import GuidedTrack.Proofs.Lint.NumeralStops
import GuidedTrack.Proofs.Run.FormatCheck

/-! # Reports on what is on the disk

After fixing, the report is about the files as they are on the disk: linting them once more prints
the same and changes nothing. A file whose text the fixes leave alone keeps its bytes, whatever line
breaks they hold.
-/

namespace GuidedTrack.Run

open List Disk

variable {settings : Lint.Settings} {disk other : Disk} {path : Path} {files : List Path}
  {listing : Listing}

/-! ## One file -/

section

variable {place : Place} {source text : String} {found : List Lint.Message}
  {entry : Listing.Entry} {fix : Bool}

theorem lintFile_of_text (htext : textAt disk "read" path = .ok (place, source))
    (hfixed : (if fix then Lint.fixUntilStable settings source else .ok source) = .ok text) :
    lintFile settings fix disk path = (put disk place source text,
      (Lint.messages settings text).mapError .numeral |>.map (⟨path.toString, ·⟩)) := by
  rw [lintFile, fixedText, htext]
  cases fix with
  | false =>
    cases hfixed
    rfl
  | true =>
    simp only [if_true] at hfixed
    dsimp only [bind, Except.bind]
    rw [hfixed]
    rfl

theorem exists_of_lintFile (h : lintFile settings true disk path = (other, .ok entry)) :
    ∃ place source text found, textAt disk "read" path = .ok (place, source) ∧
      Lint.fixUntilStable settings source = .ok text ∧ Lint.messages settings text = .ok found ∧
      other = put disk place source text ∧ entry = ⟨path.toString, found⟩ := by
  cases htext : textAt disk "read" path with
  | error failure =>
    rw [lintFile, fixedText, htext] at h
    cases h
  | ok read =>
    obtain ⟨place, source⟩ := read
    cases hfixed : Lint.fixUntilStable settings source with
    | error error =>
      rw [lintFile, fixedText, htext] at h
      dsimp only [bind, Except.bind] at h
      rw [hfixed] at h
      cases h
    | ok text =>
      rw [lintFile_of_text htext (by rw [if_pos rfl, hfixed])] at h
      cases hfound : Lint.messages settings text with
      | error error =>
        rw [hfound] at h
        cases h
      | ok found =>
        rw [hfound] at h
        cases h
        exact ⟨place, source, text, found, rfl, hfixed, hfound, rfl, rfl⟩

theorem exists_of_lintFiles
    (h : lintFiles settings fix disk (path :: files) = (other, .ok listing)) :
    ∃ mid entry rest, lintFile settings fix disk path = (mid, .ok entry) ∧
      lintFiles settings fix mid files = (other, .ok rest) ∧ listing = entry :: rest := by
  rw [lintFiles] at h
  cases hfile : lintFile settings fix disk path with
  | mk mid result =>
    rw [hfile] at h
    cases result with
    | error failure => cases h
    | ok entry =>
      dsimp only at h
      cases hrest : lintFiles settings fix mid files with
      | mk last result =>
        rw [hrest] at h
        cases result with
        | error failure => cases h
        | ok rest =>
          cases h
          exact ⟨mid, entry, rest, rfl, hrest, rfl⟩

end

/-! ## Several files -/

def Settled (settings : Lint.Settings) (disk : Disk) (files : List Path) (place : Place) : Prop :=
  ∀ path ∈ files, ∀ source, textAt disk "read" path = .ok (place, source) →
    Lint.fixUntilStable settings source = .ok source

def Describes (settings : Lint.Settings) (disk : Disk) (path : Path)
    (entry : Listing.Entry) : Prop :=
  ∃ place text found, textAt disk "read" path = .ok (place, text) ∧
    Lint.messages settings text = .ok found ∧ entry = ⟨path.toString, found⟩

/-- Fixing some files makes `other` out of `disk`, and reports on what is then there. -/
structure Reports (settings : Lint.Settings) (disk : Disk) (files : List Path) (other : Disk)
    (listing : Listing) : Prop where
  bare : other.bare = disk.bare
  described : Forall₂ (Describes settings other) files listing
  settled : ∀ place, Settled settings disk files place → other.file? place = disk.file? place

theorem settled_of_not_mem {place : Place} (h : some place ∉ files.map disk.place?) :
    Settled settings disk files place := by
  intro path hpath source htext
  exact absurd (mem_map.mpr ⟨path, hpath, (textAt_eq_ok_iff.mp htext).1⟩) h

theorem reports_of_lintFiles (hdistinct : (files.map disk.place?).Nodup)
    (h : lintFiles settings true disk files = (other, .ok listing)) :
    Reports settings disk files other listing := by
  induction files generalizing disk listing with
  | nil =>
    cases h
    exact ⟨rfl, .nil, fun _ _ => rfl⟩
  | cons path files ih =>
    obtain ⟨mid, entry, rest, hfile, hfiles, rfl⟩ := exists_of_lintFiles h
    obtain ⟨place, source, text, found, htext, hfixed, hfound, rfl, rfl⟩ :=
      exists_of_lintFile hfile
    obtain ⟨hpath, bytes, -, hsource⟩ := textAt_eq_ok_iff.mp htext
    obtain ⟨hplace, hdistinct⟩ := nodup_cons.mp hdistinct
    have hput := bare_put disk place source text
    have hplaces := funext (place?_of_bare hput)
    have hrest := ih (hplaces ▸ hdistinct) hfiles
    rw [hpath, ← hplaces] at hplace
    -- the other files are as they were, and this one is not touched again
    have hothers : ∀ later ∈ files,
        textAt (put disk place source text) "read" later = textAt disk "read" later := by
      intro later hlater
      refine textAt_of_bare hput fun there hthere => file?_put_of_ne ?_ source text
      rintro rfl
      exact hplace (hplaces ▸ hthere ▸ mem_map_of_mem hlater)
    have hnew : textAt other "read" path = .ok (place, text) := by
      rw [← textAt_put htext (Lint.not_mem_fixRepeatedly (not_mem_of_textOf hsource) hfixed)]
      exact textAt_of_file hrest.bare (hplaces ▸ hpath)
        (hrest.settled place (settled_of_not_mem hplace))
    refine ⟨hrest.bare.trans hput, .cons ⟨place, text, found, hnew, hfound, rfl⟩
        hrest.described, ?_⟩
    · intro there hsettled
      obtain ⟨hfirst, hlater⟩ := forall_mem_cons.mp hsettled
      have hsame : (put disk place source text).file? there = disk.file? there := by
        by_cases hthere : there = place
        · subst hthere
          rw [put, if_pos]
          rw [Except.ok.inj (hfixed.symm.trans (hfirst source htext)), beq_self_eq_true]
        · exact file?_put_of_ne hthere source text
      rw [← hsame]
      refine hrest.settled there fun later hmem source htext => ?_
      exact hlater later hmem source (hothers later hmem ▸ htext)

theorem lintFiles_of_described (h : Forall₂ (Describes settings disk) files listing) :
    lintFiles settings false disk files = (disk, .ok listing) := by
  induction h with
  | nil => rfl
  | cons first rest ih =>
    obtain ⟨place, text, found, htext, hfound, rfl⟩ := first
    rw [lintFiles, lintFile_of_text htext (if_neg Bool.false_ne_true), hfound, put,
      if_pos (beq_self_eq_true text)]
    change ((lintFiles settings false disk _).1, (lintFiles settings false disk _).2.map _) = _
    rw [ih]
    rfl

/-- A listing has errors exactly if some file, as it is on the disk, has a message of that severity.
-/
theorem hasErrors_iff (h : Forall₂ (Describes settings disk) files listing) :
    listing.hasErrors = true ↔ ∃ path ∈ files, ∃ place text found,
      textAt disk "read" path = .ok (place, text) ∧ Lint.messages settings text = .ok found ∧
        ∃ message ∈ found, message.severity = .error := by
  rw [Listing.hasErrors]
  induction h with
  | nil => simp
  | cons first rest ih =>
    obtain ⟨place, text, found, htext, hfound, rfl⟩ := first
    rw [any_cons, Bool.or_eq_true, ih]
    simp [htext, hfound, Lint.count, countP_pos_iff]

/-! ## Command lines -/

/-- The report of a run with fixes is about what is on the disk after it. Where such a run comes to
its end, on files at different places that are not the configuration file, a run without fixes
prints the same, ends with the same code and leaves the disk alone. The code is one exactly if some
file has an error left, and a file whose text the fixes leave alone keeps its bytes. -/
theorem lint_reports_disk {libraries : Libraries} {fixing plain : List String} {form : Command.Form}
    {target : Command.Target} {configuration : Configuration} {code : Nat}
    (hfixing : Command.ofArguments fixing = .ok (.lint true form target))
    (hplain : Command.ofArguments plain = .ok (.lint false form target))
    (hprepare : prepare libraries disk target = .ok (configuration, files))
    (hdistinct : (files.map disk.place?).Nodup)
    (hapart : ∀ path, configurationPath? disk target = some path →
      disk.place? path ∉ files.map disk.place?)
    (hquiet : (Run.arguments libraries fixing disk).errors = [])
    (hexit : (Run.arguments libraries fixing disk).ending = .exit code) :
    let done := Run.arguments libraries fixing disk
    Run.arguments libraries plain done.disk = done ∧ code ≤ 1 ∧
      (code = 1 ↔ ∃ path ∈ files, ∃ place text found,
        textAt done.disk "read" path = .ok (place, text) ∧
          Lint.messages configuration.rules text = .ok found ∧
          ∃ message ∈ found, message.severity = .error) ∧
      ∀ place, Settled configuration.rules disk files place →
        done.disk.file? place = disk.file? place := by
  have hrun : Run.arguments libraries fixing disk = lint libraries true form target disk := by
    rw [Run.arguments, hfixing]
    rfl
  have hagain (disk : Disk) :
      Run.arguments libraries plain disk = lint libraries false form target disk := by
    rw [Run.arguments, hplain]
    rfl
  dsimp only
  rw [hrun, lint, hprepare] at hquiet hexit ⊢
  dsimp only at hquiet hexit ⊢
  cases hfiles : lintFiles configuration.rules true disk files with
  | mk other result =>
    rw [hfiles] at hquiet hexit
    cases result with
    | error failure =>
      dsimp only [Outcome.ofFailure] at hquiet hexit
      split at hquiet <;> simp_all
    | ok listing =>
      have hreports := reports_of_lintFiles hdistinct hfiles
      have hkept := hreports.settled
      have hprepared := (prepare_of_kept hreports.bare hapart
        fun place hplace => hkept place (settled_of_not_mem hplace)).trans hprepare
      cases hexit
      rw [hagain, lint, hprepared]
      dsimp only
      rw [lintFiles_of_described hreports.described, ← hasErrors_iff hreports.described]
      refine ⟨rfl, ?_, ?_, hkept⟩
      · split <;> simp
      · split <;> simp_all

def oneSource : Disk where
  files := [([".gtlint.yml"], []), (["a.gt"], Text.Utf8.encode "  a\r\n")]

theorem lint_reports_disk_oneSource :
    let done := Run.arguments (.builtIn false) ["lint", "--fix"] oneSource
    Run.arguments (.builtIn false) ["lint"] done.disk = done ∧ done.ending = .exit 0 ∧
      done.disk = put oneSource ["a.gt"] "  a\n" "\ta\n" := by
  have hprepare : prepare (.builtIn false) oneSource ⟨none, ["."]⟩ =
      .ok (.standard, [.ofString "a.gt"]) := by with_unfolding_all rfl
  have hpath : configurationPath? oneSource ⟨none, ["."]⟩ = some (.ofString "/.gtlint.yml") := by
    decide +kernel
  have htext : textAt oneSource "read" (.ofString "a.gt") = .ok (["a.gt"], "  a\n") := by
    with_unfolding_all rfl
  have hfixed : Lint.fixUntilStable Configuration.standard.rules "  a\n" = .ok "\ta\n" := by
    decide +kernel
  have hfound : Lint.messages Configuration.standard.rules "\ta\n" = .ok [] := by decide +kernel
  have hdone : Run.arguments (.builtIn false) ["lint", "--fix"] oneSource =
      { disk := put oneSource ["a.gt"] "  a\n" "\ta\n", ending := .exit 0 } := by
    change lint (.builtIn false) true .stylish ⟨none, ["."]⟩ oneSource = _
    rw [lint, hprepare]
    dsimp only
    rw [lintFiles, lintFile_of_text htext (by rw [if_pos rfl, hfixed]), hfound]
    rfl
  have hapart : ∀ path, configurationPath? oneSource ⟨none, ["."]⟩ = some path →
      oneSource.place? path ∉ [Path.ofString "a.gt"].map oneSource.place? := by
    intro path h
    cases hpath.symm.trans h
    decide +kernel
  have h := lint_reports_disk (show Command.ofArguments ["lint", "--fix"] = _ from rfl)
    (show Command.ofArguments ["lint"] = _ from rfl) hprepare (by decide +kernel) hapart
    (by rw [hdone]) (by rw [hdone])
  exact ⟨h.1, by rw [hdone], by rw [hdone]⟩

end GuidedTrack.Run
