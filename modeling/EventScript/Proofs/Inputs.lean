import EventScript.Proofs.Arguments
import EventScript.Proofs.Run

/-!
Which files a run replaces. Without a path for the output and without a listing it is one file at
most, the one in the working directory that is named for the stem of the input, and only when the
run succeeds. All other files keep their bytes. The one file may be the input itself.

        input             output
        ──────────────    ────────
        town.script       town.bin
        maps/town.bin     town.bin
        town.bin          town.bin
-/

namespace EventScript.Cli

/-! ### Files -/

namespace FileTree

variable {files : FileTree} {place location : Location} {path : String}

/-- A path leads to a location. -/
def LeadsTo (files : FileTree) (path : String) (location : Location) : Prop :=
  files.walk (files.origin path) (Path.parts path) = .ok location

theorem read_set (hplace : files.find? place ≠ some .directory) (written : ByteArray)
    {contents : ByteArray} (h : files.read path = .ok contents)
    (hother : ¬ files.LeadsTo path place) :
    (files.set place (.file written)).read path = .ok contents := by
  unfold read at h ⊢
  cases hcheck : checkPath path with
  | error e => simp [hcheck] at h
  | ok _ =>
    rw [hcheck] at h
    cases hwalk : files.walk (files.origin path) (Path.parts path) with
    | error e => simp [hwalk] at h
    | ok there =>
      have hne : there ≠ place := by
        rintro rfl
        exact hother hwalk
      have hwalk' : (files.set place (.file written)).walk
          ((files.set place (.file written)).origin path) (Path.parts path) = .ok there :=
        (walk_set hplace written).mpr hwalk
      simp only [hwalk] at h
      simp only [hwalk', find?_set_of_ne hplace _ hne]
      exact h

end FileTree

/-! ### Arguments -/

theorem output_and_listing_of_arguments {options : Options} {arguments : List String}
    (houtput : ∀ value, (.output, value) ∉ givenValues arguments)
    (hlisting : ∀ value, (.listing, value) ∉ givenValues arguments)
    (h : Options.ofArguments arguments = .ok options) :
    options.output = "" ∧ options.listing = none := by
  obtain ⟨hbecomes, -⟩ := Options.becomes_of_arguments h
  constructor
  · rw [hbecomes.output, lastValue?_eq_none houtput]
    rfl
  · rw [hbecomes.listing, lastValue?_eq_none hlisting]
    rfl

/-! ### Runs -/

/-- Without a listing the only file that is written is the output, and that only on success. -/
theorem deliver_without_listing {options : Options} (h : options.listing = none) (path : String)
    (compilation : Compilation) (console : Console) :
    let outcome := (deliver options path compilation).runOn console
    outcome.console.files = console.files ∨
      outcome.status = 0 ∧ ∃ location, console.files.target path = .ok location ∧
        outcome.console.files =
          console.files.set location (.file ⟨compilation.assembly.output.bytes⟩) := by
  intro outcome
  have hlisted : listed options compilation console.files = console.files := by
    rw [listed, listingAt?_of_none h]
  by_cases hdeliverable : Deliverable options path compilation console.files
  · obtain ⟨location, htarget, hstatus, hfiles, -⟩ := deliver_of_deliverable hdeliverable
    rw [hlisted] at hfiles
    exact .inr ⟨hstatus, location, htarget, hfiles⟩
  · have hfiles := (deliver_of_not_deliverable hdeliverable).2
    rw [hlisted] at hfiles
    exact .inl hfiles

/-- The place of the output that is named for the stem of the input. -/
def OutputAt (arguments : List String) (files : FileTree) (location : Location) : Prop :=
  ∃ options stem, Options.ofArguments arguments = .ok options ∧
    Path.stem? options.input = some stem ∧ files.target (stem ++ ".bin") = .ok location

section Inputs
variable {arguments : List String}
  (houtput : ∀ value, (.output, value) ∉ givenValues arguments)
  (hlisting : ∀ value, (.listing, value) ∉ givenValues arguments)
include houtput hlisting

/-- Without a path for the output and without a listing, a run leaves all files as they were, or it
succeeds and has put one file in the place of its output. -/
theorem files_run (files : FileTree) :
    let outcome := (compiler arguments).run files
    outcome.console.files = files ∨
      outcome.status = 0 ∧ ∃ location contents, OutputAt arguments files location ∧
        outcome.console.files = files.set location (.file contents) := by
  intro outcome
  rcases run_stops_or_readsInput arguments files with
    ⟨hsame, -⟩ | ⟨options, path, commands, source, hreads⟩
  · exact .inl hsame
  · obtain ⟨hnone, hnolist⟩ :=
      output_and_listing_of_arguments houtput hlisting hreads.parsed
    have hrun : outcome = _ := hreads.run_compiler
    have hdeliver := deliver_without_listing hnolist path (compile commands source)
      ⟨files, banner options path commands, ""⟩
    rw [← hrun] at hdeliver
    rcases hdeliver with hsame | ⟨hstatus, location, htarget, hfiles⟩
    · exact .inl hsame
    · have hnamed := hreads.named
      rw [outputName?, hnone, if_pos (by rfl), Option.map_eq_some_iff] at hnamed
      obtain ⟨stem, hstem, rfl⟩ := hnamed
      exact .inr ⟨hstatus, location, _, ⟨options, stem, hreads.parsed, hstem, htarget⟩, hfiles⟩

/-- A run without a path for the output and without a listing destroys none of its inputs, unless
one of them stands where the output goes and the run succeeds. Every place but that of the output
keeps what was there, and every file that could be read, such as the input and the command table,
has the same bytes afterwards if its path leads to another place. -/
theorem inputs_kept (files : FileTree) :
    let outcome := (compiler arguments).run files
    (∀ location, outcome.console.files.find? location = files.find? location ∨
        outcome.status = 0 ∧ OutputAt arguments files location) ∧
      ∀ path contents, files.read path = .ok contents →
        outcome.console.files.read path = .ok contents ∨
          outcome.status = 0 ∧
            ∃ location, OutputAt arguments files location ∧ files.LeadsTo path location := by
  intro outcome
  rcases files_run houtput hlisting files with
    hsame | ⟨hstatus, place, contents, houtputAt, hfiles⟩
  · have hfiles : outcome.console.files = files := hsame
    rw [hfiles]
    exact ⟨fun _ => .inl rfl, fun _ _ hread => .inl hread⟩
  · have hset : outcome.console.files = files.set place (.file contents) := hfiles
    obtain ⟨options, stem, hparsed, hstem, htarget⟩ := houtputAt
    have hplace := FileTree.find?_ne_directory htarget
    rw [hset]
    constructor
    · intro location
      by_cases hlocation : location = place
      · rw [hlocation]
        exact .inr ⟨hstatus, options, stem, hparsed, hstem, htarget⟩
      · exact .inl (FileTree.find?_set_of_ne hplace _ hlocation)
    · intro path kept hread
      by_cases hleads : files.LeadsTo path place
      · exact .inr ⟨hstatus, place, ⟨options, stem, hparsed, hstem, htarget⟩, hleads⟩
      · exact .inl (FileTree.read_set hplace _ hread hleads)

end Inputs

/-! ### Two inputs -/

/-- One script in the working directory. -/
def scriptFiles (name : String) : FileTree := ⟨[], [([name], .file "END\n".toUTF8)]⟩

/-- A script that is not named like an output has its bytes after the run. -/
theorem inputs_kept_town :
    givenValues ["town.script"] = [] ∧
      ((compiler ["town.script"]).run (scriptFiles "town.script")).console.files.read
        "town.script" = .ok "END\n".toUTF8 := by
  have hgiven : givenValues ["town.script"] = [] := by decide +kernel
  have hnone : ∀ option value, (option, value) ∉ givenValues ["town.script"] := by
    rw [hgiven]
    exact fun _ _ => List.not_mem_nil
  have hkept := inputs_kept (hnone .output) (hnone .listing) (scriptFiles "town.script")
  have hread : (scriptFiles "town.script").read "town.script" = .ok "END\n".toUTF8 := by
    decide +kernel
  refine ⟨hgiven, (hkept.2 "town.script" _ hread).resolve_right ?_⟩
  rintro ⟨-, location, ⟨options, stem, hparsed, hstem, htarget⟩, hleads⟩
  -- the output goes to `town.bin`, and the script is not there
  have hoptions : Options.ofArguments ["town.script"] =
      .ok ⟨"town.script", "", none, none, false, false⟩ := by decide +kernel
  obtain rfl := Except.ok.inj (hoptions.symm.trans hparsed)
  have htown : Path.stem? "town.script" = some "town" := by decide +kernel
  obtain rfl := Option.some.inj (htown.symm.trans hstem)
  have hplace : (scriptFiles "town.script").target ("town" ++ ".bin") = .ok ["town.bin"] := by
    decide +kernel
  obtain rfl := Except.ok.inj (hplace.symm.trans htarget)
  have hscript : (scriptFiles "town.script").walk ((scriptFiles "town.script").origin "town.script")
      (Path.parts "town.script") = .ok ["town.script"] := by decide +kernel
  exact absurd (Except.ok.inj (hscript.symm.trans hleads)) (by decide)

/-- A script that is named like an output is replaced by its own output. -/
theorem input_replaced_game :
    let outcome := (compiler ["game.bin"]).run (scriptFiles "game.bin")
    givenValues ["game.bin"] = [] ∧
      Options.ofArguments ["game.bin"] = .ok ⟨"game.bin", "", none, none, false, false⟩ ∧
      (scriptFiles "game.bin").read "game.bin" = .ok "END\n".toUTF8 ∧
      outcome.status = 0 ∧
      outcome.console.files.read "game.bin" = .ok ⟨#[0]⟩ := by
  decide +kernel

end EventScript.Cli
