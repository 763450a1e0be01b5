import EventScript.Cli.Compiler
import EventScript.Proofs.Files
import EventScript.Proofs.Reports

/-!
Runs of the compiler. A run that reads its input is the delivery of what the input compiles to, over
the files as they were. An assembly with errors is delivered as a failure: the status is one and the
output is not written. The listing does not wait for that verdict: it is written first, so it is the
one file that a failed compilation makes or replaces.

        options ── commands ── input ── compile ── listing ── errors?   none   output, status 0
                                                                        some   status 1
-/

namespace EventScript.Cli

/-! ### Steps of a program -/

namespace Program

variable (console : Console)

@[simp] theorem runOn_fail (message : String) :
    (fail message).runOn console =
      ⟨1, { console with errors := console.errors ++ (message ++ "\n") }⟩ := rfl

@[simp] theorem runOn_showDiagnostics (diagnostics : Diagnostics) (next : Program) :
    (showDiagnostics diagnostics next).runOn console =
      next.runOn { console with errors := console.errors ++ diagnostics.render } := rfl

theorem runOn_showSymbols (options : Options) (assembly : Assembly) (next : Program) :
    (showSymbols options assembly next).runOn console = next.runOn { console with
      output := console.output ++
        if options.symbols then Listing.symbols assembly.labels assembly.vars else "" } := by
  unfold showSymbols
  cases options.symbols with
  | true => rfl
  | false => simp

theorem runOn_printIf (condition : Bool) (text : String) (next : Program) :
    (printIf condition text next).runOn console =
      next.runOn { console with output := console.output ++ if condition then text else "" } := by
  cases condition with
  | true => rfl
  | false => simp [printIf]

end Program

/-! ### Up to the input -/

/-- The command table that the options ask for: the one in the document that they name, else the
built-in one. -/
def Options.HaveCommands (options : Options) (files : FileTree) (commands : Command.Table) : Prop :=
  match options.commands with
  | none => commands = .builtin
  | some path =>
    ∃ document, files.readText path = .ok document ∧ Command.Table.read document = .ok commands

/-- With these arguments a run over these files has options, a path for the output and a command
table, and it reads its input. -/
structure ReadsInput (arguments : List String) (files : FileTree) (options : Options)
    (path : String) (commands : Command.Table) (source : String) : Prop where
  parsed : Options.ofArguments arguments = .ok options
  named : outputName? options = some path
  loaded : options.HaveCommands files commands
  read : files.readText options.input = .ok source

theorem runOn_withCommands {options : Options} {console : Console} {commands : Command.Table}
    (h : options.HaveCommands console.files commands) (next : Command.Table → Program) :
    (withCommands options next).runOn console = (next commands).runOn console := by
  unfold Options.HaveCommands at h
  unfold withCommands
  cases hcommands : options.commands with
  | none =>
    rw [hcommands] at h
    rw [h]
  | some path =>
    rw [hcommands] at h
    obtain ⟨document, hdocument, hread⟩ := h
    simp only [Program.runOn, hdocument, hread]

/-- What a run prints before it reads its input. -/
def banner (options : Options) (path : String) (commands : Command.Table) : String :=
  if options.verbose then s!"Compiling {options.input} -> {path} ({commands.size} commands)\n"
  else ""

/-- A run that reads its input delivers what the input compiles to; up to then it has changed no
file. -/
theorem ReadsInput.run_compiler {arguments : List String} {files : FileTree} {options : Options}
    {path : String} {commands : Command.Table} {source : String}
    (h : ReadsInput arguments files options path commands source) :
    (compiler arguments).run files =
      (deliver options path (compile commands source)).runOn
        ⟨files, banner options path commands, ""⟩ := by
  unfold compiler compileWith Program.run
  simp only [h.parsed, h.named]
  rw [@runOn_withCommands options ⟨files, "", ""⟩ commands h.loaded, Program.runOn_printIf,
    String.empty_append]
  simp only [Program.runOn, h.read]
  rfl

/-! ### Runs that stop early -/

/-- A stop leaves the files as they were, and only help is no failure. -/
theorem runOn_stop (reason : Stop) (console : Console) :
    ((stop reason).runOn console).console.files = console.files ∧
      ((stop reason).runOn console).status = reason.status := by
  unfold stop
  cases reason.message? <;> simp [Program.runOn, Program.runOn_printIf]

theorem runOn_withCommands_of_none {options : Options} {console : Console}
    (h : ¬ ∃ commands, options.HaveCommands console.files commands)
    (next : Command.Table → Program) :
    ((withCommands options next).runOn console).console.files = console.files ∧
      ((withCommands options next).runOn console).status = 1 := by
  unfold Options.HaveCommands at h
  unfold withCommands
  cases hcommands : options.commands with
  | none => simp [hcommands] at h
  | some path =>
    simp only [hcommands] at h
    simp only [Program.runOn]
    cases hdocument : console.files.readText path with
    | error error => exact ⟨rfl, rfl⟩
    | ok document =>
      cases hread : Command.Table.read document with
      | error error => simp [hread]
      | ok commands => exact absurd ⟨commands, document, hdocument, hread⟩ h

/-- A run reads its input, or it leaves all files as they were and fails, unless it was asked for
help. -/
theorem run_stops_or_readsInput (arguments : List String) (files : FileTree) :
    let outcome := (compiler arguments).run files
    outcome.console.files = files ∧
        (Options.ofArguments arguments = .error .help ∨ outcome.status = 1) ∨
      ∃ options path commands source, ReadsInput arguments files options path commands source := by
  intro outcome
  simp only [outcome, Program.run, compiler]
  cases hparsed : Options.ofArguments arguments with
  | error reason =>
    left
    obtain ⟨hfiles, hstatus⟩ := runOn_stop reason ⟨files, "", ""⟩
    refine ⟨hfiles, ?_⟩
    cases reason with
    | help => exact .inl rfl
    | _ => exact .inr hstatus
  | ok options =>
    simp only [compileWith]
    cases hnamed : outputName? options with
    | none =>
      obtain ⟨hfiles, hstatus⟩ := runOn_stop .invalidInputName ⟨files, "", ""⟩
      exact .inl ⟨hfiles, .inr hstatus⟩
    | some path =>
      by_cases hloaded : ∃ commands, options.HaveCommands files commands
      · obtain ⟨commands, hcommands⟩ := hloaded
        cases hread : files.readText options.input with
        | ok source =>
          exact .inr ⟨options, path, commands, source, hparsed, hnamed, hcommands, hread⟩
        | error error =>
          left
          simp only
          rw [@runOn_withCommands options ⟨files, "", ""⟩ commands hcommands, Program.runOn_printIf]
          simp only [Program.runOn, hread]
          exact ⟨rfl, .inr rfl⟩
      · obtain ⟨hfiles, hstatus⟩ :=
          @runOn_withCommands_of_none options ⟨files, "", ""⟩ hloaded _
        exact .inl ⟨hfiles, .inr hstatus⟩

/-! ### The listing -/

/-- The bytes of the listing of a compilation. -/
def listingBytes (compilation : Compilation) : ByteArray :=
  (Listing.render compilation.assembly.output.bytes compilation.lines).toUTF8

/-- Where the listing goes, if one is asked for and can be written. -/
def listingAt? (options : Options) (files : FileTree) : Option Location :=
  options.listing.bind fun path => (files.target path).toOption

/-- The files with the listing of a compilation, if one is asked for and can be written. -/
def listed (options : Options) (compilation : Compilation) (files : FileTree) : FileTree :=
  match listingAt? options files with
  | none => files
  | some location => files.set location (.file (listingBytes compilation))

theorem listingAt?_of_none {options : Options} (h : options.listing = none) (files : FileTree) :
    listingAt? options files = none := by
  rw [listingAt?, h]
  rfl

theorem listingAt?_eq_some_iff {options : Options} {files : FileTree} {location : Location} :
    listingAt? options files = some location ↔
      ∃ path, options.listing = some path ∧ files.target path = .ok location := by
  rw [listingAt?, Option.bind_eq_some_iff]
  refine exists_congr fun path => and_congr_right fun _ => ?_
  cases files.target path <;> simp [Except.toOption]

/-- The listing stands in its place, and all other places are as they were. -/
theorem find?_listed (options : Options) (compilation : Compilation) (files : FileTree)
    (location : Location) :
    (listed options compilation files).find? location =
      if listingAt? options files = some location then some (.file (listingBytes compilation))
      else files.find? location := by
  unfold listed
  cases hat : listingAt? options files with
  | none => rfl
  | some place =>
    obtain ⟨path, -, htarget⟩ := listingAt?_eq_some_iff.mp hat
    -- the root is a directory, so no listing goes there
    have hroot : place ≠ [] := by
      rintro rfl
      exact FileTree.find?_ne_directory htarget rfl
    rw [FileTree.find?_set files hroot]
    simp [eq_comm]

/-- The listing takes no place from the output. -/
theorem target_listed {options : Options} {compilation : Compilation} {files : FileTree}
    {path : String} {location : Location} :
    (listed options compilation files).target path = .ok location ↔
      files.target path = .ok location := by
  unfold listed
  cases hat : listingAt? options files with
  | none => rfl
  | some place =>
    obtain ⟨file, -, htarget⟩ := listingAt?_eq_some_iff.mp hat
    exact FileTree.target_set (FileTree.find?_ne_directory htarget) _

/-! ### Delivery -/

/-- All that it takes to deliver a compilation: there is no error, and there is a place for the
output and one for the listing, if one is asked for. -/
structure Deliverable (options : Options) (path : String) (compilation : Compilation)
    (files : FileTree) : Prop where
  usable : compilation.assembly.isUsable = true
  listing : ∀ file, options.listing = some file → ∃ location, files.target file = .ok location
  output : ∃ location, files.target path = .ok location

section Delivery
variable {options : Options} {path : String} {compilation : Compilation} {console : Console}

/-- A listing that has a place, or that is not asked for, does not hold a run up. -/
theorem runOn_writeListing
    (h : ∀ file, options.listing = some file → ∃ location, console.files.target file = .ok location)
    (next : Program) :
    (writeListing options compilation next).runOn console =
      next.runOn { console with files := listed options compilation console.files } := by
  unfold writeListing listed listingAt?
  cases hlisting : options.listing with
  | none => rfl
  | some file =>
    obtain ⟨location, htarget⟩ := h file hlisting
    simp only [Program.runOn, FileTree.write, htarget, Option.bind_some, Except.toOption]
    rfl

theorem runOn_writeListing_of_error {file : String} {error : FileError}
    (hlisting : options.listing = some file) (herror : console.files.target file = .error error)
    (next : Program) :
    ((writeListing options compilation next).runOn console).status = 1 ∧
      ((writeListing options compilation next).runOn console).console.files =
        listed options compilation console.files := by
  unfold writeListing listed listingAt?
  simp only [hlisting, Program.runOn, FileTree.write, herror, Option.bind_some, Except.toOption]
  exact ⟨rfl, rfl⟩

/-- What can be delivered is: the listing and then the output are written, the diagnostics are
shown, and the status is zero. -/
theorem deliver_of_deliverable (h : Deliverable options path compilation console.files) :
    ∃ location, console.files.target path = .ok location ∧
      let outcome := (deliver options path compilation).runOn console
      outcome.status = 0 ∧
        outcome.console.files = (listed options compilation console.files).set location
          (.file ⟨compilation.assembly.output.bytes⟩) ∧
        outcome.console.errors = console.errors ++ compilation.assembly.diagnostics.render := by
  obtain ⟨location, htarget⟩ := h.output
  refine ⟨location, htarget, ?_⟩
  dsimp only
  rw [deliver, Program.runOn_showDiagnostics, runOn_writeListing (by exact h.listing),
    Program.runOn_showSymbols, if_pos h.usable]
  rw [writeOutput, Program.runOn, FileTree.write, target_listed.mpr htarget]
  dsimp only
  rw [Program.runOn_printIf]
  exact ⟨rfl, rfl, rfl⟩

/-- What cannot be delivered ends with status one, and no file but the listing is written. -/
theorem deliver_of_not_deliverable (h : ¬ Deliverable options path compilation console.files) :
    ((deliver options path compilation).runOn console).status = 1 ∧
      ((deliver options path compilation).runOn console).console.files =
        listed options compilation console.files := by
  rw [deliver, Program.runOn_showDiagnostics]
  by_cases hlisting :
      ∀ file, options.listing = some file → ∃ location, console.files.target file = .ok location
  · rw [runOn_writeListing (by exact hlisting), Program.runOn_showSymbols]
    by_cases husable : compilation.assembly.isUsable = true
    · rw [if_pos husable, writeOutput, Program.runOn, FileTree.write]
      cases htarget : (listed options compilation console.files).target path with
      | error error => exact ⟨rfl, rfl⟩
      | ok location =>
        exact absurd ⟨husable, hlisting, location, target_listed.mp htarget⟩ h
    · rw [if_neg husable]
      exact ⟨rfl, rfl⟩
  · simp only [not_forall, not_exists] at hlisting
    obtain ⟨file, hfile, hnone⟩ := hlisting
    cases htarget : console.files.target file with
    | ok location => exact absurd htarget (hnone location)
    | error error => exact runOn_writeListing_of_error hfile (by exact htarget) _

theorem deliver_of_errors (h : compilation.assembly.isUsable = false) :
    ((deliver options path compilation).runOn console).status = 1 ∧
      ((deliver options path compilation).runOn console).console.files =
        listed options compilation console.files := by
  refine deliver_of_not_deliverable fun hdeliverable => ?_
  rw [hdeliverable.usable] at h
  cases h

end Delivery

/-- A run that reads an input with errors ends with status one and leaves the files as they were,
but for the listing. -/
theorem ReadsInput.run_of_errors {arguments : List String} {files : FileTree} {options : Options}
    {path : String} {commands : Command.Table} {source : String}
    (h : ReadsInput arguments files options path commands source)
    (herror : ∃ diagnostic ∈ (compile commands source).assembly.diagnostics.toList,
      diagnostic.severity = .error) :
    ((compiler arguments).run files).status = 1 ∧
      ((compiler arguments).run files).console.files =
        listed options (compile commands source) files := by
  have hunusable : (compile commands source).assembly.isUsable = false :=
    isUsable_eq_false_iff.mpr herror
  rw [h.run_compiler]
  exact deliver_of_errors hunusable

/-- A compilation with errors ends with status one. It writes no file but the listing, which it
does write if one is asked for and can be written; without one all files are as they were. -/
theorem status_and_files_of_errors {arguments : List String} {files : FileTree} {options : Options}
    {path : String} {commands : Command.Table} {source : String}
    (h : ReadsInput arguments files options path commands source)
    (herror : ∃ diagnostic ∈ (compile commands source).assembly.diagnostics.toList,
      diagnostic.severity = .error) :
    let outcome := (compiler arguments).run files
    outcome.status = 1 ∧
      (options.listing = none → outcome.console.files = files) ∧
      (∀ location, listingAt? options files ≠ some location →
        outcome.console.files.find? location = files.find? location) ∧
      (∀ location, listingAt? options files = some location →
        outcome.console.files.find? location =
          some (.file (listingBytes (compile commands source)))) := by
  intro outcome
  obtain ⟨hstatus, hfiles⟩ := h.run_of_errors herror
  have hfind := find?_listed options (compile commands source) files
  rw [← hfiles] at hfind
  refine ⟨hstatus, fun hnone => ?_, fun location hother => ?_, fun location hat => ?_⟩
  · rw [hfiles, listed, listingAt?_of_none hnone]
  · rw [hfind, if_neg hother]
  · rw [hfind, if_pos hat]

/-! ### A script that does not compile -/

/-- One script, whose only word is no command. -/
def strayFiles : FileTree := ⟨[], [(["stray.script"], .file "hello\n".toUTF8)]⟩

/-- Arguments that ask for the script to be compiled, for a listing and for the symbols. -/
def strayArguments : List String := ["-l", "stray.lst", "--symbols", "stray.script"]

theorem readsInput_stray :
    ReadsInput strayArguments strayFiles ⟨"stray.script", "", none, some "stray.lst", true, false⟩
      "stray.bin" .builtin "hello\n" where
  parsed := by decide +kernel
  named := by decide +kernel
  loaded := rfl
  read := by decide +kernel

theorem exists_error_stray :
    ∃ diagnostic ∈ (compile .builtin "hello\n").assembly.diagnostics.toList,
      diagnostic.severity = .error := by
  decide +kernel

theorem listingAt?_stray :
    listingAt? ⟨"stray.script", "", none, some "stray.lst", true, false⟩ strayFiles =
      some ["stray.lst"] := by
  decide +kernel

/-- The run that fails to compile the stray script makes the listing and leaves the script alone. -/
theorem status_and_files_of_errors_stray :
    let outcome := (compiler strayArguments).run strayFiles
    outcome.status = 1 ∧
      outcome.console.files.find? ["stray.bin"] = none ∧
      outcome.console.files.find? ["stray.script"] = some (.file "hello\n".toUTF8) ∧
      outcome.console.files.find? ["stray.lst"] =
        some (.file (listingBytes (compile .builtin "hello\n"))) := by
  obtain ⟨hstatus, -, hothers, hlisting⟩ :=
    status_and_files_of_errors readsInput_stray exists_error_stray
  rw [listingAt?_stray] at hothers hlisting
  exact ⟨hstatus, hothers ["stray.bin"] (by decide), hothers ["stray.script"] (by decide),
    hlisting ["stray.lst"] rfl⟩

/-- A failed compilation can make a file: the run reads its input, the input has an error, and there
is a listing afterwards where there was no file before. -/
theorem listing_of_failed_run :
    let outcome := (compiler strayArguments).run strayFiles
    ReadsInput strayArguments strayFiles
        ⟨"stray.script", "", none, some "stray.lst", true, false⟩ "stray.bin" .builtin "hello\n" ∧
      (∃ diagnostic ∈ (compile .builtin "hello\n").assembly.diagnostics.toList,
        diagnostic.severity = .error) ∧
      (strayFiles.find? ["stray.lst"]).isNone = true ∧
      (outcome.console.files.find? ["stray.lst"]).isSome = true := by
  obtain ⟨-, hfiles⟩ := readsInput_stray.run_of_errors exists_error_stray
  refine ⟨readsInput_stray, exists_error_stray, by decide +kernel, ?_⟩
  rw [hfiles, find?_listed, if_pos listingAt?_stray]
  exact Option.isSome_some

end EventScript.Cli
