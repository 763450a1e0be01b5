import EventScript.Assembly
import EventScript.Cli.Options
import EventScript.Cli.Program
import EventScript.Command.Document
import EventScript.Listing

/-!
The compiler as a program. It reads the command table if one is named, then the input; it
compiles, shows all diagnostics, writes the listing and prints the symbols if they are asked for,
and writes the output when there is no error.
-/

namespace EventScript.Cli

/-- The name of the program, which the usage shows. A program that is called by another name shows
that one; the runs here are those under its own. -/
def programName : String := "mapscript-compiler"

/-- How the program is used. -/
def usage : String := String.join [
  s!"Usage: {programName} [options] <input>\n",
  "\n",
  "Options:\n",
  "  -o, --output <file>     Output filename (default: input.bin)\n",
  "  --commands <file>       Command table in TOML (default: built-in set)\n",
  "  -l, --listing <file>    Write an address/bytes/source listing\n",
  "  --symbols               Print labels and variables after compiling\n",
  "  -v, --verbose           Verbose output\n",
  "  -h, --help              Show this help message\n",
  "\n",
  "Examples:\n",
  s!"  {programName} route1.script                    # Compile to route1.bin\n",
  s!"  {programName} -l town.lst --symbols town.script\n",
  s!"  {programName} --commands custom.toml event.script\n"]

/-- Go on after something was shown. When it did not arrive, this is said and nothing else
changes. -/
def afterShowing (what : String) (answer : Except FileError Unit) (next : Program) : Program :=
  match answer with
  | .ok () => next
  | .error error => .complain s!"Error writing {what}: {error.message}\n" next

/-- Print a text if a condition holds. -/
def printIf (condition : Bool) (text : String) (next : Program) : Program :=
  if condition then .print text next else next

/-- End with a message and status one. -/
def fail (message : String) : Program := .complain (message ++ "\n") (.exit 1)

/-- End without compiling. -/
def stop (reason : Stop) : Program :=
  let ending := printIf reason.showsUsage usage (.exit reason.status)
  match reason.message? with
  | some message => .complain (message ++ "\n") ending
  | none => ending

/-! ### Steps -/

/-- Where the output goes: where it is asked for, else into the working directory, named for the
input's stem. -/
def outputName? (options : Options) : Option String :=
  if options.output.isEmpty then (Path.stem? options.input).map (· ++ ".bin")
  else some options.output

/-- Go on with the command table that is asked for. -/
def withCommands (options : Options) (next : Command.Table → Program) : Program :=
  match options.commands with
  | none => next .builtin
  | some path =>
    .readText path fun
      | .error error => fail s!"Error: IO error: reading '{path}': {error.message}"
      | .ok document =>
        match Command.Table.read document with
        | .error error => fail s!"Error: {error.message}"
        | .ok commands => next commands

/-- Write the listing if one is asked for. -/
def writeListing (options : Options) (compilation : Compilation) (next : Program) : Program :=
  match options.listing with
  | none => next
  | some path =>
    let text := Listing.render compilation.assembly.output.bytes compilation.lines
    .write path text.toUTF8 fun
      | .error error => fail s!"Error writing listing '{path}': {error.message}"
      | .ok () => next

/-- Show all diagnostics. -/
def showDiagnostics (diagnostics : Diagnostics) (next : Program) : Program :=
  .send .errors diagnostics.render fun answer => afterShowing "diagnostics" answer next

/-- Show the symbols if they are asked for. -/
def showSymbols (options : Options) (assembly : Assembly) (next : Program) : Program :=
  if options.symbols then
    .send .output (Listing.symbols assembly.labels assembly.vars) fun answer =>
      afterShowing "symbols" answer next
  else next

/-- Write the bytes of an assembly without errors. -/
def writeOutput (options : Options) (path : String) (assembly : Assembly) : Program :=
  let bytes := assembly.output.bytes
  .write path ⟨bytes⟩ fun
    | .error error => fail s!"Error writing '{path}': {error.message}"
    | .ok () =>
      printIf options.verbose
        (s!"Successfully compiled {bytes.size} bytes to {path} " ++
          s!"({assembly.diagnostics.warnings} warnings)\n")
        (.exit 0)

/-- Show what a compilation found, and deliver what it made. -/
def deliver (options : Options) (path : String) (compilation : Compilation) : Program :=
  let assembly := compilation.assembly
  let diagnostics := assembly.diagnostics
  showDiagnostics diagnostics <|
    writeListing options compilation <|
      showSymbols options assembly <|
        if assembly.isUsable then writeOutput options path assembly
        else
          fail s!"Compilation failed: {diagnostics.errors} errors, {diagnostics.warnings} warnings"

/-- Compile what the options ask for. -/
def compileWith (options : Options) : Program :=
  match outputName? options with
  | none => stop .invalidInputName
  | some path =>
    withCommands options fun commands =>
      printIf options.verbose
        s!"Compiling {options.input} -> {path} ({commands.size} commands)\n" <|
        .readText options.input fun
          | .error error => fail s!"Error reading '{options.input}': {error.message}"
          | .ok source => deliver options path (compile commands source)

/-- The compiler, given its arguments. -/
def compiler (arguments : List String) : Program :=
  match Options.ofArguments arguments with
  | .error reason => stop reason
  | .ok options => compileWith options

end EventScript.Cli
