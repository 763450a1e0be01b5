/-!
Arguments of the command line. An option with a value takes the argument after it, whatever that
looks like, and the last value counts. Anything else that starts with a hyphen is a flag or a
mistake, and one argument names the input. An empty argument names no input.
-/

namespace EventScript.Cli

/-- An option that takes the next argument as its value. -/
inductive ValueOption where
  | output
  | commands
  | listing
  deriving DecidableEq, Repr

/-- The option with a value that an argument is. -/
def ValueOption.ofArgument? (argument : String) : Option ValueOption :=
  if argument = "-o" || argument = "--output" then some .output
  else if argument = "--commands" then some .commands
  else if argument = "-l" || argument = "--listing" then some .listing
  else none

/-- An option without a value. -/
inductive Flag where
  | symbols
  | verbose
  | help
  deriving DecidableEq, Repr

/-- The flag that an argument is. -/
def Flag.ofArgument? (argument : String) : Option Flag :=
  if argument = "--symbols" then some .symbols
  else if argument = "-v" || argument = "--verbose" then some .verbose
  else if argument = "-h" || argument = "--help" then some .help
  else none

/-- What the arguments ask for. An empty input or output is none. -/
structure Options where
  input : String
  output : String
  commands : Option String
  listing : Option String
  symbols : Bool
  verbose : Bool
  deriving DecidableEq, Repr

/-- Why there is nothing to compile. -/
inductive Stop where
  | noArguments
  | help
  | missingValue (argument : String)
  | unknownOption (argument : String)
  | severalInputs
  | noInput
  | invalidInputName
  deriving DecidableEq, Repr

namespace Stop

/-- The wording of a stop; asking for help and giving no arguments need none. -/
def message? : Stop → Option String
  | .noArguments => none
  | .help => none
  | .missingValue argument => some s!"Error: {argument} requires a filename"
  | .unknownOption argument => some s!"Error: Unknown option '{argument}'"
  | .severalInputs => some "Error: Multiple input files specified"
  | .noInput => some "Error: No input file specified"
  | .invalidInputName => some "Error: Invalid input filename"

/-- The stop shows how the program is used. -/
def showsUsage : Stop → Bool
  | .noArguments | .help | .unknownOption _ | .noInput => true
  | .missingValue _ | .severalInputs | .invalidInputName => false

/-- Only help is what was asked for. -/
def status : Stop → UInt32
  | .help => 0
  | _ => 1

end Stop

namespace Options

/-- Nothing asked for yet. -/
def empty : Options := ⟨"", "", none, none, false, false⟩

/-- The options with a value set. -/
def setValue (options : Options) (value : String) : ValueOption → Options
  | .output => { options with output := value }
  | .commands => { options with commands := some value }
  | .listing => { options with listing := some value }

/-- The options with the input named, unless it is. -/
def setInput (options : Options) (argument : String) : Except Stop Options :=
  if options.input.isEmpty then .ok { options with input := argument } else .error .severalInputs

/-- The options with a flag set. -/
def setFlag (options : Options) : Flag → Except Stop Options
  | .symbols => .ok { options with symbols := true }
  | .verbose => .ok { options with verbose := true }
  | .help => .error .help

/-- The options after an argument that takes no value. -/
def add (options : Options) (argument : String) : Except Stop Options :=
  match Flag.ofArgument? argument with
  | some flag => options.setFlag flag
  | none =>
    if argument.toList.head? = some '-' then .error (.unknownOption argument)
    else options.setInput argument

/-- The options after more arguments. -/
def addAll (options : Options) : List String → Except Stop Options
  | [] => .ok options
  | argument :: rest =>
    match ValueOption.ofArgument? argument with
    | some option =>
      match rest with
      | [] => .error (.missingValue argument)
      | value :: rest => (options.setValue value option).addAll rest
    | none =>
      match options.add argument with
      | .error stop => .error stop
      | .ok options => options.addAll rest

/-- The options that the arguments ask for. -/
def ofArguments : List String → Except Stop Options
  | [] => .error .noArguments
  | arguments =>
    match empty.addAll arguments with
    | .error stop => .error stop
    | .ok options => if options.input.isEmpty then .error .noInput else .ok options

end Options

end EventScript.Cli
