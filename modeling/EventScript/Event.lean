import EventScript.Diagnostic
import EventScript.Output
import EventScript.Parameter
import EventScript.Text.Numeral

/-!
Events: what the work on a script records about itself, each with a level. An event holds its facts;
its wording is made only when somebody reads the record.
-/

namespace EventScript

/-- How much an event matters, least first. -/
inductive Level where
  | trace
  | debug
  | info
  | error
  deriving DecidableEq, Repr

namespace Level

/-- The rank of a level among all levels. -/
def rank : Level → Nat
  | .trace => 0
  | .debug => 1
  | .info => 2
  | .error => 3

/-- The word for a level. -/
def text : Level → String
  | .trace => "TRACE"
  | .debug => "DEBUG"
  | .info => "INFO"
  | .error => "ERROR"

end Level

/-- Something that happened on the way from a command table and a script to an assembly. -/
inductive Event where
  | tableLoaded (commands : Nat)
  | compiling (lines : Nat)
  | labelDefined (name : String) (offset : Nat)
  | tokensIgnored (line count : Nat) (label : String)
  | directiveIgnored (line : Nat) (token : String)
  | commandEmitted (offset : Nat) (mnemonic : String) (opcode : UInt8)
  | variableDeclared (name : String) (index : Nat)
  | referenceLogged (reference : Reference)
  | operandEmitted (parameter : Parameter) (token : String) (bytes : List UInt8)
  | reported (diagnostic : Diagnostic)
  | resolving (references labels : Nat)
  | slotPatched (location : Nat) (label : String) (address : Nat)
  | slotOutside (location : Nat) (label : String)
  | resolved (patched references : Nat)
  | assembled (bytes labels vars errors warnings : Nat)
  deriving DecidableEq, Repr

namespace Event

open Text.Numeral (hex)

/-- The level of an event. -/
def level : Event → Level
  | .tableLoaded _ => .debug
  | .compiling _ => .debug
  | .labelDefined .. => .debug
  | .tokensIgnored .. => .debug
  | .directiveIgnored .. => .trace
  | .commandEmitted .. => .trace
  | .variableDeclared .. => .debug
  | .referenceLogged _ => .debug
  | .operandEmitted .. => .trace
  | .reported _ => .debug
  | .resolving .. => .info
  | .slotPatched .. => .trace
  | .slotOutside .. => .error
  | .resolved .. => .debug
  | .assembled .. => .info

/-- Bytes in brackets, two digits each. -/
def byteList (bytes : List UInt8) : String :=
  "[" ++ ", ".intercalate (bytes.map fun byte => hex 2 byte.toNat) ++ "]"

/-- The wording of an event. -/
def message : Event → String
  | .tableLoaded commands => s!"Loaded command table with {commands} commands"
  | .compiling lines => s!"Compiling {lines} lines"
  | .labelDefined name offset => s!"label '{name}' -> 0x{hex 4 offset}"
  | .tokensIgnored line count label =>
    s!"line {line}: {count} token(s) after label '{label}' ignored"
  | .directiveIgnored line token => s!"line {line}: directive '{token}' ignored"
  | .commandEmitted offset mnemonic opcode =>
    s!"0x{hex 4 offset}: {mnemonic} (opcode 0x{hex 2 opcode.toNat})"
  | .variableDeclared name index => s!"variable '{name}' -> #{index}"
  | .referenceLogged reference =>
    s!"forward reference to '{reference.label}' at 0x{hex 4 reference.location} " ++
      s!"(line {reference.line})"
  | .operandEmitted parameter token bytes => s!"  {parameter.spec} '{token}' -> {byteList bytes}"
  | .reported diagnostic =>
    match diagnostic.severity with
    | .error => s!"line {diagnostic.line}: {diagnostic.message}"
    | .warning => s!"line {diagnostic.line} (warning): {diagnostic.message}"
  | .resolving references labels =>
    s!"Resolving {references} forward references against {labels} labels"
  | .slotPatched location label address =>
    s!"patched 0x{hex 4 location} <- '{label}' (0x{hex 4 address})"
  | .slotOutside location label =>
    s!"forward reference slot 0x{hex 4 location} for '{label}' lies outside the output"
  | .resolved patched references => s!"{patched}/{references} forward references patched"
  | .assembled bytes labels vars errors warnings =>
    s!"Assembled {bytes} bytes: {labels} labels, {vars} variables, " ++
      s!"{errors} errors, {warnings} warnings"

end Event

/-- The events of at least a level, in order. -/
def Level.select (least : Level) (events : Array Event) : List Event :=
  events.toList.filter fun event => least.rank ≤ event.level.rank

end EventScript
