import EventScript.Diagnostic
import EventScript.Line
import EventScript.Operand.Encoding
import EventScript.Text.Numeral

/-!
Problems: the causes behind diagnostics. A problem has everything that its wording needs, so the
kind and the message of a diagnostic are functions of its cause.
-/

namespace EventScript

/-- What a name is wanted for. -/
inductive NameRole where
  | label
  | variable
  deriving DecidableEq, Repr

/-- The words for what a name is wanted for. -/
def NameRole.text : NameRole → String
  | .label => "label"
  | .variable => "variable name"

/-- A cause of a diagnostic. -/
inductive Problem where
  | symbol (error : SymbolError)
  | unknownCommand (token : String)
  | argumentCount (expected actual : Nat)
  | operand (error : OperandError)
  | invalidName (token : String) (role : NameRole)
  | undefinedLabel (name : String)
  | truncated (cut : Truncation)
  | wideAddress (address : Nat) (label : String)
  deriving DecidableEq, Repr

namespace Problem

/-- The kind of diagnostic that a cause makes. -/
def kind : Problem → Diagnostic.Kind
  | .symbol (.duplicateLabel ..) => .duplicateLabel
  | .symbol (.duplicateVariable ..) => .duplicateVariable
  | .symbol (.unknownVariable _) => .unknownVariable
  | .unknownCommand _ => .unknownCommand
  | .argumentCount .. => .argumentCount
  | .operand _ => .unresolvedOperand
  | .invalidName .. => .invalidName
  | .undefinedLabel _ => .undefinedLabel
  | .truncated _ => .truncation
  | .wideAddress .. => .truncation

/-- The wording of a cause. -/
def message : Problem → String
  | .symbol error => error.message
  | .unknownCommand token => s!"Unknown command '{token}'."
  | .argumentCount expected actual =>
    s!"Wrong number of arguments. Expected {expected} but got {actual}."
  | .operand error => error.message
  | .invalidName token role => s!"Cannot convert '{token}' to {role.text}."
  | .undefinedLabel name => s!"Cannot find label '{name}'."
  | .truncated cut => cut.message
  | .wideAddress address label =>
    s!"Address 0x{Text.Numeral.hex 0 address} of label '{label}' does not fit in 16 bits."

/-- The diagnostic of a cause on a numbered line with a text. -/
def diagnostic (problem : Problem) (line : Nat) (source : String) : Diagnostic :=
  ⟨problem.kind, problem.message, line, source⟩

end Problem

end EventScript
