/-!
Diagnostics. Everything that is wrong with a script is a diagnostic of some kind, with its wording
and the line it belongs to. The kind alone decides whether it is an error or a warning, and a
collector keeps diagnostics in the order of their reports and counts both sorts.
-/

namespace EventScript

/-- How grave a diagnostic is. -/
inductive Severity where
  | warning
  | error
  deriving DecidableEq, Repr

/-- The word for a severity. -/
def Severity.text : Severity → String
  | .warning => "warning"
  | .error => "error"

namespace Diagnostic

/-- What sort of thing went wrong on a line. -/
inductive Kind where
  | duplicateLabel
  | unknownCommand
  | argumentCount
  | unresolvedOperand
  | invalidName
  | duplicateVariable
  | unknownVariable
  | undefinedLabel
  | truncation
  deriving DecidableEq, Repr

/-- A value cut to fit is a warning; everything else is an error. -/
def Kind.severity : Kind → Severity
  | .truncation => .warning
  | _ => .error

end Diagnostic

/-- One thing wrong, its wording, the number of its line and that line's text. -/
structure Diagnostic where
  kind : Diagnostic.Kind
  message : String
  line : Nat
  source : String
  deriving DecidableEq, Repr

namespace Diagnostic

/-- The severity of a diagnostic is that of its kind. -/
def severity (diagnostic : Diagnostic) : Severity := diagnostic.kind.severity

/-- A diagnostic as it is shown: what and where, and the line below. -/
def render (diagnostic : Diagnostic) : String :=
  s!"{diagnostic.severity.text}: line {diagnostic.line}: {diagnostic.message}\n" ++
    s!"    {diagnostic.source}"

end Diagnostic

/-- Diagnostics in the order of their reports, with the counts of errors and of warnings. -/
structure Diagnostics where
  entries : Array Diagnostic
  errors : Nat
  warnings : Nat
  deriving Repr

namespace Diagnostics

/-- No diagnostics. -/
def empty : Diagnostics := ⟨#[], 0, 0⟩

instance : EmptyCollection Diagnostics := ⟨empty⟩

/-- Add a diagnostic at the end and count it. -/
def report (diagnostics : Diagnostics) (diagnostic : Diagnostic) : Diagnostics :=
  match diagnostic.severity with
  | .error =>
    { diagnostics with
      entries := diagnostics.entries.push diagnostic, errors := diagnostics.errors + 1 }
  | .warning =>
    { diagnostics with
      entries := diagnostics.entries.push diagnostic, warnings := diagnostics.warnings + 1 }

/-- There is an error among them. -/
def hasErrors (diagnostics : Diagnostics) : Bool := 0 < diagnostics.errors

/-- All diagnostics in the order of their reports. -/
def toList (diagnostics : Diagnostics) : List Diagnostic := diagnostics.entries.toList

/-- The number of diagnostics. -/
def size (diagnostics : Diagnostics) : Nat := diagnostics.entries.size

/-- There is no diagnostic. -/
def isEmpty (diagnostics : Diagnostics) : Bool := diagnostics.entries.isEmpty

/-- The number of diagnostics of a kind. -/
def count (diagnostics : Diagnostics) (kind : Diagnostic.Kind) : Nat :=
  diagnostics.toList.countP (·.kind = kind)

/-- All diagnostics as they are shown, each with its own line end. -/
def render (diagnostics : Diagnostics) : String :=
  String.join (diagnostics.toList.map fun diagnostic => diagnostic.render ++ "\n")

@[simp] theorem toList_report (diagnostics : Diagnostics) (diagnostic : Diagnostic) :
    (diagnostics.report diagnostic).toList = diagnostics.toList ++ [diagnostic] := by
  simp only [report, toList]
  split <;> simp

end Diagnostics

end EventScript
