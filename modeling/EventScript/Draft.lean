import EventScript.Event
import EventScript.Operand.Contribution

/-!
A draft is a unit under construction: the symbol tables, the output with its references, the
diagnostics, and the record of events. Each operation does one thing to it and records that.
-/

namespace EventScript

/-- A unit under construction. -/
structure Draft where
  labels : Labels
  vars : Variables
  references : Array Reference
  output : Output
  diagnostics : Diagnostics
  events : Array Event

namespace Draft

/-- Nothing emitted yet. -/
def empty : Draft := ⟨∅, ∅, #[], ∅, ∅, #[]⟩

instance : EmptyCollection Draft := ⟨empty⟩

/-- The code offset of the next byte. -/
def offset (draft : Draft) : Nat := draft.output.offset

/-- Record an event. -/
def record (draft : Draft) (event : Event) : Draft :=
  { draft with events := draft.events.push event }

/-- Report a diagnostic. -/
def report (draft : Draft) (diagnostic : Diagnostic) : Draft :=
  { draft with
    diagnostics := draft.diagnostics.report diagnostic
    events := draft.events.push (.reported diagnostic) }

/-- Report a problem on a line. -/
def reportOn (draft : Draft) (line : Line) (problem : Problem) : Draft :=
  draft.report (problem.diagnostic line.number line.text)

/-- Emit bytes. -/
def emit (draft : Draft) (bytes : List UInt8) : Draft :=
  { draft with output := draft.output.append bytes }

/-- Overwrite a word of the output. -/
def patch (draft : Draft) (location value : Nat) : Draft :=
  { draft with output := draft.output.patch location value }

/-- Define a label at an offset, or say why not. -/
def define (draft : Draft) (name : String) (offset : Nat) : Option SymbolError × Draft :=
  match draft.labels.define name offset with
  | .error error => (some error, draft)
  | .ok labels => (none, { draft with labels }.record (.labelDefined name offset))

/-- Take over a variable table in which a name was declared last. -/
def adopt (draft : Draft) (name : String) (index : Nat) (vars : Variables) : Draft :=
  { draft with vars }.record (.variableDeclared name index)

/-- Declare a variable and answer its index, or say why not. -/
def declare (draft : Draft) (name : String) : Except SymbolError Nat × Draft :=
  let index := draft.vars.size
  match draft.vars.declare name with
  | .error error => (.error error, draft)
  | .ok vars => (.ok index, draft.adopt name index vars)

/-- Reserve a slot for a label's address and log the reference to it. -/
def refer (draft : Draft) (label : String) (line : Nat) (source : String) : Draft :=
  let reference : Reference := ⟨draft.offset, label, line, source⟩
  { draft with
    references := draft.references.push reference
    output := draft.output.reserve
    events := draft.events.push (.referenceLogged reference) }

/-! ### Operands -/

/-- Report the cut that an encoding needed, if any. -/
def reportCut (draft : Draft) (line : Line) : Option Truncation → Draft
  | none => draft
  | some cut => draft.reportOn line (.truncated cut)

/-- Add what an operand contributes. -/
def contribute (draft : Draft) (line : Line) : Operand.Contribution → Draft
  | .value encoding => (draft.reportCut line encoding.truncation).emit encoding.bytes
  | .declaration name index vars => (draft.adopt name index vars).emit (wordBytes index)
  | .slot label => draft.refer label line.number line.text

/-- Emit one operand; one that does not fit is reported and leaves no bytes. A token that would have
to be a name and is none leaves no trace of an encoding either. -/
def emitOperand (draft : Draft) (line : Line) (parameter : Parameter) (token : String) : Draft :=
  match Operand.contribution draft.vars parameter token with
  | .ok contribution =>
    (draft.contribute line contribution).record
      (.operandEmitted parameter token contribution.bytes)
  | .error (.invalidName token role) => draft.reportOn line (.invalidName token role)
  | .error problem => (draft.reportOn line problem).record (.operandEmitted parameter token [])

/-- Emit operands from left to right. -/
def emitOperands (draft : Draft) (line : Line) (operands : List (Parameter × String)) : Draft :=
  operands.foldl (fun draft (parameter, token) => draft.emitOperand line parameter token) draft

end Draft

end EventScript
