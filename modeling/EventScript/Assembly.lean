import EventScript.Draft
import EventScript.Statement

/-!
Assembling a script in two passes. The first emits the statements in order: a command is its opcode
and its operands, a label is defined at the offset of what follows, and a label operand is always a
slot, whether its label is known yet or not. The second writes the addresses into the slots. Nothing
stops an assembly: what is wrong is reported, and the work goes on with the next operand or line.
-/

namespace EventScript

/-! ### First pass -/

namespace Draft

/-- Emit what a line says. -/
def emitStatement (draft : Draft) (line : Line) : Statement → Draft
  | .empty => draft
  | .label name ignored =>
    let offset := draft.offset
    let draft :=
      match draft.define name offset with
      | (none, draft) => draft
      | (some error, draft) => draft.reportOn line (.symbol error)
    if ignored = 0 then draft else draft.record (.tokensIgnored line.number ignored name)
  | .directive token => draft.record (.directiveIgnored line.number token)
  | .command command operands =>
    let offset := draft.offset
    ((draft.record (.commandEmitted offset command.mnemonic command.opcode)).emit
      [command.opcode]).emitOperands line operands

/-- Emit a line. -/
def emitLine (commands : Command.Table) (draft : Draft) (line : Line) : Draft :=
  match Statement.ofTokens commands line.tokens with
  | .ok statement => draft.emitStatement line statement
  | .error problem => draft.reportOn line problem

/-! ### Second pass -/

/-- Report a problem on the line that a reference is from. -/
def reportAt (draft : Draft) (reference : Reference) (problem : Problem) : Draft :=
  draft.report (problem.diagnostic reference.line reference.source)

/-- The largest address that a slot holds. -/
def maxAddress : Nat := 0xFFFF

/-- Report an address that its slot cannot hold in full. -/
def checkAddress (draft : Draft) (reference : Reference) (address : Nat) : Draft :=
  if maxAddress < address then draft.reportAt reference (.wideAddress address reference.label)
  else draft

/-- Write the address of a reference's label into its slot; the count is of slots written. -/
def resolve : Draft × Nat → Reference → Draft × Nat
  | (draft, patched), reference =>
    match draft.labels.offset? reference.label with
    | none => (draft.reportAt reference (.undefinedLabel reference.label), patched)
    | some address =>
      let draft := draft.checkAddress reference address
      if draft.output.hasSlot reference.location then
        ((draft.patch reference.location address).record
          (.slotPatched reference.location reference.label address), patched + 1)
      else (draft.record (.slotOutside reference.location reference.label), patched)

/-- Write all addresses into their slots, in the order of the references. -/
def resolveAll (draft : Draft) : Draft :=
  let references := draft.references
  let labels := draft.labels.size
  let draft := draft.record (.resolving references.size labels)
  let (draft, patched) := references.foldl resolve (draft, 0)
  draft.record (.resolved patched references.size)

end Draft

/-! ### The result -/

/-- A finished unit. -/
structure Assembly where
  output : Output
  labels : Labels
  vars : Variables
  diagnostics : Diagnostics

namespace Assembly

/-- The bytes mean something only when there is no error. -/
def isUsable (assembly : Assembly) : Bool := !assembly.diagnostics.hasErrors

end Assembly

/-- The event that sums a draft up. -/
def Draft.summary (draft : Draft) : Event :=
  .assembled draft.offset draft.labels.size draft.vars.size draft.diagnostics.errors
    draft.diagnostics.warnings

/-- Run the second pass and sum up. -/
def Draft.finish (draft : Draft) : Draft :=
  let draft := draft.resolveAll
  let summary := draft.summary
  draft.record summary

/-- The unit that a finished draft holds. -/
def Draft.assembly (draft : Draft) : Assembly :=
  ⟨draft.output, draft.labels, draft.vars, draft.diagnostics⟩

/-- An assembly, its lines with their code offsets, and what was recorded on the way. -/
structure Compilation where
  assembly : Assembly
  lines : List Line
  events : Array Event

/-- Emit lines in order and note the code offset of each. -/
def emitLines (commands : Command.Table) (draft : Draft) (lines : List Line) :
    Draft × Array Line :=
  lines.foldl
    (fun (draft, placed) line =>
      let placed := placed.push (line.placedAt draft.offset)
      (draft.emitLine commands line, placed))
    (draft, #[])

/-- Assemble lines; whatever code offsets they had are replaced. -/
def assemble (commands : Command.Table) (lines : List Line) : Compilation :=
  let start := (∅ : Draft).record (.compiling lines.length)
  let (draft, placed) := emitLines commands start lines
  let draft := draft.finish
  ⟨draft.assembly, placed.toList, draft.events⟩

/-- Assemble the source text of a script. -/
def compile (commands : Command.Table) (source : String) : Compilation :=
  assemble commands (Line.ofSource source)

end EventScript
