import EventScript.Proofs.Emission

/-!
Two passes against one. All that `assemble` answers is known from the program alone: its output, its
tables and its lines are those of direct assembly, and its diagnostics are those of the first pass
followed by those of the slots. Whether a label is defined before or after its uses makes no
difference to any of them.

        assemble   lines ── first pass ──→ pieces, references, tables ── second pass ──→ output
        direct     lines ── sizes ──→ starts ──→ addresses ─────────── one pass ───────→ output
-/

namespace EventScript

/-- What the slots of a program report in the second pass. -/
def slotDiagnostics (commands : Command.Table) (lines : List Line) : List Diagnostic :=
  (piecesOf commands lines).flatMap (Piece.diagnostics (Direct.address? commands lines))

/-- A compilation is the one that a program must have, part by part. -/
structure Compilation.IsDirect (commands : Command.Table) (lines : List Line)
    (compilation : Compilation) : Prop where
  output : compilation.assembly.output.toList = Direct.bytes commands lines
  labels : compilation.assembly.labels.toList = Direct.labels commands lines
  vars : compilation.assembly.vars.toList = Direct.vars commands lines
  diagnostics : compilation.assembly.diagnostics =
    (∅ : Diagnostics).reportAll (diagnosticsOf commands lines ++ slotDiagnostics commands lines)
  lines : compilation.lines = Direct.placed commands lines

/-- The second pass completes whatever draft the first pass leaves. -/
theorem isDirect_assemble (commands : Command.Table) (lines : List Line) :
    (assemble commands lines).IsDirect commands lines := by
  obtain ⟨hholds, hplaced⟩ := Draft.holds_emitLines commands (.compiling lines.length) lines
  have haddress := funext hholds.offset?
  have hresolved := Draft.resolved_finish hholds.output hholds.references
  rw [haddress] at hresolved
  exact {
    output := hresolved.output.trans (filled_piecesOf commands _ lines)
    labels := (congrArg Labels.toList hresolved.labels).trans hholds.labels
    vars := by
      have hvars := hresolved.vars.trans hholds.vars
      exact (congrArg Variables.toList hvars).trans (Variables.toList_ofOperands _)
    diagnostics := by
      have hall := hresolved.diagnostics
      rw [hholds.diagnostics, ← Diagnostics.reportAll_append] at hall
      exact hall
    lines := hplaced }

/-- What an operand stands for by the variables of an assembly. -/
def Assembly.value? (assembly : Assembly) (operand : Operand) : Option Operand.Value :=
  operand.value? (assembly.vars.toList.map (·.1))

namespace Compilation.IsDirect

variable {commands : Command.Table} {lines : List Line} {compilation : Compilation}

theorem offset? (h : compilation.IsDirect commands lines) :
    compilation.assembly.labels.offset? = Direct.address? commands lines := by
  funext name
  rw [Labels.offset?_eq_lookup, h.labels, Direct.lookup_labels]

theorem offset (h : compilation.IsDirect commands lines) :
    compilation.assembly.output.offset = Direct.size commands lines := by
  rw [← Output.length_toList, h.output, Direct.length_bytes]

theorem names (h : compilation.IsDirect commands lines) :
    compilation.assembly.vars.toList.map (·.1) = Operand.declared (operandsOf commands lines) := by
  rw [h.vars]
  exact List.zipIdx_map_fst 0 _

theorem mem_vars_iff (h : compilation.IsDirect commands lines) {name : String} {index : Nat} :
    (name, index) ∈ compilation.assembly.vars.toList ↔
      (Operand.declared (operandsOf commands lines))[index]? = some name := by
  rw [h.vars, Direct.vars]
  exact List.mem_zipIdx_iff_getElem?

theorem size_vars (h : compilation.IsDirect commands lines) :
    compilation.assembly.vars.size = (Operand.declared (operandsOf commands lines)).length := by
  rw [← Variables.length_toList, h.vars, Direct.vars, List.length_zipIdx]

/-- The diagnostics are those of the first pass and then those of the second. -/
theorem toList_diagnostics (h : compilation.IsDirect commands lines) :
    compilation.assembly.diagnostics.toList =
      diagnosticsOf commands lines ++ slotDiagnostics commands lines := by
  rw [h.diagnostics, Diagnostics.toList_reportAll]
  rfl

end Compilation.IsDirect

theorem Direct.isName_of_address? {commands : Command.Table} {lines : List Line} {name : String}
    {address : Nat} (h : Direct.address? commands lines name = some address) :
    Token.isName name = true := by
  have hmem : name ∈ lines.filterMap Line.label? := by
    by_contra hnone
    rw [Direct.address?_eq_none_iff.mpr hnone] at h
    cases h
  obtain ⟨line, -, hlabel⟩ := List.mem_filterMap.mp hmem
  obtain ⟨token, -, htoken⟩ := Option.bind_eq_some_iff.mp hlabel
  exact Token.isName_of_label? htoken

/-- Assembly with slots that are written later gives what direct assembly gives: the same bytes, the
same labels and variables in the same order, and the same lines at the same offsets. -/
theorem assemble_eq_direct (commands : Command.Table) (lines : List Line) :
    let compilation := assemble commands lines
    (⟨compilation.assembly.output.toList, compilation.assembly.labels.toList,
      compilation.assembly.vars.toList, compilation.lines⟩ : Direct.Result) =
      Direct.assemble commands lines := by
  have hdirect := isDirect_assemble commands lines
  intro compilation
  rw [hdirect.output, hdirect.labels, hdirect.vars, hdirect.lines, Direct.assemble]

example : (assemble greetingCommands greeting).assembly.output.toList =
    [1, 0, 0, 2, 3, 2, 0, 104, 105, 1, 0, 0, 3, 0, 0] := by decide +kernel

end EventScript
