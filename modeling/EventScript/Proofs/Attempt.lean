import EventScript.Proofs.Readdressing
import EventScript.Proofs.Reports

/-!
All or nothing. An operand either fits its parameter, and then all that belongs to it is added, or
it is one error and nothing else happens. A line that is no command of the table, has the wrong
number of operands or defines a label again is one error too; any other command line has its opcode
in the output, and each of its operands is attempted, whatever became of those in front of it.

        draft ── operand ──→ refused    one error, nothing else
                         ──→ accepted   its bytes, its variable or its reference, at most a warning
-/

namespace EventScript

open Operand (Value valueAfter? diagnosticsAfter)
open Variables (ofOperands)

/-! ### What becomes of an operand -/

/-- The warning that a value needs on a line, if it is cut. -/
def Operand.Value.warnings (line : Line) (value : Value) : List Diagnostic :=
  value.cut?.toList.map fun cut => (Problem.truncated cut).diagnostic line.number line.text

namespace Draft

/-- Something on a line was refused: the problem is reported, and nothing else has changed. -/
structure Refused (draft : Draft) (line : Line) (problem : Problem) (after : Draft) : Prop where
  severity : problem.kind.severity = .error
  diagnostics :
    after.diagnostics = draft.diagnostics.report (problem.diagnostic line.number line.text)
  output : after.output = draft.output
  labels : after.labels = draft.labels
  vars : after.vars = draft.vars
  references : after.references = draft.references

/-- An operand on a line was accepted as a value: all bytes of the value stand at the end, a label
as a zero that waits for its address, a declaration has made one variable and a label one reference
to where its bytes start; no error is reported, and a warning only where the value was cut. -/
structure Accepted (draft : Draft) (line : Line) (operand : Operand) (value : Value)
    (after : Draft) : Prop where
  meaning : Operand.value? (after.vars.toList.map (·.1)) operand = some value
  output : after.output.toList = draft.output.toList ++ value.bytes fun _ => none
  labels : after.labels = draft.labels
  vars : after.vars.toList = draft.vars.toList ++
    if operand.1 = .declaration then [(operand.2, draft.vars.size)] else []
  references : after.references.toList = draft.references.toList ++
    if operand.1 = .label then [⟨draft.offset, operand.2, line.number, line.text⟩] else []
  diagnostics : after.diagnostics = draft.diagnostics.reportAll (value.warnings line)
  errors : after.diagnostics.errors = draft.diagnostics.errors
  warnings : after.diagnostics.warnings ≤ draft.diagnostics.warnings + 1

end Draft

namespace Operand

/-- Before it is filled in, a piece is the value written where no label has an address. -/
theorem Value.raw_piece (line : Line) (value : Value) :
    (value.piece line).raw = value.bytes fun _ => none := by
  cases value <;> rfl

theorem Value.countP_warnings (line : Line) (value : Value) :
    (value.warnings line).countP (·.severity = .error) = 0 ∧
      (value.warnings line).countP (·.severity = .warning) ≤ 1 := by
  unfold warnings
  cases value.cut? with
  | none => exact ⟨rfl, Nat.zero_le _⟩
  | some cut => exact ⟨rfl, Nat.le_refl _⟩

/-- A value leaves a reference if it is that of a label operand, and no other does. -/
theorem references_piece {before : List Operand} {operand : Operand} {value : Value}
    (h : valueAfter? before operand = some value) (line : Line) (offset : Nat) :
    Piece.references offset [value.piece line] =
      if operand.1 = .label then [⟨offset, operand.2, line.number, line.text⟩] else [] := by
  obtain ⟨parameter, token⟩ := operand
  cases denotes_of_value? (value?_of_valueAfter? h) <;> rfl

/-- An operand with a value makes one variable if it is a declaration, and no other does. -/
theorem toList_vars_concat {before : List Operand} {operand : Operand} {value : Value}
    (h : valueAfter? before operand = some value) :
    (ofOperands (before ++ [operand])).toList = (ofOperands before).toList ++
      if operand.1 = .declaration then [(operand.2, (ofOperands before).size)] else [] := by
  obtain ⟨parameter, token⟩ := operand
  rw [Variables.toList_ofOperands, Variables.toList_ofOperands, Variables.size_ofOperands]
  by_cases hparameter : parameter = .declaration
  · subst hparameter
    rw [valueAfter?_declaration] at h
    split at h
    · next hnew =>
      have hdeclares : declares? (.declaration, token) = some token := by
        simp [declares?, hnew.1]
      rw [declared_concat_of_new hdeclares hnew.2, List.zipIdx_append]
      simp
    · cases h
  · rw [declared_concat_of_old (by simp [declares?_of_ne hparameter])]
    simp [hparameter]

end Operand

/-! ### One operand -/

namespace Draft

variable {draft : Draft} {attempted : List Operand} {operand : Operand}

theorem refused_emitOperand (hvars : draft.vars = ofOperands attempted)
    (h : valueAfter? attempted operand = none) (line : Line) :
    ∃ problem : Problem, problem.kind = operand.failure ∧
      Refused draft line problem (draft.emitOperand line operand.1 operand.2) := by
  obtain ⟨problem, hproblem, hseverity⟩ := Operand.exists_problem_of_none h
  refine ⟨problem, Operand.kind_of_contribution hproblem, ?_⟩
  rw [emitOperand, hvars, hproblem]
  cases problem <;> exact ⟨hseverity, rfl, rfl, rfl, rfl, rfl⟩

theorem accepted_emitOperand (hvars : draft.vars = ofOperands attempted) {value : Value}
    (h : valueAfter? attempted operand = some value) (line : Line) :
    Accepted draft line operand value (draft.emitOperand line operand.1 operand.2) := by
  obtain ⟨hemits, hafter⟩ := emits_emitOperand hvars line operand
  rw [h, Option.toList_some, List.map_singleton] at hemits
  have hdiagnostics : (draft.emitOperand line operand.1 operand.2).diagnostics =
      draft.diagnostics.reportAll (value.warnings line) := by
    rw [hemits.diagnostics, Operand.diagnosticsAfter_of_some h]
    rfl
  obtain ⟨herrors, hwarnings⟩ :=
    Diagnostics.counts_reportAll draft.diagnostics (value.warnings line)
  obtain ⟨hnone, hone⟩ := value.countP_warnings line
  exact {
    meaning := by
      rw [hafter, Variables.toList_ofOperands, List.zipIdx_map_fst]
      exact Operand.value?_of_valueAfter? h
    output := by
      rw [hemits.output, List.flatMap_singleton, Value.raw_piece]
    labels := hemits.labels
    vars := by
      rw [hafter, hvars]
      exact Operand.toList_vars_concat h
    references := by rw [hemits.references, Operand.references_piece h]
    diagnostics := hdiagnostics
    errors := by rw [hdiagnostics, herrors, hnone, Nat.add_zero]
    warnings := by
      rw [hdiagnostics, hwarnings]
      omega }

end Draft

/-! ### One line -/

/-- Why a line adds nothing where labels are defined. -/
inductive Line.Refusal (commands : Command.Table) (labels : Labels) (line : Line) : Problem → Prop
  | repeatedLabel {name : String} {kept : Nat} (label : line.label? = some name)
      (defined : labels.offset? name = some kept) :
      Refusal commands labels line (.symbol (.duplicateLabel name kept))
  | unknownCommand {first : String} {rest : List String} (tokens : line.tokens = first :: rest)
      (label : Token.label? first = none) (directive : Token.isDirective first = false)
      (unknown : commands.get? first = none) :
      Refusal commands labels line (.unknownCommand first)
  | argumentCount {first : String} {rest : List String} {command : Command}
      (tokens : line.tokens = first :: rest) (label : Token.label? first = none)
      (directive : Token.isDirective first = false) (known : commands.get? first = some command)
      (count : rest.length ≠ command.parameters.length) :
      Refusal commands labels line (.argumentCount command.parameters.length rest.length)

namespace Draft

theorem refused_emitLine {commands : Command.Table} {draft : Draft} {line : Line}
    {problem : Problem} (h : line.Refusal commands draft.labels problem) :
    Refused draft line problem (draft.emitLine commands line) := by
  cases h with
  | @repeatedLabel name kept hlabel hdefined =>
    have hdefine : draft.define name draft.offset = (some (.duplicateLabel name kept), draft) := by
      rw [define, Labels.define, hdefined]
    rw [emitLine, (Statement.ofTokens_of_label? commands hlabel).1]
    simp only [emitStatement, hdefine]
    split <;> exact ⟨rfl, rfl, rfl, rfl, rfl, rfl⟩
  | @unknownCommand first rest htokens hlabel hdirective hunknown =>
    rw [emitLine, htokens, Statement.ofTokens, hlabel, hdirective, hunknown]
    exact ⟨rfl, rfl, rfl, rfl, rfl, rfl⟩
  | @argumentCount first rest command htokens hlabel hdirective hknown hcount =>
    rw [emitLine, htokens, Statement.ofTokens, hlabel, hdirective, hknown]
    simp only [Statement.ofCommand, if_neg hcount]
    exact ⟨rfl, rfl, rfl, rfl, rfl, rfl⟩

end Draft

/-! ### Commands -/

/-- What an operand on a line reports: an error if it has no value, else a warning at most. -/
inductive Operand.Reported (line : Line) : Option Value → List Diagnostic → Prop
  | value (value : Value) : Reported line (some value) (value.warnings line)
  | problem {problem : Problem} (severity : problem.kind.severity = .error) :
      Reported line none [problem.diagnostic line.number line.text]

namespace Operand

theorem reported_diagnosticsAfter (line : Line) (before : List Operand) (operand : Operand) :
    Reported line (valueAfter? before operand) (diagnosticsAfter line before operand) := by
  cases hvalue : valueAfter? before operand with
  | none =>
    obtain ⟨problem, hseverity, hreports⟩ := diagnosticsAfter_of_none hvalue line
    rw [hreports]
    exact .problem hseverity
  | some value =>
    rw [diagnosticsAfter_of_some hvalue]
    exact .value value

/-- There are as many errors as operands without a value. -/
theorem countP_error_of_reported {line : Line} {results : List (Option Value)}
    {reports : List (List Diagnostic)} (h : List.Forall₂ (Reported line) results reports) :
    reports.flatten.countP (·.severity = .error) = results.count none := by
  induction h with
  | nil => rfl
  | cons hone _ ih =>
    rw [List.flatten_cons, List.countP_append, ih, List.count_cons]
    cases hone with
    | value value => simp [value.countP_warnings]
    | @problem problem hseverity =>
      have hsingle : [problem.diagnostic line.number line.text].countP (·.severity = .error) = 1 :=
        List.countP_singleton.trans (if_pos (decide_eq_true hseverity))
      rw [hsingle, Nat.add_comm]
      rfl

end Operand

namespace Draft

/-- Drafts that the first pass comes by, with the operands that were attempted up to there. -/
inductive Reached (commands : Command.Table) : List Operand → Draft → Prop
  | start : Reached commands [] ∅
  | record {attempted : List Operand} {draft : Draft} (h : Reached commands attempted draft)
      (event : Event) : Reached commands attempted (draft.record event)
  | opcode {attempted : List Operand} {draft : Draft} (h : Reached commands attempted draft)
      (opcode : UInt8) : Reached commands attempted (draft.emit [opcode])
  | operand {attempted : List Operand} {draft : Draft} (h : Reached commands attempted draft)
      (line : Line) (operand : Operand) :
      Reached commands (attempted ++ [operand]) (draft.emitOperand line operand.1 operand.2)
  | line {attempted : List Operand} {draft : Draft} (h : Reached commands attempted draft)
      (line : Line) :
      Reached commands (attempted ++ line.operands commands) (draft.emitLine commands line)

/-- A command line was emitted after others: its opcode is in the output, and then the bytes of all
operands that have a value; every operand was attempted where those in front of it had been, and
each without a value has an error of its own. -/
structure EmitsCommand (commands : Command.Table) (attempted : List Operand) (draft : Draft)
    (line : Line) (command : Command) (operands : List Operand) (after : Draft) : Prop where
  labels : after.labels = draft.labels
  vars : after.vars = ofOperands (attempted ++ operands)
  output : after.output.toList = draft.output.toList ++ command.opcode ::
    (Operand.values attempted operands).flatMap (Value.bytes fun _ => none)
  reports : ∃ reports,
    List.Forall₂ (Operand.Reported line) (mapBefore valueAfter? attempted operands) reports ∧
      after.diagnostics = draft.diagnostics.reportAll reports.flatten
  errors : after.diagnostics.errors =
    draft.diagnostics.errors + (mapBefore valueAfter? attempted operands).count none
  attempts : ∀ front operand rest, operands = front ++ operand :: rest →
    ∃ middle, Reached commands (attempted ++ front) middle ∧
      after = (middle.emitOperand line operand.1 operand.2).emitOperands line rest

variable {commands : Command.Table} {attempted : List Operand} {draft : Draft}

theorem Reached.emitOperands (h : Reached commands attempted draft) (line : Line)
    (operands : List Operand) :
    Reached commands (attempted ++ operands) (draft.emitOperands line operands) := by
  induction operands generalizing attempted draft with
  | nil =>
    rw [List.append_nil]
    exact h
  | cons operand rest ih =>
    rw [List.append_cons]
    exact ih (h.operand line operand)

theorem Reached.emitLines (h : Reached commands attempted draft) (lines : List Line) :
    Reached commands (attempted ++ operandsOf commands lines)
      (emitLines commands draft lines).1 := by
  induction lines using List.reverseRecOn with
  | nil =>
    rw [operandsOf_nil, List.append_nil]
    exact h
  | append_singleton lines line ih =>
    rw [operandsOf_concat, ← List.append_assoc, EventScript.emitLines, List.foldl_append]
    exact ih.line line

theorem reached_firstPass (commands : Command.Table) (lines : List Line) :
    Reached commands (operandsOf commands lines) (firstPass commands lines) :=
  (Reached.start.record (.compiling lines.length)).emitLines lines

theorem vars_emitLine_of_none {line : Line} (h : line.command? commands = none) :
    (draft.emitLine commands line).vars = draft.vars := by
  cases hlabel : line.label? with
  | some name =>
    rw [emitLine, (Statement.ofTokens_of_label? commands hlabel).1]
    unfold emitStatement define
    dsimp only
    cases draft.labels.define name draft.offset <;> dsimp only <;> split <;> rfl
  | none =>
    rw [emitLine]
    rcases Statement.ofTokens_of_neither hlabel h with
      htokens | ⟨token, htokens⟩ | ⟨problem, htokens⟩
    · rw [htokens]
      rfl
    · rw [htokens]
      rfl
    · rw [htokens]
      rfl

/-- The variables of a draft are those that the attempted operands have declared. -/
theorem Reached.vars (h : Reached commands attempted draft) :
    draft.vars = ofOperands attempted := by
  induction h with
  | start => rfl
  | record _ event ih => exact ih
  | opcode _ opcode ih => exact ih
  | operand _ line operand ih => exact (emits_emitOperand ih line operand).2
  | line _ line ih =>
    cases hcommand : line.command? commands with
    | none =>
      rw [vars_emitLine_of_none hcommand, Line.operands_of_none hcommand, List.append_nil, ih]
    | some found =>
      obtain ⟨command, operands⟩ := found
      rw [Line.operands_of_command? hcommand]
      exact (emits_emitCommand ih hcommand).2

/-- A command line is emitted whatever becomes of its operands. -/
theorem Reached.emitsCommand (h : Reached commands attempted draft) {line : Line}
    {command : Command} {operands : List Operand}
    (hcommand : line.command? commands = some (command, operands)) :
    EmitsCommand commands attempted draft line command operands
      (draft.emitLine commands line) := by
  obtain ⟨hemits, hvars⟩ := emits_emitCommand h.vars hcommand
  have hreported : List.Forall₂ (Operand.Reported line)
      (mapBefore valueAfter? attempted operands)
      (mapBefore (diagnosticsAfter line) attempted operands) :=
    forall₂_mapBefore _ (Operand.reported_diagnosticsAfter line) attempted operands
  refine ⟨hemits.labels, hvars, ?_, ⟨_, hreported, hemits.diagnostics⟩, ?_, ?_⟩
  · rw [hemits.output, List.flatMap_cons, List.flatMap_map]
    simp only [Value.raw_piece]
    rfl
  · rw [hemits.diagnostics, (Diagnostics.counts_reportAll _ _).1,
      Operand.countP_error_of_reported hreported]
  · intro front operand rest hsplit
    have hstart := (h.record (.commandEmitted draft.offset command.mnemonic command.opcode)).opcode
      command.opcode
    refine ⟨_, hstart.emitOperands line front, ?_⟩
    rw [emitLine, (Statement.ofTokens_of_command? hcommand).1, hsplit]
    exact List.foldl_append

end Draft

/-- Lines and operands are all or nothing, wherever the first pass stands. An operand without a
value is one error and changes nothing; one with a value adds all that belongs to it and no error.
An unknown command, a wrong number of operands or a label defined again is one error and changes
nothing but the code offset of its line; any other command is emitted, each of its operands being
attempted and each that fails having its own error. -/
theorem emission_all_or_nothing {commands : Command.Table} {attempted : List Operand}
    {draft : Draft} (h : Draft.Reached commands attempted draft) (line : Line) :
    (∀ operand, valueAfter? attempted operand = none →
      ∃ problem : Problem, problem.kind = operand.failure ∧
        draft.Refused line problem (draft.emitOperand line operand.1 operand.2)) ∧
    (∀ operand value, valueAfter? attempted operand = some value →
      draft.Accepted line operand value (draft.emitOperand line operand.1 operand.2)) ∧
    emitLines commands draft [line] =
      (draft.emitLine commands line, #[line.placedAt draft.offset]) ∧
    (∀ problem, line.Refusal commands draft.labels problem →
      draft.Refused line problem (draft.emitLine commands line)) ∧
    (∀ command operands, line.command? commands = some (command, operands) →
      Draft.EmitsCommand commands attempted draft line command operands
        (draft.emitLine commands line)) := by
  refine ⟨?_, ?_, rfl, ?_, ?_⟩
  · intro operand hnone
    exact Draft.refused_emitOperand h.vars hnone line
  · intro operand value hvalue
    exact Draft.accepted_emitOperand h.vars hvalue line
  · intro problem hrefusal
    exact Draft.refused_emitLine hrefusal
  · intro command operands hcommand
    exact h.emitsCommand hcommand

/-- After two lines of the greeting, declaring its variable again is one error, and reading the
variable is accepted. -/
theorem emission_all_or_nothing_greeting :
    let attempted : List Operand := [(.declaration, "x")]
    let draft := firstPass greetingCommands (greeting.take 2)
    let line : Line := ⟨3, "say \"hi\" x", ["say", "\"hi\"", "x"], none⟩
    Draft.Reached greetingCommands attempted draft ∧
    (∃ problem : Problem, problem.kind = .duplicateVariable ∧
      draft.Refused line problem (draft.emitOperand line .declaration "x")) ∧
    draft.Accepted line (.number 1, "x") (.numberVariable 0)
      (draft.emitOperand line (.number 1) "x") := by
  intro attempted draft line
  have hreached : Draft.Reached greetingCommands attempted draft :=
    Draft.reached_firstPass greetingCommands (greeting.take 2)
  obtain ⟨hrefused, haccepted, -⟩ := emission_all_or_nothing hreached line
  refine ⟨hreached, ?_, ?_⟩
  · have hnone : valueAfter? attempted (.declaration, "x") = none := by decide +kernel
    obtain ⟨problem, hkind, hafter⟩ := hrefused _ hnone
    exact ⟨problem, hkind.trans (by decide +kernel), hafter⟩
  · exact haccepted (.number 1, "x") _ (by decide +kernel)

end EventScript
