import EventScript.Proofs.Contribution

/-!
The first pass. Emission only adds to a draft: pieces at the end of the output, references to the
slots among them, diagnostics after those reported before. What one line adds depends on the lines
before it and on nothing else, so after any number of lines the draft is known from them alone
(`Holds`): its tables are those of direct assembly, its output has the same pieces in the same
places, and only the slots are not written yet.
-/

namespace EventScript

open Variables (ofOperands)

/-! ### Adding to a draft -/

namespace Draft

/-- The draft `after` has these pieces and these diagnostics more than `draft`. -/
structure Emits (draft : Draft) (pieces : List Piece) (diagnostics : List Diagnostic)
    (after : Draft) : Prop where
  labels : after.labels = draft.labels
  output : after.output.toList = draft.output.toList ++ pieces.flatMap Piece.raw
  references :
    after.references.toList = draft.references.toList ++ Piece.references draft.offset pieces
  diagnostics : after.diagnostics = draft.diagnostics.reportAll diagnostics

theorem Emits.trans {draft next after : Draft} {pieces more : List Piece}
    {diagnostics later : List Diagnostic} (h : Emits draft pieces diagnostics next)
    (hnext : Emits next more later after) :
    Emits draft (pieces ++ more) (diagnostics ++ later) after where
  labels := hnext.labels.trans h.labels
  output := by rw [hnext.output, h.output, List.flatMap_append, List.append_assoc]
  references := by
    have hoffset : next.offset = draft.offset + (pieces.flatMap Piece.raw).length := by
      have hlength := congrArg List.length h.output
      rwa [List.length_append, Output.length_toList, Output.length_toList] at hlength
    rw [hnext.references, h.references, hoffset, Piece.references_append, List.append_assoc]
  diagnostics := by rw [hnext.diagnostics, h.diagnostics, Diagnostics.reportAll_append]

theorem emits_record (draft : Draft) (event : Event) : Emits draft [] [] (draft.record event) :=
  ⟨rfl, by simp [record], by simp [record, Piece.references], rfl⟩

theorem emits_report (draft : Draft) (diagnostic : Diagnostic) :
    Emits draft [] [diagnostic] (draft.report diagnostic) :=
  ⟨rfl, by simp [report], by simp [report, Piece.references], rfl⟩

theorem emits_emit (draft : Draft) (bytes : List UInt8) :
    Emits draft [.fixed bytes] [] (draft.emit bytes) :=
  ⟨rfl, by simp [emit, Piece.raw], by simp [emit, Piece.references], rfl⟩

theorem emits_adopt (draft : Draft) (name : String) (index : Nat) (vars : Variables) :
    Emits draft [] [] (draft.adopt name index vars) :=
  ⟨rfl, by simp [adopt, record], by simp [adopt, record, Piece.references], rfl⟩

theorem emits_refer (draft : Draft) (label : String) (line : Nat) (source : String) :
    Emits draft [.slot label line source] [] (draft.refer label line source) :=
  ⟨rfl, by simp [refer, Output.reserve, Piece.raw], by simp [refer, Piece.references], rfl⟩

end Draft

/-! ### One operand -/

namespace Operand

/-- What an operand on a line reports, looked up in a variable table. -/
def diagnostics (vars : Variables) (line : Line) (operand : Operand) : List Diagnostic :=
  match contribution vars operand.1 operand.2 with
  | .ok contribution =>
    contribution.cut?.toList.map fun cut =>
      (Problem.truncated cut).diagnostic line.number line.text
  | .error problem => [problem.diagnostic line.number line.text]

/-- What an operand on a line reports when it stands after others. -/
def diagnosticsAfter (line : Line) (before : List Operand) (operand : Operand) : List Diagnostic :=
  diagnostics (ofOperands before) line operand

end Operand

namespace Draft

/-- A contribution adds its piece and reports its cut. -/
theorem emits_contribute (draft : Draft) (line : Line) (contribution : Operand.Contribution) :
    Emits draft [contribution.piece line]
        (contribution.cut?.toList.map fun cut =>
          (Problem.truncated cut).diagnostic line.number line.text)
        (draft.contribute line contribution) ∧
      (draft.contribute line contribution).vars = contribution.varsAfter draft.vars := by
  cases contribution with
  | value encoding =>
    rw [contribute]
    cases hcut : encoding.truncation with
    | none =>
      rw [Operand.Contribution.cut?, hcut]
      exact ⟨emits_emit draft encoding.bytes, rfl⟩
    | some cut =>
      rw [Operand.Contribution.cut?, hcut]
      exact ⟨(emits_report draft _).trans (emits_emit _ encoding.bytes), rfl⟩
  | declaration name index vars =>
    exact ⟨(emits_adopt draft name index vars).trans (emits_emit _ (wordBytes index)), rfl⟩
  | slot label => exact ⟨emits_refer draft label line.number line.text, rfl⟩

/-- An operand adds the piece of its value, if it has one. -/
theorem emits_emitOperand {draft : Draft} {before : List Operand}
    (hvars : draft.vars = ofOperands before) (line : Line) (operand : Operand) :
    Emits draft ((Operand.valueAfter? before operand).toList.map (Operand.Value.piece line))
        (Operand.diagnosticsAfter line before operand)
        (draft.emitOperand line operand.1 operand.2) ∧
      (draft.emitOperand line operand.1 operand.2).vars = ofOperands (before ++ [operand]) := by
  have hfits := Operand.fits_contribution before operand
  rw [Variables.ofOperands_concat, Operand.diagnosticsAfter, Operand.diagnostics, emitOperand,
    hvars]
  generalize Operand.contribution (ofOperands before) operand.1 operand.2 = result at hfits ⊢
  generalize Operand.valueAfter? before operand = value at hfits ⊢
  cases hfits with
  | @value contribution value hcarries =>
    obtain ⟨hemits, hafter⟩ := emits_contribute draft line contribution
    rw [hvars, hcarries.vars] at hafter
    rw [hcarries.piece] at hemits
    have hrecord := emits_record (draft.contribute line contribution)
      (.operandEmitted operand.1 operand.2 contribution.bytes)
    have hboth := hemits.trans hrecord
    rw [List.append_nil, List.append_nil] at hboth
    exact ⟨hboth, hafter⟩
  | @problem problem hseverity hafter =>
    have hreport := emits_report draft (problem.diagnostic line.number line.text)
    have hboth := hreport.trans (emits_record _ (.operandEmitted operand.1 operand.2 []))
    rw [hafter, ← hvars]
    -- a token that would have to be a name leaves no event, which makes no difference here
    cases problem with
    | invalidName token role => exact ⟨hreport, rfl⟩
    | _ => exact ⟨hboth, rfl⟩

theorem emits_emitOperands (line : Line) (operands : List Operand) {draft : Draft}
    {before : List Operand} (hvars : draft.vars = ofOperands before) :
    Emits draft ((Operand.values before operands).map (Operand.Value.piece line))
        (mapBefore (Operand.diagnosticsAfter line) before operands).flatten
        (draft.emitOperands line operands) ∧
      (draft.emitOperands line operands).vars = ofOperands (before ++ operands) := by
  induction operands generalizing draft before with
  | nil =>
    refine ⟨⟨rfl, ?_, ?_, rfl⟩, by rw [List.append_nil]; exact hvars⟩
    · simp [emitOperands]
    · simp [emitOperands, Piece.references]
  | cons operand rest ih =>
    obtain ⟨hone, hnext⟩ := emits_emitOperand hvars line operand
    obtain ⟨hrest, hafter⟩ := ih hnext
    rw [List.append_assoc, List.singleton_append] at hafter
    refine ⟨?_, hafter⟩
    rw [Operand.values_cons, List.map_append, mapBefore, List.flatten_cons]
    exact hone.trans hrest

end Draft

/-! ### One line -/

section Lines
variable (commands : Command.Table)

/-- The pieces of a line that stands after others. -/
def linePieces (earlier : List Line) (line : Line) : List Piece :=
  match Direct.instruction? commands earlier line with
  | none => []
  | some instruction =>
    .fixed [instruction.opcode] :: instruction.values.map (Operand.Value.piece line)

/-- What a line that stands after others reports in the first pass. -/
def lineDiagnostics (earlier : List Line) (line : Line) : List Diagnostic :=
  match Statement.ofTokens commands line.tokens with
  | .error problem => [problem.diagnostic line.number line.text]
  | .ok (.label name _) =>
    match Direct.address? commands earlier name with
    | none => []
    | some kept => [(Problem.symbol (.duplicateLabel name kept)).diagnostic line.number line.text]
  | .ok (.command _ operands) =>
    (mapBefore (Operand.diagnosticsAfter line) (operandsOf commands earlier) operands).flatten
  | .ok _ => []

/-- The pieces of a program. -/
def piecesOf (lines : List Line) : List Piece := (mapBefore (linePieces commands) [] lines).flatten

/-- What a program reports in the first pass. -/
def diagnosticsOf (lines : List Line) : List Diagnostic :=
  (mapBefore (lineDiagnostics commands) [] lines).flatten

theorem piecesOf_concat (lines : List Line) (line : Line) :
    piecesOf commands (lines ++ [line]) =
      piecesOf commands lines ++ linePieces commands lines line := by
  rw [piecesOf, mapBefore_concat, List.flatten_append, List.flatten_singleton, piecesOf]

theorem diagnosticsOf_concat (lines : List Line) (line : Line) :
    diagnosticsOf commands (lines ++ [line]) =
      diagnosticsOf commands lines ++ lineDiagnostics commands lines line := by
  rw [diagnosticsOf, mapBefore_concat, List.flatten_append, List.flatten_singleton, diagnosticsOf]

theorem length_piecesOf (lines : List Line) :
    ((piecesOf commands lines).flatMap Piece.raw).length = Direct.size commands lines := by
  induction lines using List.reverseRecOn with
  | nil => rfl
  | append_singleton lines line ih =>
    rw [piecesOf_concat, List.flatMap_append, List.length_append, ih, Direct.size_concat]
    congr 1
    rw [linePieces]
    cases Direct.instruction? commands lines line with
    | none => rfl
    | some instruction =>
      simp only [List.flatMap_cons, List.length_append, List.length_flatMap, List.map_map,
        Function.comp_def, Operand.Value.length_raw_piece]
      rfl

/-- The pieces of a line with their slots filled in are the bytes of the line. -/
theorem filled_linePieces (address? : String → Option Nat) (earlier : List Line) (line : Line) :
    (linePieces commands earlier line).flatMap (Piece.filled address?) =
      Direct.lineBytes commands address? earlier line := by
  rw [linePieces, Direct.lineBytes]
  cases Direct.instruction? commands earlier line with
  | none => rfl
  | some instruction =>
    simp only [List.flatMap_cons, List.flatMap_map, Operand.Value.filled_piece]
    rfl

/-- Pieces with their slots filled in are the bytes of direct assembly. -/
theorem filled_piecesOf (address? : String → Option Nat) (lines : List Line) :
    (piecesOf commands lines).flatMap (Piece.filled address?) =
      (Direct.code commands lines).flatMap fun instruction =>
        (instruction.map (Direct.Instruction.bytes address?)).getD [] := by
  induction lines using List.reverseRecOn with
  | nil => rfl
  | append_singleton lines line ih =>
    rw [piecesOf_concat, Direct.code_concat, List.flatMap_append, List.flatMap_append, ih,
      List.flatMap_singleton, filled_linePieces]
    rfl

end Lines

/-! ### The whole first pass -/

namespace Draft

variable {commands : Command.Table} {lines : List Line} {draft : Draft}

/-- The draft is what the first pass makes of the lines. -/
structure Holds (commands : Command.Table) (lines : List Line) (draft : Draft) : Prop where
  labels : draft.labels.toList = Direct.labels commands lines
  vars : draft.vars = ofOperands (operandsOf commands lines)
  output : draft.output.toList = (piecesOf commands lines).flatMap Piece.raw
  references : draft.references.toList = Piece.references 0 (piecesOf commands lines)
  diagnostics : draft.diagnostics = (∅ : Diagnostics).reportAll (diagnosticsOf commands lines)

theorem Holds.offset (h : Holds commands lines draft) :
    draft.offset = Direct.size commands lines := by
  have hlength := congrArg List.length h.output
  rwa [Output.length_toList, length_piecesOf] at hlength

theorem Holds.offset? (h : Holds commands lines draft) (name : String) :
    draft.labels.offset? name = Direct.address? commands lines name := by
  rw [Labels.offset?_eq_lookup, h.labels, Direct.lookup_labels]

theorem Holds.record (h : Holds commands lines draft) (event : Event) :
    Holds commands lines (draft.record event) :=
  ⟨h.labels, h.vars, h.output, h.references, h.diagnostics⟩

/-- A line that defines no new label is done when its pieces, its diagnostics and its operands
are. -/
theorem Holds.of_emits {line : Line} {after : Draft} (h : Holds commands lines draft)
    (hlabel : ∀ name, line.label? = some name → name ∈ lines.filterMap Line.label?)
    (hemits : Emits draft (linePieces commands lines line) (lineDiagnostics commands lines line)
      after)
    (hvars : after.vars = ofOperands (operandsOf commands (lines ++ [line]))) :
    Holds commands (lines ++ [line]) after where
  labels := by
    rw [hemits.labels, h.labels, Direct.labels_concat_of_old hlabel]
  vars := hvars
  output := by rw [hemits.output, h.output, piecesOf_concat, List.flatMap_append]
  references := by
    rw [hemits.references, h.references, piecesOf_concat, Piece.references_append, length_piecesOf,
      h.offset, Nat.zero_add]
  diagnostics := by
    rw [hemits.diagnostics, h.diagnostics, diagnosticsOf_concat, Diagnostics.reportAll_append]

/-- A command adds its opcode and the pieces of its operands, whatever stands in front of it. -/
theorem emits_emitCommand {before : List Operand} (hvars : draft.vars = ofOperands before)
    {line : Line} {command : Command} {operands : List Operand}
    (hcommand : line.command? commands = some (command, operands)) :
    Emits draft (.fixed [command.opcode] ::
          (Operand.values before operands).map (Operand.Value.piece line))
        (mapBefore (Operand.diagnosticsAfter line) before operands).flatten
        (draft.emitLine commands line) ∧
      (draft.emitLine commands line).vars = ofOperands (before ++ operands) := by
  have hopcode := (emits_record draft
    (.commandEmitted draft.offset command.mnemonic command.opcode)).trans
      (emits_emit _ [command.opcode])
  have hstart : ((draft.record (.commandEmitted draft.offset command.mnemonic command.opcode)).emit
      [command.opcode]).vars = ofOperands before := hvars
  obtain ⟨hrest, hafter⟩ := emits_emitOperands line operands hstart
  rw [emitLine, (Statement.ofTokens_of_command? hcommand).1]
  exact ⟨hopcode.trans hrest, hafter⟩

theorem Holds.emitCommand (h : Holds commands lines draft) {line : Line} {command : Command}
    {operands : List Operand} (hcommand : line.command? commands = some (command, operands)) :
    Holds commands (lines ++ [line]) (draft.emitLine commands line) := by
  obtain ⟨htokens, hlabel⟩ := Statement.ofTokens_of_command? hcommand
  obtain ⟨hemits, hvars⟩ := emits_emitCommand h.vars hcommand
  have hpieces : linePieces commands lines line = .fixed [command.opcode] ::
      (Operand.values (operandsOf commands lines) operands).map (Operand.Value.piece line) := by
    rw [linePieces, Direct.instruction?, hcommand]
    rfl
  have hdiagnostics : lineDiagnostics commands lines line =
      (mapBefore (Operand.diagnosticsAfter line) (operandsOf commands lines) operands).flatten := by
    rw [lineDiagnostics, htokens]
  refine h.of_emits (by simp [hlabel]) ?_ ?_
  · rw [hpieces, hdiagnostics]
    exact hemits
  · rw [operandsOf_concat, Line.operands_of_command? hcommand]
    exact hvars

theorem linePieces_of_none {line : Line} (h : line.command? commands = none) :
    linePieces commands lines line = [] := by
  rw [linePieces, Direct.instruction?, h]
  rfl

/-- A label definition adds the label at the end of the output, if the label is new. -/
theorem Holds.emitLabel (h : Holds commands lines draft) {line : Line} {name : String}
    (hname : line.label? = some name) :
    Holds commands (lines ++ [line]) (draft.emitLine commands line) := by
  obtain ⟨htokens, hcommand⟩ := Statement.ofTokens_of_label? commands hname
  have hpieces : linePieces commands lines line = [] := linePieces_of_none hcommand
  have hoperands : operandsOf commands (lines ++ [line]) = operandsOf commands lines := by
    rw [operandsOf_concat, Line.operands_of_none hcommand, List.append_nil]
  -- what is said about further tokens on the line is an event and no more
  have hignored : ∀ (ignored : Nat) (after : Draft), Holds commands (lines ++ [line]) after →
      Holds commands (lines ++ [line])
        (if ignored = 0 then after
          else after.record (.tokensIgnored line.number ignored name)) := by
    intro ignored after hafter
    split
    · exact hafter
    · exact hafter.record _
  rw [emitLine, htokens]
  refine hignored _ _ ?_
  rw [define]
  cases hdefine : draft.labels.define name draft.offset with
  | error error =>
    obtain ⟨kept, hoffset, rfl⟩ := Labels.define_eq_error_iff.mp hdefine
    have hkept := (h.offset? name).symm.trans hoffset
    have hold : name ∈ lines.filterMap Line.label? := by
      by_contra hnew
      simp [Direct.address?_eq_none_iff.mpr hnew] at hkept
    refine h.of_emits (by simpa [hname] using hold) ?_ ?_
    · rw [hpieces, lineDiagnostics, htokens]
      simp only [hkept]
      exact emits_report draft _
    · rw [hoperands]
      exact h.vars
  | ok defined =>
    have hkept : Direct.address? commands lines name = none := by
      rw [← h.offset? name]
      exact Labels.offset?_of_define hdefine
    have hnew := Direct.address?_eq_none_iff.mp hkept
    exact {
      labels := by
        rw [Direct.labels_concat_of_new hname hnew, ← h.offset, ← h.labels]
        exact Labels.toList_of_define hdefine
      vars := by rw [hoperands]; exact h.vars
      output := by
        rw [piecesOf_concat, hpieces, List.append_nil]
        exact h.output
      references := by
        rw [piecesOf_concat, hpieces, List.append_nil]
        exact h.references
      diagnostics := by
        rw [diagnosticsOf_concat, lineDiagnostics, htokens]
        simp only [hkept, List.append_nil]
        exact h.diagnostics }

/-- Any other line adds nothing but its problem. -/
theorem Holds.emitOther (h : Holds commands lines draft) {line : Line}
    (hlabel : line.label? = none) (hcommand : line.command? commands = none) :
    Holds commands (lines ++ [line]) (draft.emitLine commands line) := by
  have hpieces : linePieces commands lines line = [] := linePieces_of_none hcommand
  have hvars : draft.vars = ofOperands (operandsOf commands (lines ++ [line])) := by
    rw [operandsOf_concat, Line.operands_of_none hcommand, List.append_nil]
    exact h.vars
  have hsilent : ∀ name, line.label? = some name → name ∈ lines.filterMap Line.label? := by
    simp [hlabel]
  rw [emitLine]
  rcases Statement.ofTokens_of_neither hlabel hcommand with
    htokens | ⟨token, htokens⟩ | ⟨problem, htokens⟩
  · refine h.of_emits hsilent ?_ ?_
    · rw [hpieces, lineDiagnostics, htokens]
      exact ⟨rfl, by simp [emitStatement], by simp [emitStatement, Piece.references], rfl⟩
    · rw [htokens]
      exact hvars
  · refine h.of_emits hsilent ?_ ?_
    · rw [hpieces, lineDiagnostics, htokens]
      exact emits_record draft _
    · rw [htokens]
      exact hvars
  · refine h.of_emits hsilent ?_ ?_
    · rw [hpieces, lineDiagnostics, htokens]
      exact emits_report draft _
    · rw [htokens]
      exact hvars

theorem Holds.emitLine (h : Holds commands lines draft) (line : Line) :
    Holds commands (lines ++ [line]) (draft.emitLine commands line) := by
  cases hlabel : line.label? with
  | some name => exact h.emitLabel hlabel
  | none =>
    cases hcommand : line.command? commands with
    | some found =>
      obtain ⟨command, operands⟩ := found
      exact h.emitCommand hcommand
    | none => exact h.emitOther hlabel hcommand

theorem holds_nil (event : Event) : Holds commands [] ((∅ : Draft).record event) :=
  ⟨rfl, rfl, rfl, rfl, rfl⟩

/-- After all lines the draft is known, and each line has the offset at which it starts. -/
theorem holds_emitLines (commands : Command.Table) (event : Event) (lines : List Line) :
    Holds commands lines (emitLines commands ((∅ : Draft).record event) lines).1 ∧
      (emitLines commands ((∅ : Draft).record event) lines).2.toList =
        Direct.placed commands lines := by
  induction lines using List.reverseRecOn with
  | nil => exact ⟨holds_nil event, rfl⟩
  | append_singleton lines line ih =>
    rw [emitLines] at ih ⊢
    rw [List.foldl_append, List.foldl_cons, List.foldl_nil]
    obtain ⟨hholds, hplaced⟩ := ih
    refine ⟨hholds.emitLine line, ?_⟩
    rw [Array.toList_push, hplaced, Direct.placed_concat, hholds.offset]

end Draft

end EventScript
