import EventScript.Proofs.BackPatching

/-!
Which diagnostics a program has. A diagnostic of the first pass belongs to a line, one of the second
pass to an operand that names a label; how grave it is depends on what the operand stands for and on
nothing else. An assembly is usable, or free of warnings, when none of them has that severity.
-/

namespace EventScript

open Operand (Value valueAfter? diagnosticsAfter)

variable {commands : Command.Table} {lines : List Line} {line : Line} {before : List Operand}
  {operand : Operand} {diagnostic : Diagnostic}

/-! ### Problems of operands -/

namespace Operand

/-- The kind of the problem of an operand that has no value. -/
def failure : Operand → Diagnostic.Kind
  | (.label, _) => .invalidName
  | (.declaration, token) => if Token.isName token then .duplicateVariable else .invalidName
  | (.variable, token) => if Token.isName token then .unknownVariable else .invalidName
  | _ => .unresolvedOperand

theorem failure_ne_undefinedLabel (operand : Operand) : operand.failure ≠ .undefinedLabel := by
  unfold failure
  repeat' split
  all_goals exact fun heq => by cases heq

/-- A token that has to be a name fails by not being one, or by what is done with the name. -/
theorem kind_of_named {token : String} {role : NameRole} {next : Except Problem Contribution}
    {kind : Diagnostic.Kind} {problem : Problem}
    (hnext : ∀ problem, next = .error problem → problem.kind = kind)
    (h : named token role next = .error problem) :
    problem.kind = if Token.isName token then kind else .invalidName := by
  unfold named at h
  split at h
  · next hname => rw [if_pos hname, hnext problem h]
  · next hname =>
    obtain rfl := Except.error.inj h
    rw [if_neg hname]
    rfl

theorem kind_of_declaration {table : Variables} {name : String} :
    ∀ problem, declaration table name = .error problem → problem.kind = .duplicateVariable := by
  intro problem h
  cases hget : table.indices.get? name with
  | none =>
    obtain ⟨declared, hdeclared⟩ := Variables.exists_declare_of_get?_eq_none hget
    rw [declaration, hdeclared] at h
    cases h
  | some kept =>
    rw [declaration, Variables.declare_of_get?_eq_some hget] at h
    obtain rfl := Except.error.inj h
    rfl

theorem kind_of_indexOf {table : Variables} {name : String} :
    ∀ problem, indexOf table name = .error problem → problem.kind = .unknownVariable := by
  intro problem h
  rw [indexOf, Variables.index?] at h
  cases hget : table.indices.get? name with
  | none =>
    simp only [hget] at h
    obtain rfl := Except.error.inj h
    rfl
  | some index => simp [hget] at h

theorem kind_of_ofEncoding {encoding : Except OperandError Encoding} {problem : Problem}
    (h : ofEncoding encoding = .error problem) : problem.kind = .unresolvedOperand := by
  cases encoding with
  | ok encoding => cases h
  | error error =>
    obtain rfl := Except.error.inj h
    rfl

/-- The problem of an operand says by its kind why the operand has no value. -/
theorem kind_of_contribution {table : Variables} {operand : Operand} {problem : Problem}
    (h : contribution table operand.1 operand.2 = .error problem) :
    problem.kind = operand.failure := by
  obtain ⟨parameter, token⟩ := operand
  cases parameter with
  | number width => exact kind_of_ofEncoding h
  | string => exact kind_of_ofEncoding h
  | either => exact kind_of_ofEncoding h
  | label => exact (kind_of_named (fun _ hslot => by cases hslot) h).trans (ite_self _)
  | declaration => exact kind_of_named kind_of_declaration h
  | «variable» => exact kind_of_named kind_of_indexOf h

end Operand

/-! ### One operand -/

/-- What a diagnostic says but for its words: its kind and the number of its line. -/
def Diagnostic.mark (diagnostic : Diagnostic) : Diagnostic.Kind × Nat :=
  (diagnostic.kind, diagnostic.line)

theorem Problem.mark_diagnostic (problem : Problem) (line : Nat) (source : String) :
    (problem.diagnostic line source).mark = (problem.kind, line) := rfl

theorem severity_truncated (cut : Truncation) (line : Nat) (source : String) :
    ((Problem.truncated cut).diagnostic line source).severity = .warning := rfl

namespace Operand

theorem diagnosticsAfter_of_some {value : Value} (h : valueAfter? before operand = some value)
    (line : Line) :
    diagnosticsAfter line before operand =
      value.cut?.toList.map fun cut =>
        (Problem.truncated cut).diagnostic line.number line.text := by
  have hfits := fits_contribution before operand
  rw [h] at hfits
  rw [diagnosticsAfter, diagnostics]
  generalize contribution (Variables.ofOperands before) operand.1 operand.2 = result at hfits ⊢
  cases hfits with
  | value hcarries => simp only [hcarries.cut]

/-- An operand that has no value is a problem, and a grave one. -/
theorem exists_problem_of_none (h : valueAfter? before operand = none) :
    ∃ problem : Problem,
      contribution (Variables.ofOperands before) operand.1 operand.2 = .error problem ∧
        problem.kind.severity = .error := by
  have hfits := fits_contribution before operand
  rw [h] at hfits
  generalize contribution (Variables.ofOperands before) operand.1 operand.2 = result at hfits ⊢
  cases hfits with
  | problem hseverity _ => exact ⟨_, rfl, hseverity⟩

theorem diagnosticsAfter_of_none (h : valueAfter? before operand = none) (line : Line) :
    ∃ problem : Problem, problem.kind.severity = .error ∧
      diagnosticsAfter line before operand = [problem.diagnostic line.number line.text] := by
  obtain ⟨problem, hproblem, hseverity⟩ := exists_problem_of_none h
  exact ⟨problem, hseverity, by rw [diagnosticsAfter, diagnostics, hproblem]⟩

/-- What an operand reports, but for the words, is known from its value, if it has one. -/
theorem marks_diagnosticsAfter (line : Line) (before : List Operand) (operand : Operand) :
    (diagnosticsAfter line before operand).map Diagnostic.mark =
      match valueAfter? before operand with
      | some value => value.cut?.toList.map fun _ => (.truncation, line.number)
      | none => [(operand.failure, line.number)] := by
  cases hvalue : valueAfter? before operand with
  | some value =>
    rw [diagnosticsAfter_of_some hvalue, List.map_map]
    rfl
  | none =>
    obtain ⟨problem, hproblem, -⟩ := exists_problem_of_none hvalue
    rw [diagnosticsAfter, diagnostics, hproblem, ← kind_of_contribution hproblem]
    rfl

/-- What an operand reports is that its value was cut, or why it has none. -/
theorem kind_of_mem_diagnosticsAfter (h : diagnostic ∈ diagnosticsAfter line before operand) :
    diagnostic.kind = .truncation ∨ diagnostic.kind = operand.failure := by
  have hmark := List.mem_map_of_mem (f := Diagnostic.mark) h
  rw [marks_diagnosticsAfter] at hmark
  split at hmark
  · obtain ⟨cut, -, hcut⟩ := List.mem_map.mp hmark
    exact .inl (Prod.mk.inj hcut).1.symm
  · exact .inr (Prod.mk.inj (List.mem_singleton.mp hmark)).1

theorem kind_ne_undefinedLabel_of_mem
    (h : diagnostic ∈ diagnosticsAfter line before operand) :
    diagnostic.kind ≠ .undefinedLabel := by
  rcases kind_of_mem_diagnosticsAfter h with hkind | hkind
  · rw [hkind]
    exact fun heq => by cases heq
  · rw [hkind]
    exact failure_ne_undefinedLabel operand

/-- The errors among the reports of an operand are those of an operand without a value. -/
theorem exists_error_iff (line : Line) :
    (∃ diagnostic ∈ diagnosticsAfter line before operand, diagnostic.severity = .error) ↔
      valueAfter? before operand = none := by
  constructor
  · rintro ⟨diagnostic, hmem, hseverity⟩
    cases hvalue : valueAfter? before operand with
    | none => rfl
    | some value =>
      rw [diagnosticsAfter_of_some hvalue, List.mem_map] at hmem
      obtain ⟨cut, -, rfl⟩ := hmem
      simp [severity_truncated] at hseverity
  · intro hvalue
    obtain ⟨problem, hseverity, hreports⟩ := diagnosticsAfter_of_none hvalue line
    rw [hreports]
    exact ⟨_, List.mem_singleton_self _, hseverity⟩

theorem mem_values {operands : List Operand} {value : Value} :
    value ∈ values before operands ↔
      ∃ front operand rest, operands = front ++ operand :: rest ∧
        valueAfter? (before ++ front) operand = some value := by
  rw [values, List.mem_filterMap]
  simp only [mem_mapBefore, id_eq]
  constructor
  · rintro ⟨_, ⟨front, operand, rest, hoperands, rfl⟩, hvalue⟩
    exact ⟨front, operand, rest, hoperands, hvalue⟩
  · rintro ⟨front, operand, rest, hoperands, hvalue⟩
    exact ⟨_, ⟨front, operand, rest, hoperands, rfl⟩, hvalue⟩

end Operand

/-! ### The first pass -/

/-- A diagnostic of the first pass is that of a line in view of the lines before it. -/
theorem mem_diagnosticsOf :
    diagnostic ∈ diagnosticsOf commands lines ↔
      ∃ earlier line later, lines = earlier ++ line :: later ∧
        diagnostic ∈ lineDiagnostics commands earlier line := by
  rw [diagnosticsOf, List.mem_flatten]
  simp only [mem_mapBefore, List.nil_append]
  constructor
  · rintro ⟨_, ⟨earlier, line, later, hlines, rfl⟩, hmem⟩
    exact ⟨earlier, line, later, hlines, hmem⟩
  · rintro ⟨earlier, line, later, hlines, hmem⟩
    exact ⟨_, ⟨earlier, line, later, hlines, rfl⟩, hmem⟩

theorem mem_lineDiagnostics {command : Command} {operands : List Operand} (earlier : List Line)
    (h : line.command? commands = some (command, operands)) :
    diagnostic ∈ lineDiagnostics commands earlier line ↔
      ∃ front operand rest, operands = front ++ operand :: rest ∧
        diagnostic ∈ diagnosticsAfter line (operandsOf commands earlier ++ front) operand := by
  rw [lineDiagnostics, (Statement.ofTokens_of_command? h).1]
  simp only [List.mem_flatten, mem_mapBefore]
  constructor
  · rintro ⟨_, ⟨front, operand, rest, hoperands, rfl⟩, hmem⟩
    exact ⟨front, operand, rest, hoperands, hmem⟩
  · rintro ⟨front, operand, rest, hoperands, hmem⟩
    exact ⟨_, ⟨front, operand, rest, hoperands, rfl⟩, hmem⟩

theorem Line.exists_command? (h : operand ∈ line.operands commands) :
    ∃ command, line.command? commands = some (command, line.operands commands) := by
  cases hcommand : line.command? commands with
  | none => simp [Line.operands_of_none hcommand] at h
  | some found =>
    obtain ⟨command, operands⟩ := found
    exact ⟨command, by rw [Line.operands_of_command? hcommand]⟩

/-- A line without a command reports a label defined again, or why it is no command. -/
theorem kind_of_mem_lineDiagnostics {earlier : List Line} (hcommand : line.command? commands = none)
    (h : diagnostic ∈ lineDiagnostics commands earlier line) :
    diagnostic.kind = .duplicateLabel ∨ diagnostic.kind = .unknownCommand ∨
      diagnostic.kind = .argumentCount := by
  rw [lineDiagnostics] at h
  cases hlabel : line.label? with
  | some name =>
    rw [(Statement.ofTokens_of_label? commands hlabel).1] at h
    dsimp only at h
    split at h
    · cases h
    · obtain rfl := List.mem_singleton.mp h
      exact .inl rfl
  | none =>
    rcases Statement.ofTokens_of_neither hlabel hcommand with
      htokens | ⟨token, htokens⟩ | ⟨problem, htokens⟩
    · rw [htokens] at h
      cases h
    · rw [htokens] at h
      cases h
    · rw [htokens] at h
      obtain rfl := List.mem_singleton.mp h
      exact .inr (Statement.kind_of_ofTokens htokens)

/-- The first pass looks no label up, so it never misses one. -/
theorem kind_ne_undefinedLabel (h : diagnostic ∈ diagnosticsOf commands lines) :
    diagnostic.kind ≠ .undefinedLabel := by
  obtain ⟨earlier, line, later, -, hmem⟩ := mem_diagnosticsOf.mp h
  cases hcommand : line.command? commands with
  | some found =>
    obtain ⟨front, operand, rest, -, hreport⟩ := (mem_lineDiagnostics earlier hcommand).mp hmem
    exact Operand.kind_ne_undefinedLabel_of_mem hreport
  | none =>
    intro heq
    rcases kind_of_mem_lineDiagnostics hcommand hmem with hkind | hkind | hkind
    · cases hkind.symm.trans heq
    · cases hkind.symm.trans heq
    · cases hkind.symm.trans heq

theorem mem_diagnosticsOf_of_occursOn (h : OccursOn commands lines line before operand)
    (hmem : diagnostic ∈ diagnosticsAfter line before operand) :
    diagnostic ∈ diagnosticsOf commands lines := by
  obtain ⟨earlier, later, front, rest, hlines, hoperands, rfl⟩ := h
  have hmem_line : operand ∈ line.operands commands := by
    rw [hoperands]
    exact List.mem_append_cons_self
  obtain ⟨command, hcommand⟩ := Line.exists_command? hmem_line
  refine mem_diagnosticsOf.mpr ⟨earlier, line, later, hlines, ?_⟩
  exact (mem_lineDiagnostics earlier hcommand).mpr ⟨front, operand, rest, hoperands, hmem⟩

/-! ### The second pass -/

/-- The slots are the pieces of the operands that stand for a label. -/
theorem mem_slotDiagnostics :
    diagnostic ∈ slotDiagnostics commands lines ↔
      ∃ line before operand name, OccursOn commands lines line before operand ∧
        valueAfter? before operand = some (.label name) ∧
        diagnostic ∈ Piece.diagnostics (Direct.address? commands lines)
          (.slot name line.number line.text) := by
  simp only [slotDiagnostics, piecesOf, List.mem_flatMap, List.mem_flatten, mem_mapBefore,
    List.nil_append]
  constructor
  · rintro ⟨piece, ⟨_, ⟨earlier, line, later, hlines, rfl⟩, hpiece⟩, hmem⟩
    unfold linePieces Direct.instruction? at hpiece
    cases hcommand : line.command? commands with
    | none => simp [hcommand] at hpiece
    | some found =>
      obtain ⟨command, operands⟩ := found
      rw [hcommand] at hpiece
      rcases List.mem_cons.mp hpiece with rfl | hrest
      · simp [Piece.diagnostics] at hmem
      · obtain ⟨value, hvalue, rfl⟩ := List.mem_map.mp hrest
        obtain ⟨front, operand, rest, hoperands, hafter⟩ := Operand.mem_values.mp hvalue
        have hsplit := (Line.operands_of_command? hcommand).trans hoperands
        -- only a label's piece is a slot
        cases value with
        | label name =>
          exact ⟨line, _, operand, name, ⟨earlier, later, front, rest, hlines, hsplit, rfl⟩,
            hafter, hmem⟩
        | _ => simp [Value.piece, Piece.diagnostics] at hmem
  · rintro ⟨line, _, operand, name, ⟨earlier, later, front, rest, hlines, hsplit, rfl⟩, hafter,
      hmem⟩
    have hmem_line : operand ∈ line.operands commands := by
      rw [hsplit]
      exact List.mem_append_cons_self
    obtain ⟨command, hcommand⟩ := Line.exists_command? hmem_line
    refine ⟨_, ⟨_, ⟨earlier, line, later, hlines, rfl⟩, ?_⟩, hmem⟩
    rw [linePieces, Direct.instruction?, hcommand]
    refine List.mem_cons_of_mem _ (List.mem_map.mpr ⟨.label name, ?_, rfl⟩)
    exact Operand.mem_values.mpr ⟨front, operand, rest, hsplit, hafter⟩

/-- A slot reports an error exactly when its label has no address. -/
theorem Piece.exists_error_iff (address? : String → Option Nat) (name : String) (number : Nat)
    (source : String) :
    (∃ diagnostic ∈ Piece.diagnostics address? (.slot name number source),
      diagnostic.severity = .error) ↔ address? name = none := by
  rw [Piece.diagnostics]
  cases address? name with
  | none => exact ⟨fun _ => rfl, fun _ => ⟨_, List.mem_singleton_self _, rfl⟩⟩
  | some address =>
    dsimp only
    refine ⟨?_, by simp⟩
    rintro ⟨diagnostic, hmem, hseverity⟩
    split at hmem
    · rw [List.mem_singleton] at hmem
      subst hmem
      cases hseverity
    · simp at hmem

/-! ### Both passes -/

/-- An assembly is usable when neither pass reports an error. -/
theorem isUsable_iff :
    (assemble commands lines).assembly.isUsable = true ↔
      (∀ diagnostic ∈ diagnosticsOf commands lines, diagnostic.severity ≠ .error) ∧
      (∀ diagnostic ∈ slotDiagnostics commands lines, diagnostic.severity ≠ .error) := by
  have hcount := (Diagnostics.counts_reportAll ∅
    (diagnosticsOf commands lines ++ slotDiagnostics commands lines)).1
  rw [← (isDirect_assemble commands lines).diagnostics] at hcount
  have hzero : (∅ : Diagnostics).errors = 0 := rfl
  rw [hzero, Nat.zero_add] at hcount
  rw [← List.forall_mem_append, Assembly.isUsable, Diagnostics.hasErrors, hcount]
  simp only [Bool.not_eq_true', decide_eq_false_iff_not, Nat.not_lt, Nat.le_zero_eq,
    List.countP_eq_zero, decide_eq_true_eq, ne_eq]

/-- An assembly is not usable when one of its diagnostics is an error. -/
theorem isUsable_eq_false_iff :
    (assemble commands lines).assembly.isUsable = false ↔
      ∃ diagnostic ∈ (assemble commands lines).assembly.diagnostics.toList,
        diagnostic.severity = .error := by
  rw [(isDirect_assemble commands lines).toList_diagnostics, ← Bool.not_eq_true, isUsable_iff,
    ← List.forall_mem_append]
  simp only [ne_eq, not_forall, not_not, exists_prop]

/-- An assembly has no warnings when neither pass reports one. -/
theorem warnings_eq_zero_iff :
    (assemble commands lines).assembly.diagnostics.warnings = 0 ↔
      (∀ diagnostic ∈ diagnosticsOf commands lines, diagnostic.severity ≠ .warning) ∧
      (∀ diagnostic ∈ slotDiagnostics commands lines, diagnostic.severity ≠ .warning) := by
  have hcount := (Diagnostics.counts_reportAll ∅
    (diagnosticsOf commands lines ++ slotDiagnostics commands lines)).2
  rw [← (isDirect_assemble commands lines).diagnostics] at hcount
  have hzero : (∅ : Diagnostics).warnings = 0 := rfl
  rw [← List.forall_mem_append, hcount, hzero, Nat.zero_add]
  simp only [List.countP_eq_zero, decide_eq_true_eq, ne_eq]

theorem exists_valueAfter?_of_isUsable
    (husable : (assemble commands lines).assembly.isUsable = true)
    (h : OccursOn commands lines line before operand) :
    ∃ value, valueAfter? before operand = some value := by
  rw [← Option.ne_none_iff_exists']
  intro hnone
  obtain ⟨diagnostic, hmem, hseverity⟩ := (Operand.exists_error_iff line).mpr hnone
  exact (isUsable_iff.mp husable).1 diagnostic (mem_diagnosticsOf_of_occursOn h hmem) hseverity

theorem valued_of_isUsable (husable : (assemble commands lines).assembly.isUsable = true) :
    Operand.Valued [] (operandsOf commands lines) := by
  refine Operand.valued_iff.mpr fun front operand rest hoperands => ?_
  obtain ⟨line, hoccurs⟩ := exists_occursOn_iff.mpr ⟨rest, hoperands⟩
  exact exists_valueAfter?_of_isUsable husable hoccurs

/-- What an operand stands for at its place it stands for in the whole assembly. -/
theorem Assembly.value?_of_valueAfter? {value : Value}
    (h : OccursOn commands lines line before operand)
    (hvalue : valueAfter? before operand = some value) :
    (assemble commands lines).assembly.value? operand = some value := by
  obtain ⟨after, hoperands⟩ := exists_occursOn_iff.mp ⟨line, h⟩
  obtain ⟨more, hmore⟩ := Operand.exists_declared_append (before ++ [operand]) after
  rw [Assembly.value?, (isDirect_assemble commands lines).names, hoperands, List.append_cons, hmore]
  exact Operand.value?_append (Operand.value?_of_valueAfter? hvalue) more

/-- In a usable assembly every label that an operand stands for has an address. -/
theorem exists_address?_of_isUsable {name : String}
    (husable : (assemble commands lines).assembly.isUsable = true)
    (h : OccursOn commands lines line before operand)
    (hvalue : valueAfter? before operand = some (.label name)) :
    ∃ address, Direct.address? commands lines name = some address := by
  rw [← Option.ne_none_iff_exists']
  intro hnone
  obtain ⟨diagnostic, hmem, hseverity⟩ :=
    (Piece.exists_error_iff _ name line.number line.text).mpr hnone
  exact (isUsable_iff.mp husable).2 diagnostic
    (mem_slotDiagnostics.mpr ⟨line, before, operand, name, h, hvalue, hmem⟩) hseverity

end EventScript
