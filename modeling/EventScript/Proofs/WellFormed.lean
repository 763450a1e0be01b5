import EventScript.Proofs.Reports

/-!
Well-formed programs. The judgement reads the source and nothing else: labels may be used before
their definition and variables only after their declaration, so the one looks at the whole program
and the other at what stands in front. A program is well-formed exactly when its assembly is usable,
although the errors come from two passes and some from lines that are wrong themselves.
-/

namespace EventScript

/-! ### The judgement -/

namespace Operand

/-- A symbolic name that one of the operands declares. -/
def Declared (operands : List Operand) (token : String) : Prop :=
  Token.isName token = true ∧ (.declaration, token) ∈ operands

/-- An operand is in order where `labels` are defined somewhere and `before` stands in front. -/
def InOrder (labels : List String) (before : List Operand) : Operand → Prop
  | (.number _, token) => (Token.integer? token).isSome ∨ Declared before token
  | (.string, token) => (Token.string? token).isSome ∨ Declared before token
  | (.either, token) =>
    (Token.integer? token).isSome ∨ (Token.string? token).isSome ∨ Declared before token
  | (.label, token) => Token.isName token = true ∧ token ∈ labels
  | (.declaration, token) => Token.isName token = true ∧ ¬ Declared before token
  | (.variable, token) => Declared before token

end Operand

/-- A line that is neither empty nor a label nor a directive holds a command of the table, in
whatever case it is written, with as many arguments as the command has parameters. -/
def Line.InOrder (commands : Command.Table) (line : Line) : Prop :=
  ∀ first rest, line.tokens = first :: rest → Token.label? first = none →
    Token.isDirective first = false →
    ∃ command ∈ commands.toList, Command.key command.mnemonic = Command.key first ∧
      rest.length = command.parameters.length

/-- No label is defined twice, every line is in order and so is every operand. -/
structure WellFormed (commands : Command.Table) (lines : List Line) : Prop where
  labels_nodup : (lines.filterMap Line.label?).Nodup
  line_inOrder : ∀ line ∈ lines, line.InOrder commands
  operand_inOrder : ∀ before operand after, operandsOf commands lines = before ++ operand :: after →
    operand.InOrder (lines.filterMap Line.label?) before

/-! ### Operands in order -/

namespace Operand

variable {labels : List String} {before : List Operand} {operand : Operand}

theorem isSome_index?_iff {token : String} :
    (index? (declared before) token).isSome = true ↔ Declared before token := by
  rw [index?, Declared]
  by_cases hname : Token.isName token = true
  · rw [if_pos hname, List.isSome_idxOf?, mem_declared]
  · simp [hname]

/-- An operand is in order when it has a value and, where it names a label, the label is one of
those. -/
theorem inOrder_iff :
    operand.InOrder labels before ↔
      (∃ value, valueAfter? before operand = some value) ∧
        (operand.1 = .label → operand.2 ∈ labels) := by
  obtain ⟨parameter, token⟩ := operand
  rw [← Option.isSome_iff_exists]
  cases parameter with
  | number width =>
    rw [valueAfter?_of_ne (by simp), value?]
    simp [InOrder, isSome_index?_iff]
  | string =>
    rw [valueAfter?_of_ne (by simp), value?]
    simp [InOrder, isSome_index?_iff]
  | either =>
    rw [valueAfter?_of_ne (by simp), value?]
    simp [InOrder, isSome_index?_iff, or_assoc]
  | label =>
    rw [valueAfter?_of_ne (by simp), value?]
    by_cases hname : Token.isName token = true
    · simp [InOrder, hname]
    · simp [InOrder, hname]
  | declaration =>
    have hdeclared : token ∈ declared before ↔ Declared before token := mem_declared
    rw [valueAfter?_declaration, InOrder, ← hdeclared]
    split
    · next hnew => simp [hnew]
    · next hold => simp [hold]
  | «variable» =>
    rw [valueAfter?_of_ne (by simp), value?]
    simp [InOrder, isSome_index?_iff]

theorem eq_label_of_valueAfter? {token : String} {value : Value}
    (h : valueAfter? before (.label, token) = some value) : value = .label token := by
  cases denotes_of_value? (value?_of_valueAfter? h) with
  | label _ => rfl

theorem eq_of_valueAfter?_eq_label {name : String}
    (h : valueAfter? before operand = some (.label name)) : operand = (.label, name) := by
  obtain ⟨parameter, token⟩ := operand
  cases denotes_of_value? (value?_of_valueAfter? h) with
  | label _ => rfl

end Operand

/-! ### Lines in order -/

/-- A line is in order when its tokens say something. -/
theorem Line.inOrder_iff {commands : Command.Table} {line : Line} :
    line.InOrder commands ↔
      ∀ problem, Statement.ofTokens commands line.tokens ≠ .error problem := by
  unfold Line.InOrder
  cases line.tokens with
  | nil => simp [Statement.ofTokens]
  | cons first rest =>
    constructor
    · intro h problem
      rw [Statement.ofTokens]
      cases hlabel : Token.label? first with
      | some name => simp
      | none =>
        cases hdirective : Token.isDirective first with
        | true => simp
        | false =>
          obtain ⟨command, hmem, hkey, hcount⟩ := h first rest rfl hlabel hdirective
          rw [Command.Table.get?_eq_some_iff.mpr ⟨hmem, hkey⟩]
          simp [Statement.ofCommand, hcount]
    · rintro h _ _ ⟨rfl, rfl⟩ hlabel hdirective
      cases hknown : commands.get? first with
      | none =>
        exact absurd (by simp [Statement.ofTokens, hlabel, hdirective, hknown])
          (h (.unknownCommand first))
      | some command =>
        obtain ⟨hmem, hkey⟩ := Command.Table.get?_eq_some_iff.mp hknown
        refine ⟨command, hmem, hkey, ?_⟩
        by_contra hcount
        exact h (.argumentCount command.parameters.length rest.length)
          (by simp [Statement.ofTokens, hlabel, hdirective, hknown, Statement.ofCommand, hcount])

/-! ### Usable assemblies -/

variable {commands : Command.Table} {lines : List Line}

/-- Without an error in the first pass a line is in order and its label is new. -/
theorem inOrder_of_lineDiagnostics {earlier : List Line} {line : Line}
    (h : ∀ diagnostic ∈ lineDiagnostics commands earlier line, diagnostic.severity ≠ .error) :
    line.InOrder commands ∧
      ∀ name, line.label? = some name → name ∉ earlier.filterMap Line.label? := by
  refine ⟨Line.inOrder_iff.mpr fun problem hproblem => ?_, fun name hname hold => ?_⟩
  · rw [lineDiagnostics, hproblem] at h
    exact h _ (List.mem_singleton_self _) (Statement.severity_of_ofTokens hproblem)
  · obtain ⟨htokens, -⟩ := Statement.ofTokens_of_label? commands hname
    cases haddress : Direct.address? commands earlier name with
    | none => exact Direct.address?_eq_none_iff.mp haddress hold
    | some kept =>
      rw [lineDiagnostics, htokens] at h
      simp only [haddress] at h
      exact h _ (List.mem_singleton_self _) rfl

/-- A line of a well-formed program reports no error in the first pass. -/
theorem WellFormed.severity_ne_error (h : WellFormed commands lines) {earlier later : List Line}
    {line : Line} (hlines : lines = earlier ++ line :: later) {diagnostic : Diagnostic}
    (hmem : diagnostic ∈ lineDiagnostics commands earlier line) : diagnostic.severity ≠ .error := by
  cases hlabel : line.label? with
  | some name =>
    have hnew := nodup_filterMap_iff.mp h.labels_nodup earlier line later name hlines hlabel
    rw [lineDiagnostics, (Statement.ofTokens_of_label? commands hlabel).1] at hmem
    simp [Direct.address?_eq_none_iff.mpr hnew] at hmem
  | none =>
    cases hcommand : line.command? commands with
    | some found =>
      obtain ⟨command, operands⟩ := found
      obtain ⟨front, operand, rest, hsplit, hreport⟩ :=
        (mem_lineDiagnostics earlier hcommand).mp hmem
      subst hlines
      obtain ⟨after, hoperands⟩ :=
        exists_occursOn_iff.mp ⟨line, occursOn_of_command? earlier later hcommand hsplit⟩
      obtain ⟨⟨value, hvalue⟩, -⟩ :=
        Operand.inOrder_iff.mp (h.operand_inOrder _ operand after hoperands)
      intro hseverity
      have hnone := (Operand.exists_error_iff line).mp ⟨diagnostic, hreport, hseverity⟩
      simp [hvalue] at hnone
    | none =>
      have hline := Line.inOrder_iff.mp (h.line_inOrder line (by simp [hlines]))
      rw [lineDiagnostics] at hmem
      rcases Statement.ofTokens_of_neither hlabel hcommand with
        htokens | ⟨token, htokens⟩ | ⟨problem, htokens⟩
      · simp [htokens] at hmem
      · simp [htokens] at hmem
      · exact absurd htokens (hline problem)

/-- A usable assembly is that of a well-formed program. -/
theorem wellFormed_of_isUsable (husable : (assemble commands lines).assembly.isUsable = true) :
    WellFormed commands lines := by
  obtain ⟨hfirst, -⟩ := isUsable_iff.mp husable
  have hline : ∀ earlier line later, lines = earlier ++ line :: later → line.InOrder commands ∧
      ∀ name, line.label? = some name → name ∉ earlier.filterMap Line.label? :=
    fun earlier line later hlines => inOrder_of_lineDiagnostics fun diagnostic hmem =>
      hfirst diagnostic (mem_diagnosticsOf.mpr ⟨earlier, line, later, hlines, hmem⟩)
  refine ⟨nodup_filterMap_iff.mpr ?_, ?_, ?_⟩
  · intro earlier line later name hlines hname
    exact (hline earlier line later hlines).2 name hname
  · intro line hmem
    obtain ⟨earlier, later, hlines⟩ := List.append_of_mem hmem
    exact (hline earlier line later hlines).1
  · intro before operand after hoperands
    obtain ⟨line, hoccurs⟩ := exists_occursOn_iff.mpr ⟨after, hoperands⟩
    obtain ⟨value, hvalue⟩ := exists_valueAfter?_of_isUsable husable hoccurs
    refine Operand.inOrder_iff.mpr ⟨⟨value, hvalue⟩, fun hlabel => ?_⟩
    obtain ⟨parameter, token⟩ := operand
    obtain rfl : parameter = .label := hlabel
    have hslot := hvalue.trans (congrArg some (Operand.eq_label_of_valueAfter? hvalue))
    obtain ⟨address, haddress⟩ := exists_address?_of_isUsable husable hoccurs hslot
    by_contra hmissing
    rw [Direct.address?_eq_none_iff.mpr hmissing] at haddress
    cases haddress

/-- A well-formed program reports no error in either pass. -/
theorem WellFormed.isUsable (h : WellFormed commands lines) :
    (assemble commands lines).assembly.isUsable = true := by
  refine isUsable_iff.mpr ⟨?_, ?_⟩
  · intro diagnostic hmem
    obtain ⟨earlier, line, later, hlines, hreport⟩ := mem_diagnosticsOf.mp hmem
    exact h.severity_ne_error hlines hreport
  · intro diagnostic hmem hseverity
    obtain ⟨line, before, operand, name, hoccurs, hvalue, hreport⟩ := mem_slotDiagnostics.mp hmem
    obtain ⟨after, hoperands⟩ := exists_occursOn_iff.mp ⟨line, hoccurs⟩
    obtain rfl := Operand.eq_of_valueAfter?_eq_label hvalue
    have hdefined := (Operand.inOrder_iff.mp (h.operand_inOrder _ _ after hoperands)).2 rfl
    have hnone := (Piece.exists_error_iff _ _ _ _).mp ⟨diagnostic, hreport, hseverity⟩
    exact Direct.address?_eq_none_iff.mp hnone hdefined

/-- An assembly is usable exactly when the program is well-formed: labels are defined once and
variables declared once, lines hold commands with the right number of operands, and every operand is
a literal of its kind or a name that is known at its place. -/
theorem isUsable_iff_wellFormed (commands : Command.Table) (lines : List Line) :
    (assemble commands lines).assembly.isUsable = true ↔ WellFormed commands lines :=
  ⟨wellFormed_of_isUsable, WellFormed.isUsable⟩

end EventScript
