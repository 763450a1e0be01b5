import EventScript.Proofs.Readdressing
import EventScript.Proofs.Reports
import EventScript.Proofs.TokenClass

/-!
Programs with other names. Names matter only as far as two of them are the same or not, and labels
have nothing to do with variables: where the names of labels are changed in one way and those of
variables in another, each time different names to different names, a program is assembled to the
same bytes at the same offsets, with the same kinds of diagnostics on the same lines, and with the
same tables but for the names.
-/

namespace EventScript

/-! ### Renamings -/

/-- A change of symbolic names to symbolic names that keeps different ones different. -/
structure Renaming where
  onNames : String → String
  isName : ∀ name, Token.isName name = true → Token.isName (onNames name) = true
  injective : ∀ name other, Token.isName name = true → Token.isName other = true →
    onNames name = onNames other → name = other

namespace Renaming

variable (r : Renaming)

/-- A token under a renaming; one that is no symbolic name stays as it is. -/
def apply (token : String) : String :=
  if Token.isName token then r.onNames token else token

theorem apply_of_isName {token : String} (h : Token.isName token = true) :
    r.apply token = r.onNames token := if_pos h

theorem apply_of_not_isName {token : String} (h : Token.isName token ≠ true) :
    r.apply token = token := if_neg h

@[simp] theorem isName_apply (token : String) :
    Token.isName (r.apply token) = Token.isName token := by
  by_cases h : Token.isName token = true
  · rw [r.apply_of_isName h, r.isName token h, h]
  · rw [r.apply_of_not_isName h]

theorem apply_injective : Function.Injective r.apply := by
  intro token other h
  have hclass : Token.isName token = Token.isName other := by
    rw [← r.isName_apply token, h, r.isName_apply]
  by_cases htoken : Token.isName token = true
  · have hother := hclass.symm.trans htoken
    rw [r.apply_of_isName htoken, r.apply_of_isName hother] at h
    exact r.injective token other htoken hother h
  · have hother : Token.isName other ≠ true := hclass ▸ htoken
    rwa [r.apply_of_not_isName htoken, r.apply_of_not_isName hother] at h

/-- A renaming leaves integer literals alone and makes none. -/
@[simp] theorem integer?_apply (token : String) :
    Token.integer? (r.apply token) = Token.integer? token := by
  by_cases h : Token.isName token = true
  · rw [Token.integer?_of_isName h, Token.integer?_of_isName ((r.isName_apply token).trans h)]
  · rw [r.apply_of_not_isName h]

/-- A renaming leaves string literals alone and makes none. -/
@[simp] theorem string?_apply (token : String) :
    Token.string? (r.apply token) = Token.string? token := by
  by_cases h : Token.isName token = true
  · rw [Token.string?_of_isName h, Token.string?_of_isName ((r.isName_apply token).trans h)]
  · rw [r.apply_of_not_isName h]

/-- Every name with an underscore in front of it. -/
def underscored : Renaming where
  onNames name := "_" ++ name
  isName name h := by
    unfold Token.isName at h ⊢
    rw [String.toList_append]
    cases hchars : name.toList with
    | nil => simp [hchars, Token.isNameChars] at h
    | cons first rest =>
      rw [hchars, Token.isNameChars, Bool.and_eq_true] at h
      have hfirst := Token.continuesName_of_startsName h.1
      simpa [Token.isNameChars, Token.startsName, hfirst] using h.2
  injective name other _ _ h := by simpa using h

/-- Every name as it is. -/
def unchanged : Renaming := ⟨id, fun _ h => h, fun _ _ _ _ h => h⟩

end Renaming

/-! ### Operands -/

namespace Operand

variable (labels vars : Renaming)

/-- An operand under renamings of labels and of variables. -/
def rename : Operand → Operand
  | (.label, token) => (.label, labels.apply token)
  | (parameter, token) => (parameter, vars.apply token)

@[simp] theorem fst_rename (operand : Operand) : (operand.rename labels vars).1 = operand.1 := by
  obtain ⟨parameter, token⟩ := operand
  cases parameter <;> rfl

theorem rename_injective : Function.Injective (rename labels vars) := by
  rintro ⟨parameter, token⟩ ⟨other, token'⟩ h
  have hparameter : parameter = other := by
    have hfst := congrArg Prod.fst h
    rwa [fst_rename, fst_rename] at hfst
  subst hparameter
  have htoken := congrArg Prod.snd h
  have hsame : token = token' := by
    cases parameter with
    | label => exact labels.apply_injective htoken
    | _ => exact vars.apply_injective htoken
  rw [hsame]

/-- A value under a renaming of labels; variables are known by their indices. -/
def Value.rename : Value → Value
  | .label name => .label (labels.apply name)
  | value => value

@[simp] theorem Value.size_rename (value : Value) : (value.rename labels).size = value.size := by
  cases value <;> rfl

@[simp] theorem Value.cut?_rename (value : Value) : (value.rename labels).cut? = value.cut? := by
  cases value <;> rfl

/-- A renamed variable has its place among the renamed names. -/
theorem index?_apply (names : List String) (token : String) :
    index? (names.map vars.apply) (vars.apply token) = index? names token := by
  have hsame : ((· == vars.apply token) ∘ vars.apply) = (· == token) := by
    funext name
    simp [vars.apply_injective.eq_iff]
  rw [index?, index?, vars.isName_apply, List.idxOf?, List.findIdx?_map, hsame, List.idxOf?]

/-- A renamed operand stands for the renamed value. -/
theorem value?_rename (names : List String) (operand : Operand) :
    value? (names.map vars.apply) (operand.rename labels vars) =
      (value? names operand).map (Value.rename labels) := by
  obtain ⟨parameter, token⟩ := operand
  cases parameter with
  | label =>
    simp only [rename, value?, Renaming.isName_apply]
    split <;> rfl
  | number width =>
    simp only [rename, value?, Renaming.integer?_apply, index?_apply, Option.map_or, Option.map_map]
    rfl
  | string =>
    simp only [rename, value?, Renaming.string?_apply, index?_apply, Option.map_or, Option.map_map]
    rfl
  | either =>
    simp only [rename, value?, Renaming.integer?_apply, Renaming.string?_apply, index?_apply,
      Option.map_or, Option.map_map]
    rfl
  | declaration =>
    simp only [rename, value?, index?_apply, Option.map_map]
    rfl
  | «variable» =>
    simp only [rename, value?, index?_apply, Option.map_map]
    rfl

theorem declares?_rename (operand : Operand) :
    declares? (operand.rename labels vars) = (declares? operand).map vars.apply := by
  obtain ⟨parameter, token⟩ := operand
  cases parameter with
  | declaration =>
    simp only [rename, declares?, Renaming.isName_apply]
    split <;> rfl
  | _ => rfl

theorem declared_rename (operands : List Operand) :
    declared (operands.map (rename labels vars)) = (declared operands).map vars.apply := by
  have hnames : (operands.map (rename labels vars)).filterMap declares? =
      (operands.filterMap declares?).map vars.apply := by
    rw [List.filterMap_map, List.map_filterMap]
    exact List.filterMap_congr fun operand _ => declares?_rename labels vars operand
  rw [declared, hnames, eraseDups_map vars.apply_injective, declared]

theorem valueAfter?_rename (before : List Operand) (operand : Operand) :
    valueAfter? (before.map (rename labels vars)) (operand.rename labels vars) =
      (valueAfter? before operand).map (Value.rename labels) := by
  have hmem : operand.rename labels vars ∈ before.map (rename labels vars) ↔ operand ∈ before :=
    List.mem_map_of_injective (rename_injective labels vars)
  have hnames := declared_rename labels vars (before ++ [operand])
  rw [List.map_append, List.map_singleton] at hnames
  rw [valueAfter?, valueAfter?, fst_rename, hnames, value?_rename]
  by_cases h : operand.1 = .declaration ∧ operand ∈ before
  · rw [if_pos h, if_pos ⟨h.1, hmem.mpr h.2⟩, Option.map_none]
  · rw [if_neg h, if_neg fun hboth => h ⟨hboth.1, hmem.mp hboth.2⟩]

theorem values_rename (before operands : List Operand) :
    values (before.map (rename labels vars)) (operands.map (rename labels vars)) =
      (values before operands).map (Value.rename labels) := by
  rw [values, mapBefore_map]
  simp only [valueAfter?_rename]
  rw [← map_mapBefore, List.filterMap_map, values, List.map_filterMap]
  rfl

@[simp] theorem failure_rename (operand : Operand) :
    (operand.rename labels vars).failure = operand.failure := by
  obtain ⟨parameter, token⟩ := operand
  cases parameter <;> simp [rename, failure]

/-- A renamed operand reports the same, but for the words. -/
theorem marks_rename {line renamed : Line} (hnumber : renamed.number = line.number)
    (before : List Operand) (operand : Operand) :
    (diagnosticsAfter renamed (before.map (rename labels vars))
        (operand.rename labels vars)).map Diagnostic.mark =
      (diagnosticsAfter line before operand).map Diagnostic.mark := by
  rw [marks_diagnosticsAfter, marks_diagnosticsAfter, valueAfter?_rename, failure_rename, hnumber]
  cases valueAfter? before operand with
  | none => rfl
  | some value => simp only [Option.map_some, Value.cut?_rename]

end Operand

/-! ### Lines -/

section Lines
variable (commands : Command.Table) (labels vars : Renaming) (text : Line → String)

namespace Line

/-- The tokens of a line under renamings: the name of the label that it defines, or the names among
the operands of its command. -/
def renamedTokens (line : Line) : List String :=
  match line.tokens with
  | [] => []
  | first :: rest =>
    match Token.label? first, line.command? commands with
    | some name, _ => (labels.apply name ++ ":") :: rest
    | none, some (_, operands) =>
      first :: operands.map fun operand => (operand.rename labels vars).2
    | none, none => first :: rest

/-- A line under renamings; the text that it is shown with may be any. -/
def rename (line : Line) : Line :=
  { line with tokens := line.renamedTokens commands labels vars, text := text line }

example : (greeting.map (rename greetingCommands .underscored .unchanged Line.text)).map tokens =
    [["_top:"], ["var", "x"], ["say", "\"hi\"", "x"], ["jump", "_top"]] := by decide +kernel

variable {commands}

theorem renamedTokens_of_neither {line : Line} (hlabel : line.label? = none)
    (hcommand : line.command? commands = none) :
    line.renamedTokens commands labels vars = line.tokens := by
  unfold label? at hlabel
  unfold renamedTokens
  cases htokens : line.tokens with
  | nil => rfl
  | cons first rest =>
    have hfirst : Token.label? first = none := by simpa [htokens] using hlabel
    simp only [hfirst, hcommand]

variable (commands)

theorem label?_rename (line : Line) :
    (line.rename commands labels vars text).label? = line.label?.map labels.apply := by
  unfold label? rename renamedTokens
  cases htokens : line.tokens with
  | nil => rfl
  | cons first rest =>
    simp only [List.head?_cons, Option.bind_some]
    cases hfirst : Token.label? first with
    | some name =>
      have hname := (labels.isName_apply name).trans (Token.isName_of_label? hfirst)
      simp only [List.head?_cons, Option.bind_some, Option.map_some, Token.label?_colon hname]
    | none =>
      cases line.command? commands with
      | none => simp [hfirst]
      | some found => simp [hfirst]

/-- A renamed line holds the same command with the renamed operands. -/
theorem command?_rename (line : Line) :
    (line.rename commands labels vars text).command? commands =
      (line.command? commands).map fun (command, operands) =>
        (command, operands.map (Operand.rename labels vars)) := by
  have hrenamed := line.label?_rename commands labels vars text
  cases hcommand : line.command? commands with
  | some found =>
    obtain ⟨command, operands⟩ := found
    obtain ⟨first, rest, htokens, hlabel, hdirective, hknown, hparameters, -⟩ :=
      command?_eq_some_iff.mp hcommand
    refine command?_eq_some_iff.mpr ⟨first, _, ?_, hlabel, hdirective, hknown, ?_, rfl⟩
    · simp only [rename, renamedTokens, htokens, hlabel, hcommand, List.map_map]
      rfl
    · rw [List.map_map, ← hparameters]
      exact List.map_congr_left fun operand _ => Operand.fst_rename labels vars operand
  | none =>
    cases hlabel : line.label? with
    | some name =>
      rw [hlabel, Option.map_some] at hrenamed
      exact (Statement.ofTokens_of_label? commands hrenamed).2
    | none =>
      have htokens := renamedTokens_of_neither labels vars hlabel hcommand
      unfold command? at hcommand ⊢
      rw [rename, htokens, hcommand]
      rfl

theorem operands_rename (line : Line) :
    (line.rename commands labels vars text).operands commands =
      (line.operands commands).map (Operand.rename labels vars) := by
  rw [operands, command?_rename, operands]
  cases line.command? commands <;> rfl

end Line

theorem operandsOf_rename (lines : List Line) :
    operandsOf commands (lines.map (Line.rename commands labels vars text)) =
      (operandsOf commands lines).map (Operand.rename labels vars) := by
  rw [operandsOf, List.flatMap_map, operandsOf, List.map_flatMap]
  simp only [Line.operands_rename]

/-! ### Direct assembly -/

namespace Direct

/-- An instruction under a renaming of labels. -/
def Instruction.rename (instruction : Instruction) : Instruction :=
  { instruction with values := instruction.values.map (Operand.Value.rename labels) }

theorem Instruction.size_rename (instruction : Instruction) :
    (instruction.rename labels).size = instruction.size := by
  rw [size, rename, List.map_map, size]
  simp only [Function.comp_def, Operand.Value.size_rename]

theorem instruction?_rename (earlier : List Line) (line : Line) :
    instruction? commands (earlier.map (Line.rename commands labels vars text))
        (line.rename commands labels vars text) =
      (instruction? commands earlier line).map (Instruction.rename labels) := by
  rw [instruction?, Line.command?_rename, operandsOf_rename, instruction?, Option.map_map,
    Option.map_map]
  simp only [Function.comp_def, Operand.values_rename]
  rfl

theorem code_rename (lines : List Line) :
    code commands (lines.map (Line.rename commands labels vars text)) =
      (code commands lines).map (Option.map (Instruction.rename labels)) := by
  rw [code, mapBefore_nil_map]
  simp only [instruction?_rename]
  rw [code, map_mapBefore]

theorem sizes_rename (lines : List Line) :
    sizes commands (lines.map (Line.rename commands labels vars text)) = sizes commands lines := by
  rw [sizes, code_rename, List.map_map, sizes]
  refine List.map_congr_left fun instruction _ => ?_
  cases instruction with
  | none => rfl
  | some instruction => exact instruction.size_rename labels

theorem start_rename (lines : List Line) :
    start commands (lines.map (Line.rename commands labels vars text)) = start commands lines := by
  funext index
  rw [start, sizes_rename, start]

theorem address?_rename (lines : List Line) (name : String) :
    address? commands (lines.map (Line.rename commands labels vars text)) (labels.apply name) =
      address? commands lines name := by
  have hsame : ∀ line : Line,
      (line.rename commands labels vars text).label? = some (labels.apply name) ↔
        line.label? = some name := by
    intro line
    rw [Line.label?_rename, ← Option.map_some, (Option.map_injective labels.apply_injective).eq_iff]
  rw [address?, List.findIdx?_map, start_rename, address?]
  simp only [Function.comp_def, hsame]

theorem labels_rename (lines : List Line) :
    Direct.labels commands (lines.map (Line.rename commands labels vars text)) =
      (Direct.labels commands lines).map fun (name, offset) => (labels.apply name, offset) := by
  have hnames : (lines.map (Line.rename commands labels vars text)).filterMap Line.label? =
      (lines.filterMap Line.label?).map labels.apply := by
    rw [List.filterMap_map, List.map_filterMap]
    exact List.filterMap_congr fun line _ => line.label?_rename commands labels vars text
  rw [Direct.labels, hnames, eraseDups_map labels.apply_injective, List.filterMap_map,
    Direct.labels, List.map_filterMap]
  simp only [Function.comp_def, address?_rename, Option.map_map]

theorem vars_rename (lines : List Line) :
    Direct.vars commands (lines.map (Line.rename commands labels vars text)) =
      (Direct.vars commands lines).map fun (name, index) => (vars.apply name, index) := by
  rw [Direct.vars, operandsOf_rename, Operand.declared_rename, List.zipIdx_map, Direct.vars]
  rfl

/-- Values that are renamed along with the labels have the same bytes. -/
theorem bytes_rename (lines : List Line) :
    bytes commands (lines.map (Line.rename commands labels vars text)) = bytes commands lines := by
  have hvalue : ∀ value : Operand.Value,
      (value.rename labels).bytes
          (address? commands (lines.map (Line.rename commands labels vars text))) =
        value.bytes (address? commands lines) := by
    intro value
    cases value with
    | label name =>
      have haddress := address?_rename commands labels vars text lines name
      rw [Operand.Value.rename, Operand.Value.bytes, haddress, Operand.Value.bytes]
    | _ => rfl
  rw [bytes, code_rename, List.flatMap_map, bytes]
  congr 1
  funext instruction
  cases instruction with
  | none => rfl
  | some instruction =>
    simp only [Option.map_some, Option.getD_some, Instruction.bytes, Instruction.rename,
      List.flatMap_map, hvalue]

theorem codeOffsets_rename (lines : List Line) :
    (placed commands (lines.map (Line.rename commands labels vars text))).map Line.codeOffset =
      (placed commands lines).map Line.codeOffset := by
  rw [placed, List.zipIdx_map, start_rename, placed, List.map_map, List.map_map, List.map_map]
  rfl

end Direct

/-! ### Diagnostics -/

/-- Renamed lines report the same in the first pass, but for the words. -/
theorem marks_lineDiagnostics_rename (earlier : List Line) (line : Line) :
    (lineDiagnostics commands (earlier.map (Line.rename commands labels vars text))
        (line.rename commands labels vars text)).map Diagnostic.mark =
      (lineDiagnostics commands earlier line).map Diagnostic.mark := by
  have hlabel? := line.label?_rename commands labels vars text
  have hcommand? := line.command?_rename commands labels vars text
  have hoperands := @Operand.marks_rename labels vars line
    (line.rename commands labels vars text) rfl
  rw [lineDiagnostics, lineDiagnostics]
  cases hlabel : line.label? with
  | some name =>
    rw [hlabel, Option.map_some] at hlabel?
    rw [(Statement.ofTokens_of_label? commands hlabel?).1,
      (Statement.ofTokens_of_label? commands hlabel).1]
    simp only [Direct.address?_rename]
    cases Direct.address? commands earlier name <;> rfl
  | none =>
    cases hcommand : line.command? commands with
    | some found =>
      obtain ⟨command, operands⟩ := found
      rw [hcommand, Option.map_some] at hcommand?
      rw [(Statement.ofTokens_of_command? hcommand?).1,
        (Statement.ofTokens_of_command? hcommand).1, operandsOf_rename]
      simp only [mapBefore_map, List.map_flatten, map_mapBefore, hoperands]
    | none =>
      have htokens := Line.renamedTokens_of_neither labels vars hlabel hcommand
      rw [Line.rename, htokens]
      rcases Statement.ofTokens_of_neither hlabel hcommand with
        hempty | ⟨token, hdirective⟩ | ⟨problem, hproblem⟩
      · rw [hempty]
      · rw [hdirective]
      · rw [hproblem]
        rfl

theorem marks_diagnosticsOf_rename (lines : List Line) :
    (diagnosticsOf commands (lines.map (Line.rename commands labels vars text))).map
        Diagnostic.mark =
      (diagnosticsOf commands lines).map Diagnostic.mark := by
  rw [diagnosticsOf, mapBefore_nil_map, diagnosticsOf, List.map_flatten, List.map_flatten,
    map_mapBefore, map_mapBefore]
  simp only [marks_lineDiagnostics_rename]

/-- A renamed slot reports the same, but for the words, where its label has the same address. -/
theorem Operand.Value.marks_piece_rename {line renamed : Line}
    (hnumber : renamed.number = line.number) {address? other? : String → Option Nat}
    (haddress : ∀ name, other? (labels.apply name) = address? name) (value : Operand.Value) :
    (((value.rename labels).piece renamed).diagnostics other?).map Diagnostic.mark =
      ((value.piece line).diagnostics address?).map Diagnostic.mark := by
  cases value with
  | label name =>
    simp only [Operand.Value.rename, Operand.Value.piece, Piece.diagnostics, haddress]
    split
    · rw [List.map_singleton, List.map_singleton, Problem.mark_diagnostic, hnumber]
      rfl
    · split
      · rw [List.map_singleton, List.map_singleton, Problem.mark_diagnostic, hnumber]
        rfl
      · rfl
  | _ => rfl

theorem marks_linePieces_rename {address? other? : String → Option Nat}
    (haddress : ∀ name, other? (labels.apply name) = address? name) (earlier : List Line)
    (line : Line) :
    ((linePieces commands (earlier.map (Line.rename commands labels vars text))
        (line.rename commands labels vars text)).flatMap (Piece.diagnostics other?)).map
        Diagnostic.mark =
      ((linePieces commands earlier line).flatMap (Piece.diagnostics address?)).map
        Diagnostic.mark := by
  have hvalue := @Operand.Value.marks_piece_rename labels line
    (line.rename commands labels vars text) rfl address? other? haddress
  rw [linePieces, Direct.instruction?_rename, linePieces]
  cases Direct.instruction? commands earlier line with
  | none => rfl
  | some instruction =>
    simp only [Option.map_some, Direct.Instruction.rename, List.flatMap_cons, List.map_append,
      List.flatMap_map, List.map_flatMap, hvalue]
    rfl

/-- What the slots report is what they report line by line. -/
theorem marks_slotDiagnostics (lines : List Line) :
    (slotDiagnostics commands lines).map Diagnostic.mark =
      (mapBefore (fun earlier line => ((linePieces commands earlier line).flatMap
        (Piece.diagnostics (Direct.address? commands lines))).map Diagnostic.mark) []
        lines).flatten := by
  rw [slotDiagnostics, piecesOf, ← List.flatMap_id, List.flatMap_assoc, List.map_flatMap,
    List.flatMap_def, map_mapBefore]
  rfl

theorem marks_slotDiagnostics_rename (lines : List Line) :
    (slotDiagnostics commands (lines.map (Line.rename commands labels vars text))).map
        Diagnostic.mark =
      (slotDiagnostics commands lines).map Diagnostic.mark := by
  have hline := @marks_linePieces_rename commands labels vars text _ _
    (Direct.address?_rename commands labels vars text lines)
  rw [marks_slotDiagnostics, mapBefore_nil_map, marks_slotDiagnostics]
  simp only [hline]

/-! ### Assemblies -/

/-- Under other names a program is assembled to the same bytes at the same offsets; it reports the
same kinds of diagnostics on the same lines; and its labels and variables are the same under their
new names. Labels and variables may be renamed in different ways. -/
theorem assemble_rename (lines : List Line) :
    let before := assemble commands lines
    let after := assemble commands (lines.map (Line.rename commands labels vars text))
    after.assembly.output.toList = before.assembly.output.toList ∧
      after.lines.map Line.codeOffset = before.lines.map Line.codeOffset ∧
      after.assembly.diagnostics.toList.map Diagnostic.mark =
        before.assembly.diagnostics.toList.map Diagnostic.mark ∧
      after.assembly.labels.toList =
        before.assembly.labels.toList.map (fun (name, offset) => (labels.apply name, offset)) ∧
      after.assembly.vars.toList =
        before.assembly.vars.toList.map fun (name, index) => (vars.apply name, index) := by
  intro before after
  have hbefore := isDirect_assemble commands lines
  have hafter := isDirect_assemble commands (lines.map (Line.rename commands labels vars text))
  refine ⟨?_, ?_, ?_, ?_, ?_⟩
  · rw [hafter.output, hbefore.output, Direct.bytes_rename]
  · rw [hafter.lines, hbefore.lines, Direct.codeOffsets_rename]
  · rw [hafter.toList_diagnostics, hbefore.toList_diagnostics, List.map_append, List.map_append,
      marks_diagnosticsOf_rename, marks_slotDiagnostics_rename]
  · rw [hafter.labels, hbefore.labels, Direct.labels_rename]
  · rw [hafter.vars, hbefore.vars, Direct.vars_rename]

end Lines

end EventScript
