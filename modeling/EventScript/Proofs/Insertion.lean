import EventScript.Proofs.Extension

/-!
One more line in between. A line that defines no label and declares no variable changes nothing for
the lines after it but where they start: its bytes are put in where it stands, the labels that are
first defined further down move by as many bytes, and so do the words that hold their addresses.

        before   a: 10 | JUMP b      b:           10 | 03 02 00 | …
        after    a: 10 | JUMP b | X  b:           10 | 03 05 00 | x x x | …
-/

namespace EventScript

/-! ### Declarations in front -/

namespace Operand

/-- The operands that are for declarations. -/
def declarations (operands : List Operand) : List Operand :=
  operands.filter (·.1 = .declaration)

@[simp] theorem declarations_append (operands more : List Operand) :
    declarations (operands ++ more) = declarations operands ++ declarations more :=
  List.filter_append ..

theorem declarations_eq_nil {operands : List Operand}
    (h : .declaration ∉ operands.map (·.1)) : declarations operands = [] := by
  refine List.filter_eq_nil_iff.mpr fun operand hmem hdeclaration => h ?_
  rw [decide_eq_true_eq] at hdeclaration
  exact List.mem_map.mpr ⟨operand, hmem, hdeclaration⟩

variable {before other : List Operand}

theorem declared_declarations (operands : List Operand) :
    declared (declarations operands) = declared operands := by
  rw [declared, declarations, List.filterMap_filter, declared]
  congr 1
  refine List.filterMap_congr fun operand _ => ?_
  by_cases h : operand.1 = .declaration
  · simp [h]
  · simp [h, declares?_of_ne h]

theorem mem_of_declarations_eq (h : declarations before = declarations other) {operand : Operand}
    (hdeclaration : operand.1 = .declaration) : operand ∈ before ↔ operand ∈ other := by
  have hmem : ∀ operands : List Operand, operand ∈ declarations operands ↔ operand ∈ operands := by
    intro operands
    rw [declarations, List.mem_filter, decide_eq_true_eq, and_iff_left hdeclaration]
  rw [← hmem before, h, hmem other]

/-- Of all operands in front only the declarations count. -/
theorem valueAfter?_of_declarations_eq (h : declarations before = declarations other)
    (operand : Operand) : valueAfter? before operand = valueAfter? other operand := by
  have hmore : declarations (before ++ [operand]) = declarations (other ++ [operand]) := by
    rw [declarations_append, declarations_append, h]
  have hnames : declared (before ++ [operand]) = declared (other ++ [operand]) := by
    rw [← declared_declarations, hmore, declared_declarations]
  have hiff : (operand.1 = .declaration ∧ operand ∈ before) ↔
      (operand.1 = .declaration ∧ operand ∈ other) :=
    and_congr_right fun hdeclaration => mem_of_declarations_eq h hdeclaration
  rw [valueAfter?, valueAfter?, hnames]
  exact if_congr hiff rfl rfl

theorem values_of_declarations_eq (h : declarations before = declarations other)
    (operands : List Operand) : values before operands = values other operands := by
  induction operands generalizing before other with
  | nil => rfl
  | cons operand rest ih =>
    have hmore : declarations (before ++ [operand]) = declarations (other ++ [operand]) := by
      rw [declarations_append, declarations_append, h]
    rw [values_cons, values_cons, valueAfter?_of_declarations_eq h, ih hmore]

end Operand

/-! ### Lines that name nothing -/

/-- A line neither defines a label nor holds a command that declares a variable. -/
structure Line.NamesNothing (commands : Command.Table) (line : Line) : Prop where
  label : line.label? = none
  declaration : ∀ command operands, line.command? commands = some (command, operands) →
    .declaration ∉ command.parameters

variable {commands : Command.Table} {line : Line}

namespace Line.NamesNothing

theorem filterMap_label? (h : line.NamesNothing commands) (earlier later : List Line) :
    (earlier ++ line :: later).filterMap Line.label? =
      (earlier ++ later).filterMap Line.label? := by
  rw [List.filterMap_append, List.filterMap_cons_none h.label, List.filterMap_append]

/-- The declarations of a program are the same without the line. -/
theorem declarations_operandsOf (h : line.NamesNothing commands) (earlier later : List Line) :
    Operand.declarations (operandsOf commands (earlier ++ line :: later)) =
      Operand.declarations (operandsOf commands (earlier ++ later)) := by
  have hnone : Operand.declarations (line.operands commands) = [] := by
    cases hcommand : line.command? commands with
    | none => rw [Line.operands_of_none hcommand]; rfl
    | some found =>
      obtain ⟨command, operands⟩ := found
      rw [Line.operands_of_command? hcommand]
      refine Operand.declarations_eq_nil ?_
      rw [(Line.parameters_of_command? hcommand).2]
      exact h.declaration command operands hcommand
  simp [operandsOf_append, operandsOf_cons, hnone]

theorem instruction? (h : line.NamesNothing commands) (earlier front : List Line) (later : Line) :
    Direct.instruction? commands (earlier ++ line :: front) later =
      Direct.instruction? commands (earlier ++ front) later := by
  simp only [Direct.instruction?,
    Operand.values_of_declarations_eq (h.declarations_operandsOf earlier front)]

/-- The pieces of the program are those without the line and, in between, those of the line. -/
theorem piecesOf (h : line.NamesNothing commands) (earlier later : List Line) :
    piecesOf commands (earlier ++ line :: later) =
      piecesOf commands earlier ++ (linePieces commands earlier line ++
        (mapBefore (linePieces commands) earlier later).flatten) := by
  have hsame : ∀ front other, linePieces commands (earlier ++ line :: front) other =
      linePieces commands (earlier ++ front) other := by
    intro front other
    rw [linePieces, h.instruction?, linePieces]
  have hlater := mapBefore_insert (linePieces commands) hsame [] later
  rw [List.append_nil] at hlater
  rw [piecesOf_append, mapBefore, List.flatten_cons, hlater]

end Line.NamesNothing

/-! ### Sizes -/

namespace Direct

theorem size_insert (h : line.NamesNothing commands) (address? : String → Option Nat)
    (earlier later : List Line) :
    size commands (earlier ++ line :: later) =
      size commands (earlier ++ later) + (lineBytes commands address? earlier line).length := by
  rw [← length_filled_piecesOf commands address?, ← length_filled_piecesOf commands address?,
    h.piecesOf, piecesOf_append, ← filled_linePieces]
  simp only [List.flatMap_append, List.length_append]
  omega

/-! ### Addresses -/

/-- A label has its address where the first line that defines it starts. -/
theorem address?_of_first {front back : List Line} {definition : Line} {name : String}
    (hname : definition.label? = some name) (hnew : name ∉ front.filterMap Line.label?) :
    address? commands (front ++ definition :: back) name = some (size commands front) := by
  have hfirst := @address?_concat_of_new commands front definition name hname
    (address?_eq_none_iff.mpr hnew)
  rw [List.append_cons]
  exact address?_append hfirst back

theorem exists_first {lines : List Line} {name : String}
    (h : name ∈ lines.filterMap Line.label?) :
    ∃ front definition back, lines = front ++ definition :: back ∧
      definition.label? = some name ∧ name ∉ front.filterMap Line.label? := by
  obtain ⟨line, hmem, hname⟩ := List.mem_filterMap.mp h
  cases hfound : lines.find? fun line => line.label? = some name with
  | none => simpa [hname] using List.find?_eq_none.mp hfound line hmem
  | some definition =>
    obtain ⟨hdefinition, front, back, hlines, hfront⟩ :=
      List.find?_eq_some_iff_append.mp hfound
    refine ⟨front, definition, back, hlines, by simpa using hdefinition, ?_⟩
    simpa [List.mem_filterMap] using hfront

/-- Of the labels of the program those move that no line in front of the new one defines. -/
theorem address?_insert (h : line.NamesNothing commands) (given? : String → Option Nat)
    (earlier later : List Line) (name : String) :
    address? commands (earlier ++ line :: later) name =
      if name ∈ earlier.filterMap Line.label? then address? commands (earlier ++ later) name
      else (address? commands (earlier ++ later) name).map
        (· + (lineBytes commands given? earlier line).length) := by
  by_cases hearlier : name ∈ earlier.filterMap Line.label?
  · obtain ⟨address, haddress⟩ : ∃ address, address? commands earlier name = some address := by
      rw [← Option.ne_none_iff_exists']
      exact fun hnone => address?_eq_none_iff.mp hnone hearlier
    rw [if_pos hearlier, address?_append haddress, address?_append haddress]
  · rw [if_neg hearlier]
    by_cases hlater : name ∈ later.filterMap Line.label?
    · obtain ⟨front, definition, back, rfl, hname, hfront⟩ := exists_first hlater
      have hnew : name ∉ (earlier ++ front).filterMap Line.label? := by
        rw [List.filterMap_append, List.mem_append, not_or]
        exact ⟨hearlier, hfront⟩
      have hbefore := @address?_of_first commands _ back _ _ hname hnew
      rw [← h.filterMap_label?] at hnew
      have hafter := @address?_of_first commands _ back _ _ hname hnew
      rw [List.append_assoc] at hbefore
      rw [List.append_assoc, List.cons_append] at hafter
      rw [hbefore, hafter, size_insert h given?, Option.map_some]
    · have hnone : name ∉ (earlier ++ later).filterMap Line.label? := by
        rw [List.filterMap_append, List.mem_append, not_or]
        exact ⟨hearlier, hlater⟩
      rw [address?_eq_none_iff.mpr hnone, Option.map_none, address?_eq_none_iff,
        h.filterMap_label?]
      exact hnone

/-- The label table has the same names; the offsets that move grow by the bytes of the line. -/
theorem labels_insert (h : line.NamesNothing commands) (given? : String → Option Nat)
    (earlier later : List Line) :
    labels commands (earlier ++ line :: later) =
      (labels commands (earlier ++ later)).map fun (name, offset) =>
        (name, if name ∈ earlier.filterMap Line.label? then offset
          else offset + (lineBytes commands given? earlier line).length) := by
  rw [labels, h.filterMap_label?, labels, List.map_filterMap]
  refine List.filterMap_congr fun name _ => ?_
  rw [address?_insert h given?]
  by_cases hearlier : name ∈ earlier.filterMap Line.label?
  · simp only [Option.map_map, Function.comp_def, if_pos hearlier]
  · simp only [Option.map_map, Function.comp_def, if_neg hearlier]

theorem vars_insert (h : line.NamesNothing commands) (earlier later : List Line) :
    vars commands (earlier ++ line :: later) = vars commands (earlier ++ later) := by
  rw [vars, ← Operand.declared_declarations, h.declarations_operandsOf,
    Operand.declared_declarations, vars]

end Direct

/-! ### Assemblies -/

/-- Where the code of the line at an index starts; behind the last line, where the output ends. -/
def Compilation.start (compilation : Compilation) (index : Nat) : Nat :=
  (compilation.lines[index]?.bind Line.codeOffset).getD compilation.assembly.output.offset

theorem Compilation.IsDirect.start {lines : List Line} {compilation : Compilation}
    (h : compilation.IsDirect commands lines) {index : Nat} (hindex : index ≤ lines.length) :
    compilation.start index = Direct.start commands lines index := by
  rw [Compilation.start, h.lines, h.offset, Direct.placed, List.getElem?_map, List.getElem?_zipIdx]
  rcases Nat.lt_or_eq_of_le hindex with hlt | rfl
  · simp [List.getElem?_eq_getElem hlt]
  · have hend := Direct.start_length commands lines []
    rw [List.append_nil] at hend
    simp [hend]

/-- The addresses of the labels that move when `count` bytes are put in behind some lines. -/
def Labels.moved? (labels : Labels) (earlier : List Line) (count : Nat) (name : String) :
    Option Nat :=
  if name ∈ earlier.filterMap Line.label? then none
  else (labels.offset? name).map (· + count)

/-- A line that neither defines a label nor declares a variable only adds its bytes where it stands.
The rest of the output is as it was without the line, but for the slots of the labels that are first
defined further down: these labels move by the number of bytes, and their slots hold the addresses
to which they have moved. -/
theorem assemble_insert (commands : Command.Table) (earlier later : List Line) {line : Line}
    (h : line.NamesNothing commands) :
    let before := assemble commands (earlier ++ later)
    let after := assemble commands (earlier ++ line :: later)
    let start := before.start earlier.length
    let bytes := Direct.lineBytes commands after.assembly.labels.offset? earlier line
    let rest := before.assembly.output.readdress
      (before.assembly.labels.moved? earlier bytes.length)
      (firstPass commands (earlier ++ later)).references.toList
    after.start earlier.length = start ∧
      after.start (earlier.length + 1) = start + bytes.length ∧
      after.assembly.output.toList = rest.toList.take start ++ bytes ++ rest.toList.drop start ∧
      after.assembly.vars.toList = before.assembly.vars.toList ∧
      after.assembly.labels.toList = before.assembly.labels.toList.map fun (name, offset) =>
        (name, if name ∈ earlier.filterMap Line.label? then offset
          else offset + bytes.length) := by
  intro before after start bytes rest
  have hbefore := isDirect_assemble commands (earlier ++ later)
  have hafter := isDirect_assemble commands (earlier ++ line :: later)
  have hstart : start = Direct.size commands earlier :=
    (hbefore.start (by simp)).trans (Direct.start_length commands earlier later)
  have haddress : (fun name => (before.assembly.labels.moved? earlier bytes.length name).or
      (Direct.address? commands (earlier ++ later) name)) =
        Direct.address? commands (earlier ++ line :: later) := by
    funext name
    rw [Labels.moved?, hbefore.offset?,
      Direct.address?_insert h after.assembly.labels.offset? earlier later name]
    split
    · exact Option.none_or
    · cases Direct.address? commands (earlier ++ later) name <;> rfl
  refine ⟨?_, ?_, ?_, ?_, ?_⟩
  · rw [hstart]
    exact (hafter.start (by simp)).trans (Direct.start_length commands earlier _)
  · have hnext := Direct.start_length commands (earlier ++ [line]) later
    rw [List.length_append, List.length_singleton, ← List.append_cons,
      Direct.size_concat_lineBytes after.assembly.labels.offset?] at hnext
    rw [hstart]
    exact (hafter.start (by simp)).trans hnext
  · have hrest : rest.toList = _ :=
      readdress_output (before.assembly.labels.moved? earlier bytes.length) commands
        (earlier ++ later)
    have hsize := length_filled_piecesOf commands
      (Direct.address? commands (earlier ++ line :: later)) earlier
    have houtput : after.assembly.output.toList = _ :=
      output_eq_filled commands (earlier ++ line :: later)
    rw [haddress, piecesOf_append, List.flatMap_append] at hrest
    rw [hrest, hstart, ← hsize, List.take_left, List.drop_left, houtput, h.piecesOf,
      List.flatMap_append, List.flatMap_append, filled_linePieces, ← hafter.offset?,
      List.append_assoc]
  · rw [hbefore.vars, hafter.vars, Direct.vars_insert h]
  · rw [hbefore.labels, hafter.labels, Direct.labels_insert h after.assembly.labels.offset?]

/-- A label and a jump to a label behind it. -/
def jumpAhead : List Line :=
  [⟨1, "top:", ["top:"], none⟩, ⟨2, "jump end", ["jump", "end"], none⟩]

/-- A jump, and the label at the end. -/
def jumpBack : List Line :=
  [⟨3, "jump top", ["jump", "top"], none⟩, ⟨4, "end:", ["end:"], none⟩]

/-- Once more the jump to the first label: its bytes are put in, and the label at the end moves with
the word of the jump to it. -/
theorem assemble_insert_jump :
    let line : Line := ⟨5, "jump top", ["jump", "top"], none⟩
    let before := assemble greetingCommands (jumpAhead ++ jumpBack)
    let after := assemble greetingCommands (jumpAhead ++ line :: jumpBack)
    line.NamesNothing greetingCommands ∧
      before.assembly.output.toList = [3, 6, 0, 3, 0, 0] ∧
      after.assembly.output.toList = [3, 9, 0, 3, 0, 0, 3, 0, 0] ∧
      before.assembly.labels.toList = [("top", 0), ("end", 6)] ∧
      after.assembly.labels.toList = [("top", 0), ("end", 9)] := by
  intro line before after
  have hcommand : line.command? greetingCommands =
      some (⟨"JUMP", 3, [.label]⟩, [(.label, "top")]) := by decide +kernel
  have hline : line.NamesNothing greetingCommands := by
    refine ⟨by decide, fun command operands hfound => ?_⟩
    obtain ⟨rfl, -⟩ := Prod.mk.inj (Option.some.inj (hcommand.symm.trans hfound))
    decide
  obtain ⟨-, -, houtput, -, hlabels⟩ := assemble_insert greetingCommands jumpAhead jumpBack hline
  exact ⟨hline, by decide +kernel, houtput.trans (by decide +kernel), by decide +kernel,
    hlabels.trans (by decide +kernel)⟩

end EventScript
