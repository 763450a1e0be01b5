import Mathlib.Data.List.Nodup
import EventScript.Proofs.Bytecode
import EventScript.Proofs.Reports

/-!
Reading a usable assembly back. Each reader takes exactly the bytes of what was written, whatever
follows them, so instructions are read back one after the other and the bytes end where the last one
ends. A label stands where one of them starts, or at the end.
-/

namespace EventScript

open Operand (Value)

namespace Bytecode

/-- What a value is read back as where labels have these addresses. -/
def Field.ofValue (address? : String → Option Nat) : Value → Field
  | .immediate width value => .immediate (value.toNat % 256 ^ width)
  | .text content => .text ((Operand.utf8 content).take Operand.maxStringLength)
  | .numberVariable index => .numberVariable (index % 0x10000)
  | .stringVariable index => .stringVariable (index % 0x10000)
  | .variable index => .word (index % 0x10000)
  | .label name => .word ((address? name).getD 0 % 0x10000)

/-! ### Readers -/

/-- A reader takes exactly these bytes, whatever follows them. -/
def Reads {α : Type} (read : List UInt8 → Option (α × List UInt8)) (bytes : List UInt8)
    (result : α) : Prop :=
  ∀ rest, read (bytes ++ rest) = some (result, rest)

theorem reads_take {count : Nat} {bytes : List UInt8} (h : bytes.length = count) :
    Reads (take? count) bytes bytes := by
  intro rest
  subst h
  rw [take?, if_pos (by simp), List.take_left, List.drop_left]

theorem reads_number (count n : Nat) :
    Reads (number? count) (littleEndian count n) (n % 256 ^ count) := by
  intro rest
  rw [number?, reads_take (length_littleEndian count n) rest, Option.map_some]
  exact congrArg (fun value => some (value, rest)) (ofLittleEndian_littleEndian count n)

theorem reads_word (n : Nat) : Reads word? (wordBytes n) (n % 0x10000) := reads_number 2 n

theorem reads_text {content : List UInt8} (h : content.length ≤ Operand.maxStringLength) :
    Reads text? (wordBytes content.length ++ content) content := by
  intro rest
  have hlength : content.length % 0x10000 = content.length :=
    Nat.mod_eq_of_lt (Nat.lt_succ_of_le h)
  rw [text?, List.append_assoc, reads_word, Option.bind_some, hlength]
  exact reads_take rfl rest

variable (address? : String → Option Nat)

/-- What a token denotes is read back by its parameter. -/
theorem reads_field {names : List String} {parameter : Parameter} {token : String} {value : Value}
    (hspec : ∃ spec, Parameter.ofSpec? spec = some parameter)
    (h : Operand.Denotes names parameter token value) :
    Reads (field? parameter) (value.bytes address?) (Field.ofValue address? value) := by
  intro rest
  have htext : ∀ content : String,
      text? (wordBytes (min (Operand.utf8 content).length Operand.maxStringLength) ++
        (Operand.utf8 content).take Operand.maxStringLength ++ rest) =
      some ((Operand.utf8 content).take Operand.maxStringLength, rest) := by
    intro content
    have hlength := List.length_take (i := Operand.maxStringLength) (l := Operand.utf8 content)
    rw [Nat.min_comm, ← hlength]
    exact reads_text (by rw [hlength]; exact Nat.min_le_left _ _) rest
  cases h with
  | number _ =>
    obtain ⟨spec, hspec⟩ := hspec
    have hwidth := Nat.min_eq_left (Parameter.width_of_ofSpec? hspec).2
    rw [Parameter.maxWidth] at hwidth
    rw [Value.bytes, Operand.immediateTag, List.cons_append, field?, hwidth, reads_number]
    rfl
  | eitherNumber _ =>
    rw [Value.bytes, Operand.immediateTag, List.cons_append, field?]
    exact congrArg _ (reads_number 1 _ rest)
  | string _ =>
    rw [Value.bytes, Operand.stringTag, List.cons_append, field?, htext]
    rfl
  | eitherString _ =>
    rw [Value.bytes, Operand.stringTag, List.cons_append, field?, htext]
    rfl
  | numberVariable _ =>
    rw [Value.bytes, Operand.numberVariableTag, List.cons_append, field?, reads_word]
    rfl
  | eitherVariable _ =>
    rw [Value.bytes, Operand.numberVariableTag, List.cons_append, field?, reads_word]
    rfl
  | stringVariable _ =>
    rw [Value.bytes, Operand.stringVariableTag, List.cons_append, field?, reads_word]
    rfl
  | label _ =>
    rw [Value.bytes, field?, reads_word]
    rfl
  | declaration _ =>
    rw [Value.bytes, field?, reads_word]
    rfl
  | «variable» _ =>
    rw [Value.bytes, field?, reads_word]
    rfl

theorem reads_fields {before operands : List Operand}
    (hspecs : ∀ operand ∈ operands, ∃ spec, Parameter.ofSpec? spec = some operand.1)
    (hvalued : Operand.Valued before operands) :
    Reads (fields? (operands.map (·.1)))
      ((Operand.values before operands).flatMap (Value.bytes address?))
      ((Operand.values before operands).map (Field.ofValue address?)) := by
  induction operands generalizing before with
  | nil =>
    intro rest
    rfl
  | cons operand operands ih =>
    intro rest
    obtain ⟨hhead, htail⟩ := Operand.valued_cons.mp hvalued
    obtain ⟨value, hvalue⟩ := Option.ne_none_iff_exists'.mp hhead
    have hone := reads_field address? (hspecs operand List.mem_cons_self)
      (Operand.denotes_of_value? (Operand.value?_of_valueAfter? hvalue))
    have hrest := ih (fun other hmem => hspecs other (List.mem_cons_of_mem _ hmem)) htail
    rw [Operand.values_cons, hvalue, Option.toList_some, List.singleton_append, List.flatMap_cons,
      List.append_assoc, List.map_cons, fields?, hone, Option.bind_some]
    dsimp only
    rw [hrest]
    rfl

/-! ### Instructions -/

theorem find?_opcode {commands : List Command} (hopcodes : (commands.map (·.opcode)).Nodup)
    {command : Command} (hmem : command ∈ commands) :
    commands.find? (·.opcode = command.opcode) = some command := by
  cases hfound : commands.find? (·.opcode = command.opcode) with
  | none => simpa using List.find?_eq_none.mp hfound command hmem
  | some found =>
    have hopcode : found.opcode = command.opcode := by simpa using List.find?_some hfound
    have hsame := List.inj_on_of_nodup_map hopcodes (List.mem_of_find?_eq_some hfound) hmem hopcode
    rw [hsame]

variable {commands : Command.Table}

/-- The instruction of a command line is read back as its command with a field for each operand. -/
theorem reads_instruction (hspecs : commands.FromSpecs)
    (hopcodes : (commands.toList.map (·.opcode)).Nodup) {line : Line} {command : Command}
    {before operands : List Operand} (hcommand : line.command? commands = some (command, operands))
    (hvalued : Operand.Valued before operands) :
    Reads (instruction? commands)
      (Direct.Instruction.bytes address? ⟨command.opcode, Operand.values before operands⟩)
      (command, (Operand.values before operands).map (Field.ofValue address?)) := by
  intro rest
  obtain ⟨hmem, hparameters⟩ := Line.parameters_of_command? hcommand
  have hoperands : ∀ operand ∈ operands, ∃ spec, Parameter.ofSpec? spec = some operand.1 := by
    intro operand hoperand
    refine hspecs command hmem operand.1 ?_
    rw [← hparameters]
    exact List.mem_map_of_mem hoperand
  have hfields := reads_fields address? hoperands hvalued
  rw [hparameters] at hfields
  rw [Direct.Instruction.bytes, List.cons_append, instruction?, find?_opcode hopcodes hmem,
    Option.bind_some, hfields]
  rfl

/-- A program that starts with an instruction is that instruction and the program after it. -/
theorem program?_append {bytes : List UInt8} {command : Command} {fields : List Field}
    (h : Reads (instruction? commands) bytes (command, fields)) (start : Nat) (rest : List UInt8) :
    program? commands start (bytes ++ rest) =
      (program? commands (start + bytes.length) rest).map (⟨start, command, fields⟩ :: ·) := by
  have hread := h rest
  have hne : bytes ++ rest ≠ [] := by
    intro hnil
    rw [hnil] at hread
    cases hread
  rw [program?, if_neg hne]
  split
  · next hnone => simp [hnone] at hread
  · next found more left hsome =>
    rw [hread] at hsome
    obtain ⟨⟨rfl, rfl⟩, rfl⟩ := by simpa using hsome
    rw [List.length_append, Nat.add_sub_cancel]

/-! ### Programs -/

variable (commands) in
/-- The instruction that a line is read back as, in view of the lines before it. -/
def Instruction.ofLine? (earlier : List Line) (line : Line) : Option Instruction :=
  (line.command? commands).map fun (command, operands) =>
    ⟨Direct.size commands earlier, command,
      (Operand.values (operandsOf commands earlier) operands).map (Field.ofValue address?)⟩

variable (commands) in
/-- The instructions that lines are read back as when they stand after others. -/
def ofLines (earlier lines : List Line) : List Instruction :=
  (mapBefore (Instruction.ofLine? address? commands) earlier lines).filterMap id

theorem ofLines_cons (earlier : List Line) (line : Line) (rest : List Line) :
    ofLines address? commands earlier (line :: rest) =
      (Instruction.ofLine? address? commands earlier line).toList ++
        ofLines address? commands (earlier ++ [line]) rest := by
  rw [ofLines, mapBefore, List.filterMap_cons, ofLines]
  cases Instruction.ofLine? address? commands earlier line <;> rfl

theorem mem_ofLines {lines : List Line} {instruction : Instruction} :
    instruction ∈ ofLines address? commands [] lines ↔
      ∃ earlier line later, lines = earlier ++ line :: later ∧
        Instruction.ofLine? address? commands earlier line = some instruction := by
  rw [ofLines, List.mem_filterMap]
  simp only [mem_mapBefore, id_eq, List.nil_append]
  constructor
  · rintro ⟨_, ⟨earlier, line, later, hlines, rfl⟩, hline⟩
    exact ⟨earlier, line, later, hlines, hline⟩
  · rintro ⟨earlier, line, later, hlines, hline⟩
    exact ⟨_, ⟨earlier, line, later, hlines, rfl⟩, hline⟩

/-- Lines whose operands all have values are read back one after the other. -/
theorem program?_lines (hspecs : commands.FromSpecs)
    (hopcodes : (commands.toList.map (·.opcode)).Nodup) (earlier later : List Line)
    (hvalued : Operand.Valued (operandsOf commands earlier) (operandsOf commands later)) :
    program? commands (Direct.size commands earlier)
        ((mapBefore (Direct.instruction? commands) earlier later).flatMap fun instruction =>
          (instruction.map (Direct.Instruction.bytes address?)).getD []) =
      some (ofLines address? commands earlier later) := by
  induction later generalizing earlier with
  | nil =>
    rw [program?]
    rfl
  | cons line rest ih =>
    rw [operandsOf_cons, Operand.valued_append, ← operandsOf_concat] at hvalued
    obtain ⟨hline, htail⟩ := hvalued
    have hrest := ih (earlier ++ [line]) htail
    rw [Direct.size_concat] at hrest
    rw [mapBefore, List.flatMap_cons, ofLines_cons, Instruction.ofLine?]
    rw [Direct.instruction?] at hrest ⊢
    cases hcommand : line.command? commands with
    | none =>
      rw [hcommand] at hrest
      exact hrest
    | some found =>
      obtain ⟨command, operands⟩ := found
      rw [hcommand] at hrest
      rw [Line.operands_of_command? hcommand] at hline
      have hread := reads_instruction address? hspecs hopcodes hcommand hline
      rw [Option.map_some, Option.map_some, Option.getD_some, program?_append hread,
        Direct.Instruction.length_bytes]
      rw [Option.map_some, Option.map_some, Option.getD_some] at hrest
      rw [hrest]
      rfl

/-- The fields are those of the source, read where all names of the program are declared. -/
theorem map_ofLines {lines : List Line} {names : List String}
    (hvalued : Operand.Valued [] (operandsOf commands lines))
    (hnames : names = Operand.declared (operandsOf commands lines)) :
    (ofLines address? commands [] lines).map
        (fun instruction => (instruction.command, instruction.fields.map some)) =
      (lines.filterMap (Line.command? commands)).map fun (command, operands) =>
        (command, operands.map fun operand =>
          (Operand.value? names operand).map (Field.ofValue address?)) := by
  have hline : ∀ front line,
      (Instruction.ofLine? address? commands front line).map
          (fun instruction => (instruction.command, instruction.fields.map some)) =
        (line.command? commands).map fun (command, operands) =>
          (command, ((Operand.values (operandsOf commands front) operands).map some).map
            (Option.map (Field.ofValue address?))) := by
    intro front line
    rw [Instruction.ofLine?]
    cases line.command? commands with
    | none => rfl
    | some found => simp [List.map_map, Function.comp_def]
  have hvalues := filterMap_values
    (fun command values => (command, values.map (Option.map (Field.ofValue address?))))
    [] lines hvalued hnames
  -- the start of an instruction is dropped on each line, so the lines need only their operands
  have hpush := congrArg (List.filterMap id)
    (map_mapBefore (Instruction.ofLine? address? commands) (Option.map fun instruction =>
      (instruction.command, instruction.fields.map some)) [] lines)
  rw [List.filterMap_map] at hpush
  simp only [hline] at hpush
  rw [ofLines, List.map_filterMap]
  refine (hpush.trans hvalues).trans ?_
  simp only [List.map_map]
  rfl

/-- Where some lines end, an instruction starts or the program ends. -/
theorem exists_start (front back : List Line) :
    Direct.size commands front = Direct.size commands (front ++ back) ∨
      ∃ instruction ∈ ofLines address? commands [] (front ++ back),
        instruction.start = Direct.size commands front := by
  induction back generalizing front with
  | nil => exact .inl (by rw [List.append_nil])
  | cons line rest ih =>
    cases hcommand : line.command? commands with
    | some found =>
      exact .inr ⟨_, (mem_ofLines address?).mpr ⟨front, line, rest, rfl,
        by rw [Instruction.ofLine?, hcommand, Option.map_some]⟩, rfl⟩
    | none =>
      -- a line without a command takes no room, so the next one starts at the same place
      have hsize : Direct.size commands (front ++ [line]) = Direct.size commands front := by
        rw [Direct.size_concat, Direct.instruction?, hcommand]
        rfl
      have hrest := ih (front ++ [line])
      rwa [hsize, ← List.append_cons] at hrest

end Bytecode

/-! ### Usable assemblies -/

/-- What an operand of the source is read back as, by the tables of the assembly. -/
def Assembly.field? (assembly : Assembly) (operand : Operand) : Option Bytecode.Field :=
  (assembly.value? operand).map (Bytecode.Field.ofValue assembly.labels.offset?)

/-- A usable assembly is read back to its end as the commands of the source, one instruction each
and in order, and every label stands at one of them or at the end. -/
theorem readBack_assemble (commands : Command.Table) (lines : List Line)
    (hspecs : commands.FromSpecs) (hopcodes : (commands.toList.map (·.opcode)).Nodup)
    (husable : (assemble commands lines).assembly.isUsable = true) :
    let assembly := (assemble commands lines).assembly
    ∃ instructions, Bytecode.program? commands 0 assembly.output.toList = some instructions ∧
      instructions.map (fun instruction => (instruction.command, instruction.fields.map some)) =
        (lines.filterMap (Line.command? commands)).map (fun (command, operands) =>
          (command, operands.map assembly.field?)) ∧
      ∀ name offset, (name, offset) ∈ assembly.labels.toList →
        offset = assembly.output.offset ∨
          ∃ instruction ∈ instructions, instruction.start = offset := by
  intro assembly
  have hdirect := isDirect_assemble commands lines
  have hvalued := valued_of_isUsable husable
  refine ⟨Bytecode.ofLines (Direct.address? commands lines) commands [] lines, ?_, ?_, ?_⟩
  · rw [hdirect.output]
    exact Bytecode.program?_lines _ hspecs hopcodes [] lines hvalued
  · rw [Bytecode.map_ofLines _ hvalued hdirect.names, ← hdirect.offset?]
    rfl
  · intro name offset hmem
    rw [hdirect.labels] at hmem
    obtain ⟨front, back, rfl, rfl⟩ :=
      Direct.exists_size_of_address? (Direct.address?_of_mem_labels hmem)
    rw [hdirect.offset]
    exact Bytecode.exists_start _ front back

/-- The small program is usable and is read back as its three commands. -/
theorem readBack_assemble_greeting :
    let assembly := (assemble greetingCommands greeting).assembly
    assembly.isUsable = true ∧
      ∃ instructions,
        Bytecode.program? greetingCommands 0 assembly.output.toList = some instructions ∧
        instructions.map (fun instruction => (instruction.command, instruction.fields.map some)) =
          (greeting.filterMap (Line.command? greetingCommands)).map (fun (command, operands) =>
            (command, operands.map assembly.field?)) ∧
        ∀ name offset, (name, offset) ∈ assembly.labels.toList →
          offset = assembly.output.offset ∨
            ∃ instruction ∈ instructions, instruction.start = offset := by
  have husable : (assemble greetingCommands greeting).assembly.isUsable = true := by
    decide +kernel
  have hopcodes : (greetingCommands.toList.map (·.opcode)).Nodup := by decide +kernel
  exact ⟨husable, readBack_assemble greetingCommands greeting fromSpecs_greetingCommands hopcodes
    husable⟩

end EventScript
