import EventScript.Command.Table
import EventScript.Proofs.Word

/-!
Bytecode as it is read. A reader takes what it needs from the front of the bytes and leaves the
rest; which bytes those are depends on the command table and on the bytes read so far, so nothing
marks where an instruction ends.

        instruction   opcode field field …
        number        0 value     1 word
        string        3 length bytes     2 word
        either        0 byte      1 word      3 length bytes
        others        word
-/

namespace EventScript.Bytecode

/-! ### Fields -/

/-- What a field of an instruction says. -/
inductive Field where
  | immediate (value : Nat)
  | text (bytes : List UInt8)
  | numberVariable (index : Nat)
  | stringVariable (index : Nat)
  | word (value : Nat)
  deriving DecidableEq, Repr

/-- So many bytes. -/
def take? (count : Nat) (bytes : List UInt8) : Option (List UInt8 × List UInt8) :=
  if count ≤ bytes.length then some (bytes.take count, bytes.drop count) else none

/-- A number of so many bytes, the low one first. -/
def number? (count : Nat) (bytes : List UInt8) : Option (Nat × List UInt8) :=
  (take? count bytes).map fun (digits, rest) => (ofLittleEndian digits, rest)

/-- A number of two bytes. -/
def word? (bytes : List UInt8) : Option (Nat × List UInt8) := number? 2 bytes

/-- A length and so many bytes. -/
def text? (bytes : List UInt8) : Option (List UInt8 × List UInt8) :=
  (word? bytes).bind fun (length, rest) => take? length rest

/-- A field that is encoded as a parameter says. -/
def field? : Parameter → List UInt8 → Option (Field × List UInt8)
  | .number width, 0 :: rest => (number? width rest).map (Prod.map .immediate id)
  | .number _, 1 :: rest => (word? rest).map (Prod.map .numberVariable id)
  | .string, 3 :: rest => (text? rest).map (Prod.map .text id)
  | .string, 2 :: rest => (word? rest).map (Prod.map .stringVariable id)
  | .either, 0 :: rest => (number? 1 rest).map (Prod.map .immediate id)
  | .either, 1 :: rest => (word? rest).map (Prod.map .numberVariable id)
  | .either, 3 :: rest => (text? rest).map (Prod.map .text id)
  | .label, bytes | .declaration, bytes | .variable, bytes =>
    (word? bytes).map (Prod.map .word id)
  | _, _ => none

/-- One field for each parameter. -/
def fields? : List Parameter → List UInt8 → Option (List Field × List UInt8)
  | [], bytes => some ([], bytes)
  | parameter :: parameters, bytes =>
    (field? parameter bytes).bind fun (field, rest) =>
      (fields? parameters rest).map (Prod.map (field :: ·) id)

/-! ### Instructions -/

/-- An opcode of the table and the fields of its command. -/
def instruction? (commands : Command.Table) :
    List UInt8 → Option ((Command × List Field) × List UInt8)
  | [] => none
  | opcode :: bytes =>
    (commands.toList.find? (·.opcode = opcode)).bind fun command =>
      (fields? command.parameters bytes).map (Prod.map (command, ·) id)

/-- An instruction and the code offset at which it starts. -/
structure Instruction where
  start : Nat
  command : Command
  fields : List Field
  deriving DecidableEq, Repr

/-! ### What readers leave -/

theorem length_le_of_take? {count : Nat} {bytes taken rest : List UInt8}
    (h : take? count bytes = some (taken, rest)) : rest.length ≤ bytes.length := by
  unfold take? at h
  split at h
  · obtain ⟨-, rfl⟩ := Prod.mk.inj (Option.some.inj h)
    rw [List.length_drop]
    omega
  · cases h

theorem length_le_of_number? {count value : Nat} {bytes rest : List UInt8}
    (h : number? count bytes = some (value, rest)) : rest.length ≤ bytes.length := by
  obtain ⟨⟨digits, left⟩, htake, hresult⟩ := Option.map_eq_some_iff.mp h
  obtain ⟨-, rfl⟩ := Prod.mk.inj hresult
  exact length_le_of_take? htake

theorem length_le_of_text? {bytes content rest : List UInt8}
    (h : text? bytes = some (content, rest)) : rest.length ≤ bytes.length := by
  obtain ⟨⟨length, left⟩, hword, htake⟩ := Option.bind_eq_some_iff.mp h
  exact Nat.le_trans (length_le_of_take? htake) (length_le_of_number? hword)

/-- A reader whose result is given another form leaves as much as before. -/
theorem length_le_of_map {α β : Type} {result : Option (α × List UInt8)} {make : α → β}
    {value : β} {bytes rest : List UInt8}
    (hread : ∀ value rest, result = some (value, rest) → rest.length ≤ bytes.length)
    (h : result.map (Prod.map make id) = some (value, rest)) : rest.length ≤ bytes.length := by
  obtain ⟨⟨inner, left⟩, hinner, hresult⟩ := Option.map_eq_some_iff.mp h
  obtain ⟨-, rfl⟩ := Prod.mk.inj hresult
  exact hread inner left hinner

theorem length_le_of_field? {parameter : Parameter} {bytes rest : List UInt8} {field : Field}
    (h : field? parameter bytes = some (field, rest)) : rest.length ≤ bytes.length := by
  have htagged : ∀ {tag : UInt8} {inner : List UInt8}, rest.length ≤ inner.length →
      rest.length ≤ (tag :: inner).length :=
    fun hle => Nat.le_succ_of_le hle
  unfold field? at h
  split at h
  · exact htagged (length_le_of_map (fun _ _ => length_le_of_number?) h)
  · exact htagged (length_le_of_map (fun _ _ => length_le_of_number?) h)
  · exact htagged (length_le_of_map (fun _ _ => length_le_of_text?) h)
  · exact htagged (length_le_of_map (fun _ _ => length_le_of_number?) h)
  · exact htagged (length_le_of_map (fun _ _ => length_le_of_number?) h)
  · exact htagged (length_le_of_map (fun _ _ => length_le_of_number?) h)
  · exact htagged (length_le_of_map (fun _ _ => length_le_of_text?) h)
  · exact length_le_of_map (fun _ _ => length_le_of_number?) h
  · exact length_le_of_map (fun _ _ => length_le_of_number?) h
  · exact length_le_of_map (fun _ _ => length_le_of_number?) h
  · cases h

theorem length_le_of_fields? {parameters : List Parameter} {bytes rest : List UInt8}
    {fields : List Field} (h : fields? parameters bytes = some (fields, rest)) :
    rest.length ≤ bytes.length := by
  induction parameters generalizing bytes fields rest with
  | nil =>
    obtain ⟨-, rfl⟩ := Prod.mk.inj (Option.some.inj h)
    exact Nat.le_refl _
  | cons parameter parameters ih =>
    obtain ⟨⟨field, left⟩, hfield, hfields⟩ := Option.bind_eq_some_iff.mp h
    exact Nat.le_trans (length_le_of_map (fun _ _ => ih) hfields) (length_le_of_field? hfield)

/-- Every instruction takes its opcode at least, so a program has an end. -/
theorem length_lt_of_instruction? {commands : Command.Table} {bytes rest : List UInt8}
    {instruction : Command × List Field}
    (h : instruction? commands bytes = some (instruction, rest)) : rest.length < bytes.length := by
  cases bytes with
  | nil => cases h
  | cons opcode bytes =>
    obtain ⟨command, -, hfields⟩ := Option.bind_eq_some_iff.mp h
    exact Nat.lt_succ_of_le (length_le_of_map (fun _ _ => length_le_of_fields?) hfields)

/-- The instructions from an offset to the end of the bytes, with none left over. -/
def program? (commands : Command.Table) (start : Nat) (bytes : List UInt8) :
    Option (List Instruction) :=
  if bytes = [] then some []
  else
    match _hread : instruction? commands bytes with
    | none => none
    | some ((command, fields), rest) =>
      (program? commands (start + (bytes.length - rest.length)) rest).map
        (⟨start, command, fields⟩ :: ·)
termination_by bytes.length
decreasing_by exact length_lt_of_instruction? _hread

end EventScript.Bytecode
