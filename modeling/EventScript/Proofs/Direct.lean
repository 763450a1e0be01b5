import Mathlib.Algebra.GroupWithZero.Nat
import EventScript.Proofs.Program

/-!
Direct assembly: what a program is assembled to, computed without any slot. The sizes of all lines
come first and with them where every line starts; then every label has its address; then each line
is written once, in its final form. Nothing here depends on the order in which labels are defined
and referred to.

The bytes of an operand depend on addresses, their number does not (`length_bytes`), so the sizes
are known before any address is.
-/

namespace EventScript

namespace Operand.Value

/-- The number of bytes of a value. -/
def size : Value → Nat
  | .immediate width _ => 1 + min width 4
  | .text content => 3 + min (utf8 content).length maxStringLength
  | .numberVariable _ | .stringVariable _ => 3
  | .variable _ | .label _ => 2

/-- The bytes of a value where labels have these addresses; a label without one counts as zero. -/
def bytes (address? : String → Option Nat) : Value → List UInt8
  | .immediate width value => immediateTag :: littleEndian (min width 4) value.toNat
  | .text content =>
    stringTag :: (wordBytes (min (utf8 content).length maxStringLength) ++
      (utf8 content).take maxStringLength)
  | .numberVariable index => numberVariableTag :: wordBytes index
  | .stringVariable index => stringVariableTag :: wordBytes index
  | .variable index => wordBytes index
  | .label name => wordBytes ((address? name).getD 0)

theorem length_bytes (address? : String → Option Nat) (value : Value) :
    (value.bytes address?).length = value.size := by
  cases value with
  | immediate width value => simp [bytes, size]; omega
  | text content => simp [bytes, size]; omega
  | numberVariable index => simp [bytes, size]
  | stringVariable index => simp [bytes, size]
  | «variable» index => simp [bytes, size]
  | label name => simp [bytes, size]

end Operand.Value

namespace Direct

open Operand (Value)

/-- What a line puts out: an opcode and the values of the operands that have one. -/
structure Instruction where
  opcode : UInt8
  values : List Value
  deriving DecidableEq, Repr

namespace Instruction

/-- The number of bytes of an instruction. -/
def size (instruction : Instruction) : Nat := 1 + (instruction.values.map Value.size).sum

/-- The bytes of an instruction where labels have these addresses. -/
def bytes (address? : String → Option Nat) (instruction : Instruction) : List UInt8 :=
  instruction.opcode :: instruction.values.flatMap (Value.bytes address?)

theorem length_bytes (address? : String → Option Nat) (instruction : Instruction) :
    (instruction.bytes address?).length = instruction.size := by
  rw [bytes, size, List.length_cons, List.length_flatMap, Nat.add_comm]
  simp only [Value.length_bytes]

end Instruction

variable (commands : Command.Table)

/-- The instruction on a line that stands after others. -/
def instruction? (earlier : List Line) (line : Line) : Option Instruction :=
  (line.command? commands).map fun (command, operands) =>
    ⟨command.opcode, Operand.values (operandsOf commands earlier) operands⟩

/-- The instruction on each line, if it has one. -/
def code (lines : List Line) : List (Option Instruction) :=
  mapBefore (instruction? commands) [] lines

/-- The bytes of a line that stands after others, where labels have these addresses. -/
def lineBytes (address? : String → Option Nat) (earlier : List Line) (line : Line) : List UInt8 :=
  ((instruction? commands earlier line).map (Instruction.bytes address?)).getD []

/-- The number of bytes of each line. -/
def sizes (lines : List Line) : List Nat :=
  (code commands lines).map fun instruction => (instruction.map Instruction.size).getD 0

/-- The number of bytes of all lines. -/
def size (lines : List Line) : Nat := (sizes commands lines).sum

/-- Where a line starts: after all lines before it. -/
def start (lines : List Line) (index : Nat) : Nat := ((sizes commands lines).take index).sum

/-- The address of a label: where the first line that defines it starts. -/
def address? (lines : List Line) (name : String) : Option Nat :=
  (lines.findIdx? fun line => line.label? = some name).map (start commands lines)

/-- The labels with their addresses, in the order of their first definitions. -/
def labels (lines : List Line) : List (String × Nat) :=
  (lines.filterMap Line.label?).eraseDups.filterMap fun name =>
    (address? commands lines name).map fun address => (name, address)

/-- The variables with their indices: the names that are declared, numbered from zero. -/
def vars (lines : List Line) : List (String × Nat) :=
  (Operand.declared (operandsOf commands lines)).zipIdx

/-- All bytes in their final form. -/
def bytes (lines : List Line) : List UInt8 :=
  (code commands lines).flatMap fun instruction =>
    (instruction.map (Instruction.bytes (address? commands lines))).getD []

/-- The lines with the offsets at which their code starts. -/
def placed (lines : List Line) : List Line :=
  lines.zipIdx.map fun (line, index) => line.placedAt (start commands lines index)

/-- All that a program is assembled to. -/
structure Result where
  bytes : List UInt8
  labels : List (String × Nat)
  vars : List (String × Nat)
  lines : List Line
  deriving DecidableEq, Repr

/-- Assemble a program directly. -/
def assemble (lines : List Line) : Result :=
  ⟨bytes commands lines, labels commands lines, vars commands lines, placed commands lines⟩

/-! ### One more line -/

variable {commands}

theorem code_concat (lines : List Line) (line : Line) :
    code commands (lines ++ [line]) = code commands lines ++ [instruction? commands lines line] :=
  mapBefore_concat ..

theorem code_append (lines more : List Line) :
    code commands (lines ++ more) =
      code commands lines ++ mapBefore (instruction? commands) lines more :=
  mapBefore_append ..

@[simp] theorem length_sizes (lines : List Line) :
    (sizes commands lines).length = lines.length := by
  rw [sizes, List.length_map, code, length_mapBefore]

theorem size_concat (lines : List Line) (line : Line) :
    size commands (lines ++ [line]) =
      size commands lines + ((instruction? commands lines line).map Instruction.size).getD 0 := by
  simp [size, sizes, code_concat]

theorem size_concat_lineBytes (address? : String → Option Nat) (lines : List Line) (line : Line) :
    size commands (lines ++ [line]) =
      size commands lines + (lineBytes commands address? lines line).length := by
  rw [size_concat, lineBytes]
  cases instruction? commands lines line with
  | none => rfl
  | some instruction => exact congrArg _ (instruction.length_bytes address?).symm

theorem length_bytes (commands : Command.Table) (lines : List Line) :
    (bytes commands lines).length = size commands lines := by
  rw [bytes, size, sizes, List.length_flatMap]
  congr 1
  refine List.map_congr_left fun instruction _ => ?_
  cases instruction with
  | none => rfl
  | some instruction => exact instruction.length_bytes _

theorem bytes_eq_flatten (commands : Command.Table) (lines : List Line) :
    bytes commands lines =
      (mapBefore (lineBytes commands (address? commands lines)) [] lines).flatten := by
  rw [bytes, code, List.flatMap_def, map_mapBefore]
  rfl

theorem length_flatten_lineBytes (commands : Command.Table) (address? : String → Option Nat)
    (lines : List Line) :
    (mapBefore (lineBytes commands address?) [] lines).flatten.length = size commands lines := by
  induction lines using List.reverseRecOn with
  | nil => rfl
  | append_singleton lines line ih =>
    rw [mapBefore_concat, List.flatten_append, List.length_append, ih, List.flatten_singleton,
      size_concat_lineBytes]

theorem start_append {lines : List Line} {index : Nat} (h : index ≤ lines.length)
    (more : List Line) : start commands (lines ++ more) index = start commands lines index := by
  rw [start, start, sizes, code_append, List.map_append, ← sizes, List.take_append_of_le_length]
  rwa [length_sizes]

theorem start_length (commands : Command.Table) (lines more : List Line) :
    start commands (lines ++ more) lines.length = size commands lines := by
  have hall : (sizes commands lines).take lines.length = sizes commands lines :=
    List.take_of_length_le (Nat.le_of_eq (length_sizes lines))
  rw [start_append (Nat.le_refl _), start, size, hall]

theorem placed_concat (lines : List Line) (line : Line) :
    placed commands (lines ++ [line]) =
      placed commands lines ++ [line.placedAt (size commands lines)] := by
  rw [placed, List.zipIdx_append, List.map_append, placed]
  congr 1
  · refine List.map_congr_left fun ⟨earlier, index⟩ hentry => ?_
    have hlt : index < lines.length := by simpa using List.snd_lt_of_mem_zipIdx hentry
    simp only [start_append (Nat.le_of_lt hlt)]
  · simp [start_length]

/-! ### Addresses -/

theorem address?_eq_none_iff {lines : List Line} {name : String} :
    address? commands lines name = none ↔ name ∉ lines.filterMap Line.label? := by
  simp [address?]

/-- The address of a label is the size of some of the lines, from the first one on. -/
theorem exists_size_of_address? {lines : List Line} {name : String} {address : Nat}
    (h : address? commands lines name = some address) :
    ∃ front back, lines = front ++ back ∧ address = size commands front := by
  obtain ⟨index, hindex, rfl⟩ := Option.map_eq_some_iff.mp h
  obtain ⟨hlt, -⟩ := List.findIdx?_eq_some_iff_getElem.mp hindex
  refine ⟨lines.take index, lines.drop index, (List.take_append_drop index lines).symm, ?_⟩
  have hstart := start_length commands (lines.take index) (lines.drop index)
  rwa [List.take_append_drop, List.length_take_of_le (Nat.le_of_lt hlt)] at hstart

theorem address?_of_mem_labels {lines : List Line} {name : String} {address : Nat}
    (h : (name, address) ∈ labels commands lines) :
    address? commands lines name = some address := by
  obtain ⟨other, -, hother⟩ := List.mem_filterMap.mp h
  obtain ⟨found, hfound, hpair⟩ := Option.map_eq_some_iff.mp hother
  obtain ⟨rfl, rfl⟩ := Prod.mk.inj hpair
  exact hfound

theorem address?_append {lines : List Line} {name : String} {address : Nat}
    (h : address? commands lines name = some address) (more : List Line) :
    address? commands (lines ++ more) name = some address := by
  unfold address? at h ⊢
  obtain ⟨index, hindex, rfl⟩ := Option.map_eq_some_iff.mp h
  obtain ⟨hlt, _⟩ := List.findIdx?_eq_some_iff_getElem.mp hindex
  have hstart := @start_append commands lines index (Nat.le_of_lt hlt) more
  rw [List.findIdx?_append, hindex, Option.some_or, Option.map_some, hstart]

/-- A label that one more line is the first to define has its address at the end. -/
theorem address?_concat_of_new {lines : List Line} {line : Line} {name : String}
    (hline : line.label? = some name) (hnew : address? commands lines name = none) :
    address? commands (lines ++ [line]) name = some (size commands lines) := by
  have hnone : lines.findIdx? (fun line => line.label? = some name) = none := by
    simpa [address?] using hnew
  rw [address?, List.findIdx?_append, hnone]
  simp [List.findIdx?_cons, hline, start_length]

/-- One more line leaves all labels alone but the one it defines. -/
theorem address?_concat_of_ne {lines : List Line} {line : Line} {name : String}
    (hline : line.label? ≠ some name) :
    address? commands (lines ++ [line]) name = address? commands lines name := by
  cases h : address? commands lines name with
  | some address => exact address?_append h _
  | none =>
    rw [address?_eq_none_iff] at h ⊢
    rw [List.filterMap_append, List.mem_append, not_or]
    refine ⟨h, ?_⟩
    simpa [List.mem_filterMap] using hline

/-- Looking up a label in the table gives its address. -/
theorem lookup_labels (lines : List Line) (name : String) :
    (labels commands lines).lookup name = address? commands lines name := by
  have hlookup : ∀ names : List String,
      (names.filterMap fun name =>
        (address? commands lines name).map fun address => (name, address)).lookup name =
      if name ∈ names then address? commands lines name else none := by
    intro names
    induction names with
    | nil => rfl
    | cons other rest ih =>
      rw [List.filterMap_cons]
      by_cases hname : name = other
      · subst hname
        cases haddress : address? commands lines name with
        | none => simp [ih, haddress]
        | some address => simp
      · have hbeq : (name == other) = false := by simpa using hname
        cases haddress : address? commands lines other with
        | none => simp [ih, hname]
        | some address => simp [List.lookup_cons, hbeq, ih, hname]
  rw [labels, hlookup]
  split
  · rfl
  · next hmem =>
    rw [List.mem_eraseDups] at hmem
    exact (address?_eq_none_iff.mpr hmem).symm

/-- The names in the label table have the addresses that they had before one more line, as long as
that line is not the first to define one of them. -/
theorem labels_concat_of_old {lines : List Line} {line : Line}
    (h : ∀ name, line.label? = some name → name ∈ lines.filterMap Line.label?) :
    labels commands (lines ++ [line]) = labels commands lines := by
  have hnames : ((lines ++ [line]).filterMap Line.label?).eraseDups =
      (lines.filterMap Line.label?).eraseDups := by
    rw [List.filterMap_append]
    cases hline : line.label? with
    | none => simp [hline]
    | some name =>
      have hsingle : [line].filterMap Line.label? = [name] := by simp [hline]
      rw [hsingle, eraseDups_concat, if_pos (h name hline)]
  rw [labels, hnames, labels]
  refine List.filterMap_congr fun name hname => ?_
  rw [List.mem_eraseDups] at hname
  cases haddress : address? commands lines name with
  | none => exact absurd hname (address?_eq_none_iff.mp haddress)
  | some address => rw [address?_append haddress]

/-- A line that is the first to define its label adds it to the table, at the end of the code. -/
theorem labels_concat_of_new {lines : List Line} {line : Line} {name : String}
    (hline : line.label? = some name) (hnew : name ∉ lines.filterMap Line.label?) :
    labels commands (lines ++ [line]) = labels commands lines ++ [(name, size commands lines)] := by
  have hnames : ((lines ++ [line]).filterMap Line.label?).eraseDups =
      (lines.filterMap Line.label?).eraseDups ++ [name] := by
    have hsingle : [line].filterMap Line.label? = [name] := by simp [hline]
    rw [List.filterMap_append, hsingle, eraseDups_concat, if_neg hnew]
  rw [labels, hnames, List.filterMap_append, labels]
  congr 1
  · refine List.filterMap_congr fun other hother => ?_
    have hne : line.label? ≠ some other := by
      rintro heq
      obtain rfl := Option.some.inj (hline.symm.trans heq)
      exact hnew (List.mem_eraseDups.mp hother)
    rw [address?_concat_of_ne hne]
  · simp [address?_concat_of_new hline (address?_eq_none_iff.mpr hnew)]

end Direct

end EventScript
