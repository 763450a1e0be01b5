import EventScript.Parameter
import EventScript.Registry

/-!
Command tables. A command has a mnemonic, an opcode and parameters; a table holds commands in the
order in which they were added and finds one by its mnemonic in either case. Mnemonics are
compared by their ASCII letters in upper case, so no table holds two that differ in case only.

A table is loaded from entries whose parameters are still specs. The first entry that does not fit
stops the loading: its first bad spec counts before an empty mnemonic, and that before a repeated
one.
-/

namespace EventScript

/-- A command: the opcode byte and how its operands are encoded. -/
structure Command where
  mnemonic : String
  opcode : UInt8
  parameters : List Parameter
  deriving DecidableEq, Repr

namespace Command

/-- A command as it is written down, its parameters as specs. -/
structure Entry where
  mnemonic : String
  opcode : UInt8
  specs : List String
  deriving DecidableEq, Repr

/-- Why there is no command table. -/
inductive TableError where
  | unreadable
  | emptyMnemonic
  | unknownParameter (mnemonic spec : String)
  | duplicate (mnemonic : String)
  deriving DecidableEq, Repr

/-- The wording of a table error. -/
def TableError.message : TableError → String
  | .unreadable => "Invalid command table: not a list of commands"
  | .emptyMnemonic => "Invalid command table: empty mnemonic"
  | .unknownParameter mnemonic spec =>
    s!"Unknown parameter kind '{spec}' in command '{mnemonic}'"
  | .duplicate mnemonic => s!"Command '{mnemonic}' is defined more than once"

/-- The parameters that specs stand for, or the first spec that stands for none. -/
def parameters? (mnemonic : String) : List String → Except TableError (List Parameter)
  | [] => .ok []
  | spec :: rest =>
    match Parameter.ofSpec? spec with
    | none => .error (.unknownParameter mnemonic spec)
    | some parameter =>
      match parameters? mnemonic rest with
      | .error e => .error e
      | .ok parameters => .ok (parameter :: parameters)

/-- The command that an entry describes. -/
def ofEntry (entry : Entry) : Except TableError Command :=
  match parameters? entry.mnemonic entry.specs with
  | .error e => .error e
  | .ok parameters => .ok ⟨entry.mnemonic, entry.opcode, parameters⟩

/-- What mnemonics are compared by. -/
def key (mnemonic : String) : String := String.ofList (mnemonic.toList.map Char.toUpper)

/-- Commands by mnemonic, in order of addition. -/
structure Table where
  byKey : Registry Command
  keyed : ∀ entry ∈ byKey.toList, entry.1 = key entry.2.mnemonic

namespace Table

/-- No commands. -/
def empty : Table := ⟨∅, by simp⟩

instance : EmptyCollection Table := ⟨empty⟩

/-- The command of a mnemonic, in whatever case it is written. -/
def get? (table : Table) (mnemonic : String) : Option Command := table.byKey.get? (key mnemonic)

/-- The table with one more command at the end, unless it knows the mnemonic. -/
def add (table : Table) (command : Command) : Table where
  byKey := table.byKey.add (key command.mnemonic) command
  keyed := fun entry hentry => by
    rcases Registry.mem_toList_add hentry with hold | rfl
    · exact table.keyed entry hold
    · rfl

/-- Add a command with a new mnemonic. -/
def insert (table : Table) (command : Command) : Except TableError Table :=
  if command.mnemonic.isEmpty then .error .emptyMnemonic
  else if (table.get? command.mnemonic).isSome then .error (.duplicate command.mnemonic)
  else .ok (table.add command)

/-- Add the command that an entry describes. -/
def insertEntry (table : Table) (entry : Entry) : Except TableError Table :=
  match ofEntry entry with
  | .error e => .error e
  | .ok command => table.insert command

/-- The number of commands. -/
def size (table : Table) : Nat := table.byKey.size

/-- There is no command. -/
def isEmpty (table : Table) : Bool := table.byKey.isEmpty

/-- All commands in order of addition. -/
def toList (table : Table) : List Command := table.byKey.toList.map (·.2)

/-- Add entries one after the other, up to the first that does not fit. -/
def insertAll (table : Table) : List Entry → Except TableError Table
  | [] => .ok table
  | entry :: rest =>
    match table.insertEntry entry with
    | .error e => .error e
    | .ok table => table.insertAll rest

/-- The table of the entries. -/
def load (entries : List Entry) : Except TableError Table := insertAll ∅ entries

/-- A mnemonic finds the command that has it, in whatever case either is written. -/
theorem get?_eq_some_iff {table : Table} {mnemonic : String} {command : Command} :
    table.get? mnemonic = some command ↔
      command ∈ table.toList ∧ key command.mnemonic = key mnemonic := by
  rw [get?, Registry.get?_eq_some_iff, toList, List.mem_map]
  constructor
  · intro h
    exact ⟨⟨_, h, rfl⟩, (table.keyed _ h).symm⟩
  · rintro ⟨⟨⟨name, found⟩, h, rfl⟩, hkey⟩
    have hname : name = key found.mnemonic := table.keyed _ h
    rwa [← hkey, ← hname]

/-! ### Specs -/

/-- All parameters in the table are ones that a spec stands for. -/
def FromSpecs (table : Table) : Prop :=
  ∀ command ∈ table.toList, ∀ parameter ∈ command.parameters,
    ∃ spec, Parameter.ofSpec? spec = some parameter

end Table

theorem exists_spec_of_parameters? {mnemonic : String} {specs : List String}
    {parameters : List Parameter} (h : parameters? mnemonic specs = .ok parameters) :
    ∀ parameter ∈ parameters, ∃ spec, Parameter.ofSpec? spec = some parameter := by
  induction specs generalizing parameters with
  | nil =>
    obtain rfl := Except.ok.inj h
    simp
  | cons spec rest ih =>
    rw [parameters?] at h
    cases hspec : Parameter.ofSpec? spec with
    | none => simp [hspec] at h
    | some first =>
      cases hrest : parameters? mnemonic rest with
      | error e => simp [hspec, hrest] at h
      | ok others =>
        simp only [hspec, hrest] at h
        obtain rfl := Except.ok.inj h
        intro parameter hmem
        rcases List.mem_cons.mp hmem with rfl | hmem
        · exact ⟨spec, hspec⟩
        · exact ih hrest parameter hmem

namespace Table

theorem fromSpecs_empty : (∅ : Table).FromSpecs := by
  intro command hmem
  have hnil : (∅ : Table).toList = [] := rfl
  simp [hnil] at hmem

theorem FromSpecs.add {table : Table} (h : table.FromSpecs) {command : Command}
    (hspecs : ∀ parameter ∈ command.parameters, ∃ spec, Parameter.ofSpec? spec = some parameter) :
    (table.add command).FromSpecs := by
  intro other hmem
  obtain ⟨entry, hentry, rfl⟩ := List.mem_map.mp hmem
  rcases Registry.mem_toList_add hentry with hold | rfl
  · exact h entry.2 (List.mem_map.mpr ⟨entry, hold, rfl⟩)
  · exact hspecs

theorem FromSpecs.insertEntry {table after : Table} {entry : Entry} (h : table.FromSpecs)
    (hinsert : table.insertEntry entry = .ok after) : after.FromSpecs := by
  unfold Table.insertEntry ofEntry at hinsert
  cases hparameters : parameters? entry.mnemonic entry.specs with
  | error e => simp [hparameters] at hinsert
  | ok parameters =>
    simp only [hparameters] at hinsert
    unfold insert at hinsert
    split at hinsert
    · cases hinsert
    · split at hinsert
      · cases hinsert
      · obtain rfl := Except.ok.inj hinsert
        exact h.add (exists_spec_of_parameters? hparameters)

theorem FromSpecs.insertAll {table after : Table} {entries : List Entry} (h : table.FromSpecs)
    (hinsert : table.insertAll entries = .ok after) : after.FromSpecs := by
  induction entries generalizing table with
  | nil =>
    obtain rfl := Except.ok.inj hinsert
    exact h
  | cons entry rest ih =>
    rw [Table.insertAll] at hinsert
    cases hentry : table.insertEntry entry with
    | error e => simp [hentry] at hinsert
    | ok more =>
      simp only [hentry] at hinsert
      exact ih (h.insertEntry hentry) hinsert

/-- All parameters in a loaded table come from specs. -/
theorem fromSpecs_of_load {entries : List Entry} {table : Table} (h : load entries = .ok table) :
    table.FromSpecs := fromSpecs_empty.insertAll h

end Table

end Command

end EventScript
