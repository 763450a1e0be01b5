import EventScript.Command.Builtin
import EventScript.Event
import EventScript.Toml.Document

/-!
Command tables as documents. The key `command` holds an array of commands; each is a table with a
mnemonic, an opcode of one byte and perhaps specs, or an array of these in this order. Other keys
and further items mean nothing. The whole document has to have this form before any entry is
looked at.

The documents are TOML, a format with rules of its own, which the modules under `Toml` implement for
this purpose alone. No general theorem rests on their details: what is proved about loading takes
the entries that a document delivers, whatever reads them.
-/

namespace EventScript.Command

open Toml (Node Entries)

/-! ### Entries -/

/-- The content of a text. -/
def text? : Node → Option String
  | .text content => some content
  | _ => none

/-- The value of an integer that is a byte. -/
def byte? : Node → Option UInt8
  | .integer (.ofNat n) => if n < 256 then some (UInt8.ofNat n) else none
  | _ => none

/-- The texts of an array of texts; a missing array is empty. -/
def texts? : Option Node → Option (List String)
  | none => some []
  | some (.array items) => items.mapM text?
  | some _ => none

/-- The entry of a mnemonic, an opcode and specs. -/
def Entry.ofFields? (mnemonic opcode specs : Option Node) : Option Entry := do
  return ⟨← (← mnemonic) |> text?, ← (← opcode) |> byte?, ← texts? specs⟩

/-- The entry that a table describes. -/
def Entry.ofTable? (entries : Entries) : Option Entry :=
  Entry.ofFields? (entries.lookup "mnemonic") (entries.lookup "opcode") (entries.lookup "params")

/-- The entry that a value describes. -/
def Entry.ofNode? : Node → Option Entry
  | .table _ entries => Entry.ofTable? entries
  | .array items => Entry.ofFields? items[0]? items[1]? items[2]?
  | _ => none

/-- The entries of a document, in order. -/
def entries? (root : Entries) : Option (List Entry) :=
  match root.lookup "command" with
  | none => some []
  | some (.array items) => items.mapM Entry.ofNode?
  | some (.tables newestFirst) => newestFirst.reverse.mapM Entry.ofTable?
  | some _ => none

/-! ### Tables -/

namespace Table

/-- The table that a document describes. -/
def read (document : String) : Except TableError Table :=
  match (Toml.parse? document).bind entries? with
  | some entries => load entries
  | none => .error .unreadable

/-- The event that a table was loaded. -/
def loaded (table : Table) : Event := .tableLoaded table.size

end Table

end EventScript.Command
