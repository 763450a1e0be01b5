/-!
Tables of a document under construction. How a table came about decides what may still be added to
it: one with a header of its own takes no second header, one that a longer header implied takes one
header later, one that dotted keys made takes only dotted keys, and an inline one is complete at its
closing brace. Keys are unique within a table.
-/

namespace EventScript.Toml

/-- How a table came about. -/
inductive Origin where
  | header
  | implied
  | dotted
  | inline
  deriving DecidableEq, Repr

/-- A value of a document. Of booleans, floats and moments only the presence is kept. -/
inductive Node where
  | text (content : String)
  | integer (value : Int)
  | other
  | array (items : List Node)
  | table (origin : Origin) (entries : List (String × Node))
  | tables (newestFirst : List (List (String × Node)))

/-- The keys of a table with their values. -/
abbrev Entries := List (String × Node)

namespace Entries

/-- The entries with another value under a key that is there. -/
def replace (entries : Entries) (key : String) (value : Node) : Entries :=
  entries.map fun entry => if entry.1 = key then (key, value) else entry

/-- The entries with a value under a new key. -/
def insertNew (entries : Entries) (key : String) (value : Node) : Option Entries :=
  match entries.lookup key with
  | some _ => none
  | none => some ((key, value) :: entries)

/-- Dotted keys may go through a table of this origin. -/
def opensToKeys : Origin → Bool
  | .implied | .dotted => true
  | .header | .inline => false

/-- Headers may go through a table of this origin. -/
def opensToHeaders : Origin → Bool
  | .header | .implied | .dotted => true
  | .inline => false

/-- Change the table at the end of a path. Tables that are missing on the way are made with the
origin `fresh`, those that are there have to be open, and an array of tables stands for its last. -/
def update (fresh : Origin) (opens : Origin → Bool) (change : Origin → Entries → Option Entries) :
    (path : List String) → (origin : Origin) → Entries → Option Entries
  | [], origin, entries => change origin entries
  | key :: path, _, entries =>
    match entries.lookup key with
    | none =>
      match update fresh opens change path fresh [] with
      | some inner => some ((key, .table fresh inner) :: entries)
      | none => none
    | some (.table origin inner) =>
      if opens origin then
        match update fresh opens change path origin inner with
        | some inner => some (entries.replace key (.table origin inner))
        | none => none
      else none
    | some (.tables (last :: earlier)) =>
      match update fresh opens change path .header last with
      | some last => some (entries.replace key (.tables (last :: earlier)))
      | none => none
    | some _ => none

/-- Add a value under a dotted key. Only tables made by dotted keys take keys with dots, and they
take no others. -/
def insertDotted (path : List String) (key : String) (value : Node) (origin : Origin)
    (entries : Entries) : Option Entries :=
  update .dotted opensToKeys
    (fun origin entries =>
      if (origin = .dotted) = (path ≠ []) then entries.insertNew key value else none)
    path origin entries

/-- Start a table under its header. -/
def openTable (path : List String) (key : String) (root : Entries) : Option Entries :=
  update .implied opensToHeaders
    (fun _ entries =>
      match entries.lookup key with
      | none => some ((key, .table .header []) :: entries)
      | some (.table .implied inner) => some (entries.replace key (.table .header inner))
      | some _ => none)
    path .header root

/-- Start one more table of an array under its header. -/
def openElement (path : List String) (key : String) (root : Entries) : Option Entries :=
  update .implied opensToHeaders
    (fun _ entries =>
      match entries.lookup key with
      | none => some ((key, .tables [[]]) :: entries)
      | some (.tables earlier) => some (entries.replace key (.tables ([] :: earlier)))
      | some _ => none)
    path .header root

/-- Add a value under a dotted key to the table that the last header started. -/
def insertUnder (header path : List String) (key : String) (value : Node) (root : Entries) :
    Option Entries :=
  update .implied opensToHeaders (insertDotted path key value) header .header root

end Entries

end EventScript.Toml
