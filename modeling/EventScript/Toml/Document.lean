import EventScript.Toml.Value

/-!
Documents: keys with values, in tables under headers. A byte order mark in front is skipped. The
document is read line by line into its root table; it is refused as a whole if any line is.

This implements TOML 1.0 as far as a command table needs it: any document is read or refused, but
why it is refused is not kept.
-/

namespace EventScript.Toml

/-- A document read so far: the root table, and the path of the table that the last header
started. -/
structure Progress where
  root : Entries
  header : List String

namespace Progress

/-- The table or array element of a header after its opening. -/
def header? (progress : Progress) (element : Bool) : Reader Progress := do
  let (path, key) ← key
  Reader.expect ']'
  if element then Reader.expect ']'
  lineRest
  let opened :=
    if element then progress.root.openElement path key else progress.root.openTable path key
  match opened with
  | some root => return ⟨root, path ++ [key]⟩
  | none => failure

/-- A key and its value on a line. -/
def keyLine? (progress : Progress) (bound : Nat) : Reader Progress := do
  let ((path, key), value) ← keyValue (value bound nestingLimit)
  lineRest
  match progress.root.insertUnder progress.header path key value with
  | some root => return { progress with root }
  | none => failure

/-- One line, or several where a value goes over them. -/
def line? (progress : Progress) (bound : Nat) : Reader Progress := do
  blanks
  match ← Reader.rest with
  | [] => return progress
  | '\n' :: _ | '\r' :: _ | '#' :: _ => lineRest; return progress
  | '[' :: '[' :: rest => set rest; progress.header? true
  | '[' :: rest => set rest; progress.header? false
  | _ => progress.keyLine? bound

/-- All lines up to the end of the document. -/
def lines? (bound : Nat) (progress : Progress) : (left : Nat) → List Char → Option Progress
  | _, [] => some progress
  | 0, _ => none
  | left + 1, chars =>
    match progress.line? bound chars with
    | some (progress, rest) => lines? bound progress left rest
    | none => none

end Progress

/-- The characters without a byte order mark in front. -/
def dropMark : List Char → List Char
  | '\uFEFF' :: rest => rest
  | chars => chars

/-- The root table of a document. -/
def parse? (document : String) : Option Entries :=
  let chars := dropMark document.toList
  let bound := chars.length + 1
  (Progress.lines? bound ⟨[], []⟩ bound chars).map (·.root)

end EventScript.Toml
