import EventScript.Toml.Moment
import EventScript.Toml.Number
import EventScript.Toml.Table
import EventScript.Toml.Text

/-!
Keys and values of a document. A key is a bare word or a string, and dots join keys to a path. A
value shows by its first character what it is. Arrays may go over several lines and may end with a
comma; inline tables may do neither. Nesting is limited, which also bounds the recursion of the
readers.
-/

namespace EventScript.Toml

/-! ### Keys -/

/-- The most parts of a key, and the most levels of nested values, plus one. -/
def nestingLimit : Nat := 80

/-- A character of a bare key. -/
def isBare (c : Char) : Bool := c.isAlphanum || c == '_' || c == '-'

/-- One part of a key. -/
def keyPart : Reader String := do
  blanks
  let chars ← match ← Reader.rest with
    | '"' :: _ | '\'' :: _ => lineText
    | _ => do
      let word ← Reader.takeWhile isBare
      guard (!word.isEmpty)
      pure word
  blanks
  return String.ofList chars

/-- The parts of a key after the first ones, which are given latest first. -/
def moreKeyParts : (bound : Nat) → List String → Reader (List String)
  | 0, _ => failure
  | bound + 1, done => do
    if ← Reader.accept '.' then moreKeyParts bound ((← keyPart) :: done)
    else return done

/-- A key: the path to its table and its last part. -/
def key : Reader (List String × String) := do
  match ← moreKeyParts (nestingLimit - 1) [← keyPart] with
  | last :: earlier => return (earlier.reverse, last)
  | [] => failure

/-! ### Values -/

/-- The items of an array after its opening bracket, given the first ones latest first. -/
def arrayItems (item : Reader Node) (lines : Nat) : (bound : Nat) → List Node → Reader (List Node)
  | 0, _ => failure
  | bound + 1, done => do
    emptyLines lines
    if ← Reader.accept ']' then return done.reverse
    let done := (← item) :: done
    emptyLines lines
    if ← Reader.accept ',' then arrayItems item lines bound done
    else
      Reader.expect ']'
      return done.reverse

/-- A key, an equals sign and a value. -/
def keyValue (item : Reader Node) : Reader ((List String × String) × Node) := do
  let key ← key
  Reader.expect '='
  blanks
  return (key, ← item)

/-- The entries of an inline table from its first key on, added to those before. -/
def inlineEntries (item : Reader Node) : (bound : Nat) → Entries → Reader Entries
  | 0, _ => failure
  | bound + 1, done => do
    let ((path, key), value) ← keyValue item
    blanks
    match done.insertDotted path key value .inline with
    | none => failure
    | some done =>
      if ← Reader.accept ',' then inlineEntries item bound done
      else
        Reader.expect '}'
        return done

/-- An inline table after its opening brace. -/
def inlineTable (item : Reader Node) (bound : Nat) : Reader Node := do
  blanks
  if ← Reader.accept '}' then return .table .inline []
  return .table .inline (← inlineEntries item bound [])

/-- A date, a time or a number. -/
def momentOrNumber : Reader Node :=
  (do moment; return .other) <|>
    (do match ← number with
      | .integer value => return .integer value
      | .float => return .other)

/-- A value with arrays and inline tables nested fewer than `nesting` deep. The bound is on the
length of what is read. -/
def value (bound : Nat) : (nesting : Nat) → Reader Node
  | 0 => failure
  | nesting + 1 => do
    match ← Reader.rest with
    | '"' :: _ | '\'' :: _ => return .text (String.ofList (← anyText))
    | '[' :: rest =>
      guard (nesting ≠ 0)
      set rest
      return .array (← arrayItems (value bound nesting) bound bound [])
    | '\x7b' :: rest =>
      guard (nesting ≠ 0)
      set rest
      inlineTable (value bound nesting) bound
    | 't' :: _ => Reader.expectAll ['t', 'r', 'u', 'e']; return .other
    | 'f' :: _ => Reader.expectAll ['f', 'a', 'l', 's', 'e']; return .other
    | 'i' :: _ | 'n' :: _ => let _ ← specialFloat; return .other
    | c :: _ =>
      guard (c.isDigit || c = '+' || c = '-')
      momentOrNumber
    | [] => failure

end EventScript.Toml
