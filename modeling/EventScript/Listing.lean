import EventScript.Line
import EventScript.Output
import EventScript.Symbol
import EventScript.Text.Numeral

/-!
Listings. Each line with a code offset has a row with the address, up to eight of its bytes, its
number and its text, and further rows for further bytes. A line's bytes end where the next line
with a code offset starts, or at the end of the output. The symbol dump lists the labels with
their offsets and then the variables with their indices.
-/

namespace EventScript.Listing

open Text.Numeral (hexUpper column)

/-- The number of bytes on one row. -/
def rowBytes : Nat := 8

/-- A row of a listing: the first one of a line, or one more for further bytes. -/
inductive Row where
  | first (address : Nat) (bytes : List UInt8) (number : Nat) (text : String)
  | further (address : Nat) (bytes : List UInt8)
  deriving DecidableEq, Repr

/-! ### Rows -/

/-- The bytes of the `index`-th row of a line whose bytes are those from `start` up to `stop`. -/
def chunk (output : Array UInt8) (start stop index : Nat) : List UInt8 :=
  let address := start + index * rowBytes
  (output.extract address (min (address + rowBytes) stop)).toList

/-- The number of rows after the first that `count` bytes need. -/
def furtherRows (count : Nat) : Nat := (count - 1) / rowBytes

/-- The rows of a line that starts at `start` and ends before `stop`. -/
def lineRows (output : Array UInt8) (line : Line) (start stop : Nat) : List Row :=
  .first start (chunk output start stop 0) line.number line.text ::
    (List.range (furtherRows (stop - start))).map fun index =>
      .further (start + (index + 1) * rowBytes) (chunk output start stop (index + 1))

/-- The rows of all lines, and where the first of them that has an offset starts; without one, where
the output ends. -/
def rowsAndStart (output : Array UInt8) (lines : List Line) : List Row × Nat :=
  lines.foldr
    (fun line (rows, next) =>
      match line.codeOffset with
      | none => (rows, next)
      | some start => (lineRows output line start (min next output.size) ++ rows, start))
    ([], output.size)

/-- The rows of a listing. -/
def rows (output : Array UInt8) (lines : List Line) : List Row := (rowsAndStart output lines).1

/-! ### Text -/

/-- Bytes as upper-case digits with spaces between. -/
def bytesText (bytes : List UInt8) : String :=
  " ".intercalate (bytes.map fun byte => hexUpper 2 byte.toNat)

/-- The text with spaces after it up to `width` characters. -/
def padRight (width : Nat) (text : String) : String :=
  String.ofList (text.toList.rightpad width ' ')

/-- A row as a line of text. -/
def Row.render : Row → String
  | .first address bytes number text =>
    s!"{hexUpper 4 address}  {padRight 24 (bytesText bytes)}  {column 4 number}  {text}\n"
  | .further address bytes => s!"{hexUpper 4 address}  {bytesText bytes}\n"

/-- The two lines above the rows. -/
def header : String :=
  "ADDR  BYTES                     LINE  SOURCE\n" ++
  "----  ------------------------  ----  ------\n"

/-- The listing of lines over the output. -/
def render (output : Array UInt8) (lines : List Line) : String :=
  header ++ String.join ((rows output lines).map Row.render)

/-! ### Symbol dump -/

/-- A label's line of the dump. -/
def labelText (name : String) (offset : Nat) : String := s!"  {hexUpper 4 offset}  {name}\n"

/-- A variable's line of the dump. -/
def variableText (name : String) (index : Nat) : String := s!"  {column 4 index}  {name}\n"

/-- All labels and all variables, in the order of their tables. -/
def symbols (labels : Labels) (vars : Variables) : String :=
  "LABELS\n" ++ String.join (labels.toList.map fun (name, offset) => labelText name offset) ++
  "VARIABLES\n" ++
    String.join (vars.toList.map fun (name, index) => variableText name index)

end EventScript.Listing
