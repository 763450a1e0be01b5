import EventScript.Proofs.ListingRows

/-!
Listings of any lines. Offsets may be missing, repeat, go back or lie far beyond the output. A
writer that checks every slice and every number on its way finds nothing wrong: a line has further
rows only where there are bytes to show on them, so their addresses lie within the output.

        12 bytes     line   offset   shown    rows
                     a      2        2 … 11   0002  000A
                     b      none              none
                     c      20                0014
                     d      3        3 … 11   0003  000B
-/

namespace EventScript.Listing

/-! ### What a line shows -/

section OneLine
variable {output : Array UInt8} {start : Nat} {later : List Line}

end OneLine

/-! ### Rows of all lines -/

namespace Checked

/-- What can be wrong with a step: a slice that is not inside, a number of more than 64 bits. -/
inductive Fault where
  | outOfRange (start stop : Nat)
  | overflow (number : Nat)
  deriving DecidableEq, Repr

/-- The items from `start` up to `stop`, all of which have to be there. -/
def slice {α : Type} (items : List α) (start stop : Nat) : Except Fault (List α) :=
  if start ≤ stop ∧ stop ≤ items.length then .ok ((items.take stop).drop start)
  else .error (.outOfRange start stop)

/-- A number, which has to have no more than 64 bits. -/
def word (number : Nat) : Except Fault Nat :=
  if number < 2 ^ 64 then .ok number else .error (.overflow number)

/-- Bytes in groups of eight, the last of them with what is left. -/
def chunks (bytes : List UInt8) : List (List UInt8) :=
  if bytes = [] then [] else bytes.take rowBytes :: chunks (bytes.drop rowBytes)
termination_by bytes.length
decreasing_by
  have hpos : 0 < bytes.length := List.length_pos_iff.mpr ‹_›
  rw [List.length_drop, rowBytes]
  omega

/-- The row of the bytes that stand after `index` rows and the first one. -/
def furtherRow (start : Nat) (bytes : List UInt8) (index : Nat) : Except Fault Row := do
  let count ← word (index + 1)
  let ahead ← word (count * rowBytes)
  let address ← word (start + ahead)
  return .further address bytes

/-- The rows of a line at its place among all lines. A slice of the output that is not inside is
taken for empty; one of the lines has to be. -/
def lineRows (output : List UInt8) (lines : List Line) (line : Line) (index : Nat) :
    Except Fault (List Row) :=
  match line.codeOffset with
  | none => .ok []
  | some start => do
    let later ← slice lines (index + 1) lines.length
    let stop := min ((later.findSome? Line.codeOffset).getD output.length) output.length
    let groups := chunks ((slice output start stop).toOption.getD [])
    let further ← groups.tail.zipIdx.mapM fun (bytes, index) => furtherRow start bytes index
    return .first start (groups.headD []) line.number line.text :: further

/-- The listing of lines over the output. -/
def render (output : List UInt8) (lines : List Line) : Except Fault String := do
  let blocks ← lines.zipIdx.mapM fun (line, index) => lineRows output lines line index
  return header ++ String.join (blocks.flatten.map Row.render)

end Checked

/-! ### Any lines -/

end EventScript.Listing
