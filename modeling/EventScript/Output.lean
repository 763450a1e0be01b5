import EventScript.Word

/-!
Output bytes and the label slots in them. Output only grows; its size is the code offset of whatever
comes next. A slot is a word reserved for the address of a label: it is written as zero and
overwritten later, and a reference remembers which label belongs into it.
-/

namespace EventScript

/-- The bytes emitted so far. -/
structure Output where
  bytes : Array UInt8
  deriving DecidableEq, Repr

namespace Output

/-- No bytes. -/
def empty : Output := ⟨#[]⟩

instance : EmptyCollection Output := ⟨empty⟩

/-- The code offset of the next byte. -/
def offset (output : Output) : Nat := output.bytes.size

/-- All bytes in order. -/
def toList (output : Output) : List UInt8 := output.bytes.toList

/-- Add one byte. -/
def push (output : Output) (byte : UInt8) : Output := ⟨output.bytes.push byte⟩

/-- Add bytes in order. -/
def append (output : Output) (bytes : List UInt8) : Output := ⟨output.bytes.appendList bytes⟩

/-- What a slot holds until its label's address is known. -/
def placeholder : List UInt8 := wordBytes 0

/-- Add a slot; it starts at the old offset. -/
def reserve (output : Output) : Output := output.append placeholder

/-- A word at `location` lies inside the output. -/
def hasSlot (output : Output) (location : Nat) : Bool := location + 2 ≤ output.bytes.size

/-- Overwrite the word at `location`, low byte first, if it lies inside the output. -/
def patch (output : Output) (location value : Nat) : Output :=
  if output.hasSlot location then
    ⟨(output.bytes.setIfInBounds location (UInt8.ofNat value)).setIfInBounds (location + 1)
      (UInt8.ofNat (value / 256))⟩
  else output

/-! ### The view -/

@[simp] theorem toList_empty : (∅ : Output).toList = [] := rfl

@[simp] theorem length_toList (output : Output) : output.toList.length = output.offset := rfl

@[simp] theorem toList_append (output : Output) (bytes : List UInt8) :
    (output.append bytes).toList = output.toList ++ bytes := by
  simp [toList, append]

@[simp] theorem offset_patch (output : Output) (location value : Nat) :
    (output.patch location value).offset = output.offset := by
  unfold patch offset
  split <;> simp

end Output

/-- A slot that waits for the address of a label, and the line that wants it. -/
structure Reference where
  location : Nat
  label : String
  line : Nat
  source : String
  deriving DecidableEq, Repr

end EventScript
