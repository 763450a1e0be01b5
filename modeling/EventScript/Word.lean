/-!
Words of the output. All multi-byte values are little-endian: the low byte comes first, and bits
that do not fit the count of bytes are dropped.
-/

namespace EventScript

/-- The `count` low bytes of `n`, lowest first. -/
def littleEndian : (count : Nat) → (n : Nat) → List UInt8
  | 0, _ => []
  | count + 1, n => UInt8.ofNat n :: littleEndian count (n / 256)

/-- The value of bytes written lowest first. -/
def ofLittleEndian : List UInt8 → Nat
  | [] => 0
  | byte :: rest => byte.toNat + 256 * ofLittleEndian rest

/-- The two-byte form of an address, an index or a length. -/
def wordBytes (n : Nat) : List UInt8 := littleEndian 2 n

/-- The largest value that `width` bytes hold; values have at most four bytes. -/
def widthMask : (width : Nat) → UInt32
  | 0 => 0
  | 1 => 0xFF
  | 2 => 0xFFFF
  | 3 => 0xFFFFFF
  | _ => 0xFFFFFFFF

/-! ### Small laws -/

@[simp] theorem length_littleEndian (count n : Nat) : (littleEndian count n).length = count := by
  induction count generalizing n with
  | zero => rfl
  | succ count ih => simp [littleEndian, ih]

@[simp] theorem length_wordBytes (n : Nat) : (wordBytes n).length = 2 := by simp [wordBytes]

end EventScript
