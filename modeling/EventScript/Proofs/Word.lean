import Mathlib.Data.Nat.Bitwise
import EventScript.Word

/-!
Reading words back. Bytes written lowest first are read as the value modulo what so many bytes hold,
so writing and masking cut a value at the same place, and two values have one written form exactly
when they differ by a multiple of what fits.
-/

namespace EventScript

theorem ofLittleEndian_littleEndian (count n : Nat) :
    ofLittleEndian (littleEndian count n) = n % 256 ^ count := by
  induction count generalizing n with
  | zero => rw [Nat.pow_zero, Nat.mod_one]; rfl
  | succ count ih =>
    have hpow : 256 ^ (count + 1) = 256 * 256 ^ count := by rw [Nat.pow_succ, Nat.mul_comm]
    rw [littleEndian, ofLittleEndian, ih, UInt8.toNat_ofNat', hpow, Nat.mod_mul]

/-- Bits beyond the bytes do not change them. -/
theorem littleEndian_mod (count n : Nat) :
    littleEndian count (n % 256 ^ count) = littleEndian count n := by
  induction count generalizing n with
  | zero => rfl
  | succ count ih =>
    have hpow : 256 ^ (count + 1) = 256 * 256 ^ count := by rw [Nat.pow_succ, Nat.mul_comm]
    have hlow : UInt8.ofNat (n % 256 ^ (count + 1)) = UInt8.ofNat n := by
      apply UInt8.toNat_inj.mp
      rw [UInt8.toNat_ofNat', UInt8.toNat_ofNat', hpow]
      exact Nat.mod_mul_right_mod n 256 (256 ^ count)
    have hhigh : n % 256 ^ (count + 1) / 256 = n / 256 % 256 ^ count := by
      rw [hpow, Nat.mod_mul_right_div_self]
    rw [littleEndian, littleEndian, hlow, hhigh, ih]

/-- Two values have the same bytes exactly when they agree modulo what the bytes hold. -/
theorem littleEndian_eq_iff {count m n : Nat} :
    littleEndian count m = littleEndian count n ↔ m % 256 ^ count = n % 256 ^ count := by
  constructor
  · intro h
    rw [← ofLittleEndian_littleEndian, h, ofLittleEndian_littleEndian]
  · intro h
    rw [← littleEndian_mod, h, littleEndian_mod]

theorem littleEndian_inj {count m n : Nat} (hm : m < 256 ^ count) (hn : n < 256 ^ count) :
    littleEndian count m = littleEndian count n ↔ m = n := by
  rw [littleEndian_eq_iff, Nat.mod_eq_of_lt hm, Nat.mod_eq_of_lt hn]

theorem wordBytes_eq_iff {m n : Nat} : wordBytes m = wordBytes n ↔ m % 0x10000 = n % 0x10000 :=
  littleEndian_eq_iff

/-- Masking to a width keeps the value modulo what that many bytes hold. -/
theorem toNat_and_widthMask (width : Nat) (value : UInt32) :
    (value &&& widthMask width).toNat = value.toNat % 256 ^ min width 4 := by
  rw [UInt32.toNat_and]
  match width with
  | 0 => simp [widthMask, Nat.mod_one]
  | 1 => exact Nat.and_two_pow_sub_one_eq_mod value.toNat 8
  | 2 => exact Nat.and_two_pow_sub_one_eq_mod value.toNat 16
  | 3 => exact Nat.and_two_pow_sub_one_eq_mod value.toNat 24
  | width + 4 =>
    have hwidth : min (width + 4) 4 = 4 := by omega
    rw [hwidth]
    exact Nat.and_two_pow_sub_one_eq_mod value.toNat 32

end EventScript
