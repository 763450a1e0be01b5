/-!
Numerals. Written out, a number is padded on the left with zeros (hexadecimal) or with spaces
(decimal columns). Read in, a run of digits counts only up to a ceiling: a longer run stays at the
ceiling, so no run, however long, wraps around to a small number.
-/

namespace EventScript.Text.Numeral

/-! ### Writing -/

/-- Lower-case hexadecimal digits, with zeros in front up to `width` digits. -/
def hex (width n : Nat) : String :=
  String.ofList ((Nat.toDigits 16 n).leftpad width '0')

/-- Upper-case hexadecimal digits, with zeros in front up to `width` digits. -/
def hexUpper (width n : Nat) : String :=
  String.ofList (((Nat.toDigits 16 n).map Char.toUpper).leftpad width '0')

/-- Decimal digits, with spaces in front up to `width` characters. -/
def column (width n : Nat) : String :=
  String.ofList ((Nat.toDigits 10 n).leftpad width ' ')

/-! ### Reading -/

/-- The value of a digit below `radix`; letters of either case stand for ten and up. -/
def digit? (radix : Nat) (c : Char) : Option Nat :=
  let value :=
    if c.isDigit then some (c.toNat - '0'.toNat)
    else if 'a' ≤ c ∧ c ≤ 'z' then some (c.toNat - 'a'.toNat + 10)
    else if 'A' ≤ c ∧ c ≤ 'Z' then some (c.toNat - 'A'.toNat + 10)
    else none
  value.filter (· < radix)

/-- Digits read after those that gave `value`, cut off at `ceiling`. -/
def extend? (radix ceiling value : Nat) : List Char → Option Nat
  | [] => some value
  | c :: rest =>
    match digit? radix c with
    | none => none
    | some d => extend? radix ceiling (min (value * radix + d) ceiling) rest

/-- The number that a non-empty run of digits stands for, or `ceiling` if it is that or more. -/
def magnitude? (radix ceiling : Nat) : List Char → Option Nat
  | [] => none
  | digits => extend? radix ceiling 0 digits

theorem digit?_lt {radix : Nat} {c : Char} {d : Nat} (h : digit? radix c = some d) : d < radix := by
  simp only [digit?, Option.filter_eq_some_iff, decide_eq_true_eq] at h
  exact h.2

end EventScript.Text.Numeral
