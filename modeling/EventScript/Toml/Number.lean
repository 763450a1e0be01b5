import EventScript.Toml.Reader

/-!
Numbers of a document. An integer has 64 bits with a sign; it is written in decimal digits,
without a zero in front, or without a sign in hexadecimal, octal or binary digits behind `0x`,
`0o` or `0b`. A float has a fraction, an exponent or both; one that rounds to positive infinity is
refused, while the words for infinity are not. Single underscores may stand between digits.
-/

namespace EventScript.Toml

/-- Digits with single underscores between them. -/
def grouped (run : List Char) : Bool :=
  run.head?.any (· ≠ '_') && run.getLast?.any (· ≠ '_') &&
    (run.zip run.tail).all fun (a, b) => a ≠ '_' || b ≠ '_'

/-- A run of digits of a radix, without its underscores. -/
def digits (radix : Nat) : Reader (List Char) := do
  let run ← Reader.takeWhile fun c => c = '_' || (Text.Numeral.digit? radix c).isSome
  guard (grouped run)
  return run.filter (· ≠ '_')

/-- The digits of a whole number, which has no zero in front. -/
def wholeDigits : Reader (List Char) := do
  let whole ← digits 10
  guard (whole.head? ≠ some '0' || whole.length = 1)
  return whole

/-- The value of digits, up to a ceiling beyond all 64-bit values. -/
def valueOf (radix : Nat) (digits : List Char) : Nat :=
  (Text.Numeral.magnitude? radix 0x10000000000000000 digits).getD 0

/-- The least magnitude that no positive integer has. -/
def integerBound : Nat := 0x8000000000000000

/-- An integer behind a radix mark. -/
def radixInteger (radix : Nat) : Reader Int := do
  let value := valueOf radix (← digits radix)
  guard (value < integerBound)
  return value

/-- A sign, if there is one: whether it is a minus. -/
def sign : Reader Bool := do
  if ← Reader.accept '-' then return true
  let _ ← Reader.accept '+'
  return false

/-! ### Floats -/

/-- The least magnitude that rounds to infinity: halfway between the largest float and the power of
two after it. -/
def overflowBound : Nat := ((1 <<< 54) - 1) <<< 970

/-- The number of digits of the bound. -/
def overflowOrder : Nat := 309

/-- The digits, scaled by a power of ten, round to infinity. Where the count of digits before the
point does not decide, the whole part does, since the bound is whole. -/
def overflows (digits : List Char) (exponent : Int) : Bool :=
  let significant := digits.dropWhile (· = '0')
  let order := (significant.length : Int) + exponent
  let whole := (significant.take overflowOrder).rightpad overflowOrder '0'
  !significant.isEmpty &&
    (overflowOrder < order ||
      (order = overflowOrder && overflowBound ≤ Nat.ofDigitChars 10 whole 0))

/-- A fraction, if there is one. -/
def fractionDigits : Reader (List Char) := do
  if ← Reader.accept '.' then digits 10 else return []

/-- The least exponent that no further digit changes. -/
def exponentCeiling : Nat := 0x10000

/-- The value of an exponent's digits. Digits after those that reach the ceiling are dropped, so
`700000` counts as `70000`. -/
def exponentValue (digits : List Char) : Nat :=
  digits.foldl
    (fun value c => if value < exponentCeiling then Nat.ofDigitChars 10 [c] value else value) 0

/-- An exponent, if there is one. -/
def exponent : Reader Int := do
  match ← Reader.rest with
  | 'e' :: rest | 'E' :: rest =>
    set rest
    let negative ← sign
    let value := exponentValue (← digits 10)
    return if negative then - (value : Int) else value
  | _ => return 0

/-- What a number is: an integer, or a float whose value is of no interest. -/
inductive Number where
  | integer (value : Int)
  | float

/-- A number in decimal digits after its sign. -/
def decimal (negative : Bool) : Reader Number := do
  let whole ← wholeDigits
  match ← Reader.rest with
  | '.' :: _ | 'e' :: _ | 'E' :: _ => do
    let fraction ← fractionDigits
    let power ← exponent
    guard (negative || !overflows (whole ++ fraction) (power - fraction.length))
    return .float
  | _ => do
    let value := valueOf 10 whole
    guard (value < integerBound || (negative && value = integerBound))
    return .integer (if negative then - (value : Int) else value)

/-- The words for infinity and for no number. -/
def specialFloat : Reader Number := do
  Reader.expectAll ['i', 'n', 'f'] <|> Reader.expectAll ['n', 'a', 'n']
  return .float

/-- A number. -/
def number : Reader Number := do
  match ← Reader.rest with
  | '0' :: 'x' :: rest => set rest; .integer <$> radixInteger 16
  | '0' :: 'o' :: rest => set rest; .integer <$> radixInteger 8
  | '0' :: 'b' :: rest => set rest; .integer <$> radixInteger 2
  | _ => do
    let negative ← sign
    specialFloat <|> decimal negative

end EventScript.Toml
