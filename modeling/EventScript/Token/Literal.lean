import EventScript.Text.Numeral

/-!
Literals. An integer literal has an optional minus sign and then decimal digits, `0x` and
hexadecimal digits, or `0b` and binary digits; it stands for a 32-bit word, so it lies between
-2^31 and 2^32 - 1 and a negative value is stored as its two's complement. A string literal stands
between quotation marks; in it a backslash makes the next character count as itself, except that
`\n` is a line feed and `\t` a tab.
-/

namespace EventScript.Token

/-! ### Integers -/

/-- The parts of an integer literal as it is spelled. -/
structure Spelling where
  negative : Bool
  radix : Nat
  digits : List Char
  deriving DecidableEq, Repr

namespace Spelling

/-- Split an unsigned spelling into its radix and its digits. -/
def ofUnsigned (negative : Bool) : List Char → Spelling
  | '0' :: 'x' :: digits | '0' :: 'X' :: digits => ⟨negative, 16, digits⟩
  | '0' :: 'b' :: digits | '0' :: 'B' :: digits => ⟨negative, 2, digits⟩
  | digits => ⟨negative, 10, digits⟩

/-- Split a spelling into sign, radix and digits. -/
def ofChars : List Char → Spelling
  | '-' :: rest => ofUnsigned true rest
  | chars => ofUnsigned false chars

/-- The least magnitude that no literal of the sign may have. -/
def bound (negative : Bool) : Nat := if negative then 0x80000001 else 0x100000000

/-- The 32-bit word of a spelling in range. -/
def word? (spelling : Spelling) : Option UInt32 :=
  match Text.Numeral.magnitude? spelling.radix (bound spelling.negative) spelling.digits with
  | none => none
  | some magnitude =>
    if magnitude < bound spelling.negative then
      some (if spelling.negative then - UInt32.ofNat magnitude else UInt32.ofNat magnitude)
    else none

end Spelling

/-- The word that an integer literal stands for. -/
def integer? (token : String) : Option UInt32 := (Spelling.ofChars token.toList).word?

/-! ### Strings -/

/-- The character that a backslash and `c` stand for. -/
def unescaped (c : Char) : Char :=
  if c = 'n' then '\n' else if c = 't' then '\t' else c

/-- Content after the opening quotation mark, given what was read of it, latest character first. The
closing quotation mark has to be the last character. -/
def content? (done : List Char) : List Char → Option (List Char)
  | [] => none
  | '"' :: rest => if rest.isEmpty then some done.reverse else none
  | ['\\'] => none
  | '\\' :: c :: rest => content? (unescaped c :: done) rest
  | c :: rest => content? (c :: done) rest

/-- The content of a string literal. -/
def stringChars? : List Char → Option (List Char)
  | '"' :: rest => content? [] rest
  | _ => none

/-- The content that a string literal stands for. -/
def string? (token : String) : Option String := (stringChars? token.toList).map String.ofList

end EventScript.Token
