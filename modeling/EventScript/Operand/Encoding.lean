import EventScript.Symbol
import EventScript.Token.Literal
import EventScript.Token.Name
import EventScript.Word

/-!
Encodings of number and string operands. Each starts with a tag byte:

    0  immediate          the value in as many bytes as the parameter is wide
    1  number variable    the index word
    2  string variable    the index word
    3  string             the length word and that many bytes of UTF-8

An encoding is complete or there is none; a value that does not fit is cut, and the cut is on
record.
-/

namespace EventScript

/-- A value that was cut to fit its encoding. -/
inductive Truncation where
  | value (given stored max : UInt32)
  | string (length : Nat)
  deriving DecidableEq, Repr

namespace Operand

/-- The most bytes of a string that its length word can count. -/
def maxStringLength : Nat := 0xFFFF

end Operand

/-- The wording of a cut. -/
def Truncation.message : Truncation → String
  | .value given stored max =>
    s!"Truncation of argument value {given.toNat} to {stored.toNat} (max {max.toNat})."
  | .string length =>
    s!"Truncation of string of length {length} to {Operand.maxStringLength} bytes."

/-- Why an operand has no encoding. -/
inductive OperandError where
  | unknownVariable (token : String)
  | notAnInteger (token : String)
  | notAString (token : String)
  | notIntegerOrString (token : String)
  deriving DecidableEq, Repr

/-- The wording of a refused operand. -/
def OperandError.message : OperandError → String
  | .unknownVariable token => s!"Unknown variable '{token}'."
  | .notAnInteger token => s!"Cannot convert '{token}' to integer."
  | .notAString token => s!"Cannot convert '{token}' to string."
  | .notIntegerOrString token => s!"Expected int, string, or variable name but got '{token}'."

namespace Operand

/-- The bytes of an operand and the cut that they needed, if any. -/
structure Encoding where
  bytes : List UInt8
  truncation : Option Truncation
  deriving DecidableEq, Repr

/-- The tag of an immediate value. -/
def immediateTag : UInt8 := 0

/-- The tag of a variable in the place of a number. -/
def numberVariableTag : UInt8 := 1

/-- The tag of a variable in the place of a string. -/
def stringVariableTag : UInt8 := 2

/-- The tag of a string literal. -/
def stringTag : UInt8 := 3

/-- The width of a number where a number or a string may stand. -/
def eitherWidth : Nat := 1

/-- A value as an immediate of `width` bytes; bits beyond them are cut. -/
def ofValue (width : Nat) (value : UInt32) : Encoding :=
  let max := widthMask width
  let stored := value &&& max
  { bytes := immediateTag :: littleEndian (min width 4) stored.toNat
    truncation := if stored = value then none else some (.value value stored max) }

/-- The UTF-8 bytes of a text. -/
def utf8 (text : String) : List UInt8 := text.toList.flatMap String.utf8EncodeChar

/-- A content as a string literal; bytes beyond the longest length are cut. -/
def ofContent (content : String) : Encoding :=
  let payload := utf8 content
  let length := payload.length
  { bytes := stringTag :: (wordBytes (min length maxStringLength) ++ payload.take maxStringLength)
    truncation := if length ≤ maxStringLength then none else some (.string length) }

/-- A declared variable under a tag. A token that is no name is refused as `otherwise`. -/
def ofVariable (vars : Variables) (tag : UInt8) (token : String) (otherwise : OperandError) :
    Except OperandError Encoding :=
  if Token.isName token then
    match vars.index? token with
    | .ok index => .ok ⟨tag :: wordBytes index, none⟩
    | .error _ => .error (.unknownVariable token)
  else .error otherwise

/-- A number: an integer literal of `width` bytes, or a declared variable. -/
def encodeNumber (vars : Variables) (width : Nat) (token : String) :
    Except OperandError Encoding :=
  match Token.integer? token with
  | some value => .ok (ofValue width value)
  | none => ofVariable vars numberVariableTag token (.notAnInteger token)

/-- A string: a string literal, or a declared variable. -/
def encodeString (vars : Variables) (token : String) : Except OperandError Encoding :=
  match Token.string? token with
  | some content => .ok (ofContent content)
  | none => ofVariable vars stringVariableTag token (.notAString token)

/-- A number if the token is one, else a string; one error stands for both refusals. -/
def encodeEither (vars : Variables) (token : String) : Except OperandError Encoding :=
  match encodeNumber vars eitherWidth token with
  | .ok encoding => .ok encoding
  | .error _ =>
    match encodeString vars token with
    | .ok encoding => .ok encoding
    | .error _ => .error (.notIntegerOrString token)

end Operand

end EventScript
