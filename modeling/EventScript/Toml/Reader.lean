import EventScript.Text.Numeral

/-!
Readers. A reader takes what it wants from the front of the characters and leaves the rest, or it
refuses. Here are the readers for what has no meaning in a document: blanks, line ends and comments.
A blank is a space or a tab, a line ends with a line feed that may have one carriage return before
it, and a comment holds no control characters but tabs.
-/

namespace EventScript.Toml

/-- A reader of values of a type. -/
abbrev Reader (α : Type) := StateT (List Char) Option α

namespace Reader

/-- The rest of the characters. -/
def rest : Reader (List Char) := get

/-- Take a character that has to be the next one. -/
def expect (c : Char) : Reader Unit := fun chars =>
  match chars with
  | first :: rest => if first = c then some ((), rest) else none
  | [] => none

/-- Take a character if it is the next one, and say whether it was. -/
def accept (c : Char) : Reader Bool := fun chars =>
  match chars with
  | first :: rest => if first = c then some (true, rest) else some (false, chars)
  | [] => some (false, chars)

/-- Take a word that has to come next. -/
def expectAll (word : List Char) : Reader Unit := fun chars =>
  if word.isPrefixOf chars then some ((), chars.drop word.length) else none

/-- Take all characters up to the first without a property. -/
def takeWhile (p : Char → Bool) : Reader (List Char) := fun chars =>
  some (chars.takeWhile p, chars.dropWhile p)

end Reader

/-- A space or a tab. -/
def isBlank (c : Char) : Bool := c == ' ' || c == '\t'

/-- A character that stands for itself in comments and strings: no control character but the tab. -/
def isPlain (c : Char) : Bool := c == '\t' || (0x20 ≤ c.toNat && c.toNat != 0x7F)

/-- Skip blanks. -/
def blanks : Reader Unit := fun chars => some ((), chars.dropWhile isBlank)

/-- Skip a comment, if there is one. -/
def comment : Reader Unit := fun chars =>
  match chars with
  | '#' :: rest => some ((), rest.dropWhile isPlain)
  | _ => some ((), chars)

/-- Take a line end, or find the end of the document. -/
def lineEnd : Reader Unit := fun chars =>
  match chars with
  | [] => some ((), [])
  | '\n' :: rest => some ((), rest)
  | '\r' :: '\n' :: rest => some ((), rest)
  | _ => none

/-- Skip what may stand after a header or a value on the same line, and the line end. -/
def lineRest : Reader Unit := do
  blanks
  comment
  lineEnd

/-- Skip blanks, comments and line ends; the bound is on the number of lines. -/
def emptyLines : (bound : Nat) → Reader Unit
  | 0 => failure
  | bound + 1 => do
    blanks
    comment
    match ← Reader.rest with
    | '\n' :: rest | '\r' :: '\n' :: rest => set rest; emptyLines bound
    | _ => return ()

end EventScript.Toml
