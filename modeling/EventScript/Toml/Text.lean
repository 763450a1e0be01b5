import EventScript.Toml.Reader

/-!
Strings of a document. A basic string stands between quotation marks and has escapes; a literal
one stands between apostrophes and has none. Either may be written over several lines between
tripled marks: a line end directly after the opening is dropped, every line end counts as one line
feed, and a run of up to five marks at the end gives the marks beyond three to the content. In a
basic one a backslash at the end of a line removes all white space up to the next visible
character.
-/

namespace EventScript.Toml

/-! ### Escapes -/

/-- The character that a backslash and one letter stand for. -/
def escape? : Char → Option Char
  | 'b' => some '\x08'
  | 't' => some '\t'
  | 'n' => some '\n'
  | 'f' => some '\x0C'
  | 'r' => some '\r'
  | '"' => some '"'
  | '\\' => some '\\'
  | _ => none

/-- The character of a code point, unless it is a surrogate or too large. -/
def scalar? (code : Nat) : Option Char :=
  if code.isValidChar then some (Char.ofNat code) else none

/-- The character of a code point in hexadecimal digits. -/
def codePoint? (digits : List Char) : Option Char :=
  (Text.Numeral.magnitude? 16 0x100000000 digits).bind scalar?

/-- A line ends after nothing but blanks. -/
def endsLine (chars : List Char) : Bool :=
  match chars.dropWhile isBlank with
  | '\n' :: _ | '\r' :: '\n' :: _ => true
  | _ => false

/-! ### Contents -/

/-- The content of a basic string after its opening, given what was read of it, latest first. -/
def basicContent (done : List Char) : List Char → Option (List Char × List Char)
  | [] => none
  | '"' :: rest => some (done.reverse, rest)
  | '\\' :: 'u' :: a :: b :: c :: d :: rest =>
    match codePoint? [a, b, c, d] with
    | some x => basicContent (x :: done) rest
    | none => none
  | '\\' :: 'U' :: a :: b :: c :: d :: e :: f :: g :: h :: rest =>
    match codePoint? [a, b, c, d, e, f, g, h] with
    | some x => basicContent (x :: done) rest
    | none => none
  | '\\' :: c :: rest =>
    match escape? c with
    | some x => basicContent (x :: done) rest
    | none => none
  | c :: rest => if c ≠ '\\' && isPlain c then basicContent (c :: done) rest else none

/-- The content of a literal string after its opening. -/
def literalContent (done : List Char) : List Char → Option (List Char × List Char)
  | [] => none
  | '\'' :: rest => some (done.reverse, rest)
  | c :: rest => if isPlain c then literalContent (c :: done) rest else none

/-- The content of a basic string over several lines after its opening. While `joining`, blanks and
line ends are dropped. -/
def basicLines (joining : Bool) (done : List Char) : List Char → Option (List Char × List Char)
  | [] => none
  | '"' :: '"' :: '"' :: '"' :: '"' :: rest => some (('"' :: '"' :: done).reverse, rest)
  | '"' :: '"' :: '"' :: '"' :: rest => some (('"' :: done).reverse, rest)
  | '"' :: '"' :: '"' :: rest => some (done.reverse, rest)
  | '\\' :: 'u' :: a :: b :: c :: d :: rest =>
    match codePoint? [a, b, c, d] with
    | some x => basicLines false (x :: done) rest
    | none => none
  | '\\' :: 'U' :: a :: b :: c :: d :: e :: f :: g :: h :: rest =>
    match codePoint? [a, b, c, d, e, f, g, h] with
    | some x => basicLines false (x :: done) rest
    | none => none
  | '\\' :: c :: rest =>
    match escape? c with
    | some x => basicLines false (x :: done) rest
    | none => if endsLine (c :: rest) then basicLines true done rest else none
  | '\r' :: '\n' :: rest => basicLines joining (if joining then done else '\n' :: done) rest
  | c :: rest =>
    if joining && (isBlank c || c == '\n') then basicLines true done rest
    else if c == '\n' || (c ≠ '\\' && isPlain c) then basicLines false (c :: done) rest
    else none

/-- The content of a literal string over several lines after its opening. -/
def literalLines (done : List Char) : List Char → Option (List Char × List Char)
  | [] => none
  | '\'' :: '\'' :: '\'' :: '\'' :: '\'' :: rest => some (('\'' :: '\'' :: done).reverse, rest)
  | '\'' :: '\'' :: '\'' :: '\'' :: rest => some (('\'' :: done).reverse, rest)
  | '\'' :: '\'' :: '\'' :: rest => some (done.reverse, rest)
  | '\r' :: '\n' :: rest => literalLines ('\n' :: done) rest
  | c :: rest => if c == '\n' || isPlain c then literalLines (c :: done) rest else none

/-! ### Strings -/

/-- The characters without a line end in front. -/
def dropLineEnd : List Char → List Char
  | '\n' :: rest => rest
  | '\r' :: '\n' :: rest => rest
  | chars => chars

/-- A string on one line. -/
def lineText : Reader (List Char) := fun chars =>
  match chars with
  | '"' :: rest => basicContent [] rest
  | '\'' :: rest => literalContent [] rest
  | _ => none

/-- A string of any of the four forms. -/
def anyText : Reader (List Char) := fun chars =>
  match chars with
  | '"' :: '"' :: '"' :: rest => basicLines false [] (dropLineEnd rest)
  | '\'' :: '\'' :: '\'' :: rest => literalLines [] (dropLineEnd rest)
  | _ => lineText chars

end EventScript.Toml
