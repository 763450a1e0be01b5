/-!
Symbolic names and the two kinds of token made from one. A name is an ASCII letter or an
underscore followed by ASCII letters, digits and underscores. `NAME:` defines the label `NAME`,
and `.NAME` is a directive.
-/

namespace EventScript.Token

/-- The characters a name may start with. -/
def startsName (c : Char) : Bool := c.isAlpha || c == '_'

/-- The characters a name may go on with. -/
def continuesName (c : Char) : Bool := c.isAlphanum || c == '_'

/-- The characters spell a symbolic name. -/
def isNameChars : List Char → Bool
  | [] => false
  | c :: rest => startsName c && rest.all continuesName

/-- The token is a symbolic name. -/
def isName (token : String) : Bool := isNameChars token.toList

/-- The characters before a final colon, when they spell a name. -/
def labelChars? (chars : List Char) : Option (List Char) :=
  if chars.getLast? = some ':' ∧ isNameChars chars.dropLast then some chars.dropLast else none

/-- The name of the label that the token defines. -/
def label? (token : String) : Option String := (labelChars? token.toList).map String.ofList

/-- The characters are a full stop and a name. -/
def isDirectiveChars : List Char → Bool
  | '.' :: name => isNameChars name
  | _ => false

/-- The token is a directive. -/
def isDirective (token : String) : Bool := isDirectiveChars token.toList

/-! ### Small laws -/

/-- A token defines a label exactly when it is the label's name with a colon after it. -/
theorem labelChars?_eq_some_iff {chars name : List Char} :
    labelChars? chars = some name ↔ chars = name ++ [':'] ∧ isNameChars name = true := by
  constructor
  · intro h
    simp only [labelChars?] at h
    split at h
    · next hc =>
      obtain ⟨hlast, hname⟩ := hc
      obtain ⟨before, rfl⟩ := List.getLast?_eq_some_iff.mp hlast
      obtain rfl := Option.some.inj h
      exact ⟨by simp, hname⟩
    · exact absurd h (by simp)
  · rintro ⟨rfl, hname⟩
    simp [labelChars?, hname]

end EventScript.Token
