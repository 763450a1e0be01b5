import EventScript.Text.Blank
import EventScript.Text.Lines
import EventScript.Token.Lexer

/-!
Statements of a script. Each physical line that holds a token is one statement; blank lines and
lines with nothing but a comment are none, but they count in the numbering.
-/

namespace EventScript

/-- One statement: its physical line number from one, that line's trimmed text and its tokens. The
code offset is known once the statement has been emitted. -/
structure Line where
  number : Nat
  text : String
  tokens : List String
  codeOffset : Option Nat
  deriving DecidableEq, Repr

namespace Line

/-- The statement on a physical line, if it holds one. -/
def ofPhysical? (raw : String) (number : Nat) : Option Line :=
  match Token.tokenize raw with
  | [] => none
  | tokens => some ⟨number, Text.trim raw, tokens, none⟩

/-- The statements of a script, in order. -/
def ofSource (source : String) : List Line :=
  ((Text.lines source).zipIdx 1).filterMap fun (raw, number) => ofPhysical? raw number

/-- The statement with the offset at which its code starts. -/
def placedAt (line : Line) (offset : Nat) : Line := { line with codeOffset := some offset }

@[simp] theorem codeOffset_placedAt (line : Line) (offset : Nat) :
    (line.placedAt offset).codeOffset = some offset := rfl

end Line

end EventScript
