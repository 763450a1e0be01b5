/-!
Tokens of a line. Separators are space, tab, line feed, form feed, carriage return and comma. A
semicolon outside quotes starts a comment that runs to the end of the input. A quotation mark starts
a quoted token that runs up to the next quotation mark not preceded by an escaping backslash, or to
the end of the input when there is none; the token keeps its quotes and its backslashes. Everything
else is a word.

The lexer is a left fold of a four-state machine over the characters.

    gap ──▶ word ──▶ gap        a separator, semicolon or quotation mark ends a word
    gap ──▶ quoted ──▶ gap      the closing quotation mark belongs to the token
    gap ──▶ comment             never left again
-/

namespace EventScript.Token

/-- The characters between words: ASCII white space and the comma. -/
def isSeparator (c : Char) : Bool :=
  c == ' ' || c == '\t' || c == '\n' || c == '\x0C' || c == '\r' || c == ','

/-- The characters that end a word. -/
def endsWord (c : Char) : Bool :=
  isSeparator c || c == ';' || c == '"'

/-- Where in the input the lexer stands; an open token is held latest character first. -/
inductive Mode where
  | gap
  | word (chars : List Char)
  | quoted (chars : List Char) (escaping : Bool)
  | comment
  deriving DecidableEq, Repr

/-- What the lexer holds: the mode and the finished tokens, latest first. -/
structure Scan where
  mode : Mode
  finished : List (List Char)
  deriving DecidableEq, Repr

namespace Scan

/-- Before the first character. -/
def start : Scan := ⟨.gap, []⟩

/-- The mode that a character outside every token leads to. -/
def enter (c : Char) : Mode :=
  if isSeparator c then .gap
  else if c = ';' then .comment
  else if c = '"' then .quoted [c] false
  else .word [c]

/-- Read one more character. -/
def step (scan : Scan) (c : Char) : Scan :=
  match scan.mode with
  | .gap => ⟨enter c, scan.finished⟩
  | .word chars =>
    if endsWord c then ⟨enter c, chars.reverse :: scan.finished⟩
    else ⟨.word (c :: chars), scan.finished⟩
  | .quoted chars true => ⟨.quoted (c :: chars) false, scan.finished⟩
  | .quoted chars false =>
    if c = '\\' then ⟨.quoted (c :: chars) true, scan.finished⟩
    else if c = '"' then ⟨.gap, (c :: chars).reverse :: scan.finished⟩
    else ⟨.quoted (c :: chars) false, scan.finished⟩
  | .comment => scan

/-- All tokens in reading order; a token still open at the end of the input counts. -/
def tokens (scan : Scan) : List (List Char) :=
  match scan.mode with
  | .gap | .comment => scan.finished.reverse
  | .word chars | .quoted chars _ => (chars.reverse :: scan.finished).reverse

end Scan

/-- The state of the lexer after the characters, started at `scan`. -/
def run (scan : Scan) (chars : List Char) : Scan := chars.foldl Scan.step scan

/-- The tokens of a sequence of characters. -/
def scanTokens (chars : List Char) : List (List Char) := (run .start chars).tokens

/-- The tokens of a text. -/
def tokenize (text : String) : List String := (scanTokens text.toList).map String.ofList

/-! ### Small laws -/

@[simp] theorem run_nil (scan : Scan) : run scan [] = scan := rfl

@[simp] theorem run_cons (scan : Scan) (c : Char) (rest : List Char) :
    run scan (c :: rest) = run (scan.step c) rest := rfl

theorem run_append (scan : Scan) (before after : List Char) :
    run scan (before ++ after) = run (run scan before) after :=
  List.foldl_append

/-- Inside a comment nothing changes any more. -/
theorem run_comment (finished : List (List Char)) (chars : List Char) :
    run ⟨.comment, finished⟩ chars = ⟨.comment, finished⟩ := by
  induction chars with
  | nil => rfl
  | cons c rest ih => exact ih

/-- Separators in a gap leave no trace. -/
theorem run_separators (finished : List (List Char)) (chars : List Char)
    (h : ∀ c ∈ chars, isSeparator c = true) : run ⟨.gap, finished⟩ chars = ⟨.gap, finished⟩ := by
  induction chars with
  | nil => rfl
  | cons c rest ih =>
    have hc : Scan.enter c = .gap := by simp [Scan.enter, h c List.mem_cons_self]
    rw [run_cons]
    simp only [Scan.step, hc]
    exact ih fun x hx => h x (List.mem_cons_of_mem c hx)

end EventScript.Token
