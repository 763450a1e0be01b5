/-!
Physical lines. A line ends at a line feed; a carriage return directly before that line feed belongs
to the line end, any other carriage return is an ordinary character. A last line needs no line feed,
and a text that ends in one has no empty line after it.

The cutter is a left fold over the characters, so what it does with a text followed by another one
is its run on the second, started where the first left off.
-/

namespace EventScript.Text

/-- What the cutter holds: the finished lines, latest first, and the open line, latest character
first. -/
structure LineScan where
  finished : List (List Char)
  current : List Char

namespace LineScan

/-- Before the first character. -/
def start : LineScan := ⟨[], []⟩

/-- The open line in reading order, without the carriage return of its line end. -/
def closed (scan : LineScan) : List Char :=
  match scan.current with
  | '\r' :: earlier => earlier.reverse
  | chars => chars.reverse

/-- Read one more character. -/
def step (scan : LineScan) (c : Char) : LineScan :=
  if c = '\n' then ⟨scan.closed :: scan.finished, []⟩ else ⟨scan.finished, c :: scan.current⟩

/-- All lines in reading order; an open line without characters is none. -/
def lines (scan : LineScan) : List (List Char) :=
  if scan.current.isEmpty then scan.finished.reverse
  else (scan.current.reverse :: scan.finished).reverse

end LineScan

/-- The physical lines of the characters of a text. -/
def charLines (chars : List Char) : List (List Char) :=
  (chars.foldl LineScan.step LineScan.start).lines

/-- The physical lines of a text. -/
def lines (text : String) : List String :=
  (charLines text.toList).map String.ofList

/-! ### Small laws -/

theorem foldl_step_of_no_feed (chars : List Char) (scan : LineScan) (h : '\n' ∉ chars) :
    chars.foldl LineScan.step scan = ⟨scan.finished, chars.reverse ++ scan.current⟩ := by
  induction chars generalizing scan with
  | nil => rfl
  | cons c rest ih =>
    simp only [List.mem_cons, not_or] at h
    obtain ⟨hc, hrest⟩ := h
    rw [List.foldl_cons, ih _ hrest]
    simp [LineScan.step, Ne.symm hc]

/-- A text without a line feed is one line, or none when it is empty. -/
theorem charLines_of_no_feed (chars : List Char) (h : '\n' ∉ chars) :
    charLines chars = if chars.isEmpty then [] else [chars] := by
  cases chars with
  | nil => rfl
  | cons c rest =>
    rw [charLines, foldl_step_of_no_feed _ _ h]
    simp [LineScan.lines, LineScan.start]

end EventScript.Text
