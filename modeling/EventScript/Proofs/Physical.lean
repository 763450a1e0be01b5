import Mathlib.Data.List.Basic
import EventScript.Text.Lines

/-!
Where physical lines start and end. A text that ends at a line start and another one after it have
the lines of both; so a line in the middle of a text can be looked at alone, up to its line end. A
carriage return in front of a line feed is not part of the line.

        front          line       line end   back
        ────────────┬───────────┬──────────┬─────────
        … \n  … \n  │ jump top  │  \r \n   │ end \n …
-/

namespace EventScript.Text

/-- A line starts after these characters. -/
def AtLineStart (front : List Char) : Prop := front = [] ∨ ∃ before, front = before ++ ['\n']

/-- A line ends in front of `rest`, and the next one starts with `back`. -/
inductive LineEnd : (rest back : List Char) → Prop
  | last : LineEnd [] []
  | feed (back : List Char) : LineEnd ('\n' :: back) back
  | returnFeed (back : List Char) : LineEnd ('\r' :: '\n' :: back) back

/-- The characters without a carriage return at the end. -/
def withoutReturn (chars : List Char) : List Char :=
  if chars.getLast? = some '\r' then chars.dropLast else chars

/-- The characters with a carriage return in front of every line feed. -/
def withReturns (chars : List Char) : List Char :=
  chars.flatMap fun c => if c = '\n' then ['\r', '\n'] else [c]

/-! ### Carriage returns -/

theorem withoutReturn_concat (chars : List Char) : withoutReturn (chars ++ ['\r']) = chars := by
  simp [withoutReturn]

theorem withoutReturn_of_ne {chars : List Char} (h : chars.getLast? ≠ some '\r') :
    withoutReturn chars = chars := if_neg h

theorem withoutReturn_append (chars : List Char) {more : List Char} (h : more ≠ []) :
    withoutReturn (chars ++ more) = chars ++ withoutReturn more := by
  have hlast : (chars ++ more).getLast? = more.getLast? := List.getLast?_append_of_ne_nil _ h
  unfold withoutReturn
  rw [hlast]
  split
  · exact List.dropLast_append_of_ne_nil h
  · rfl

theorem withoutReturn_cons {c : Char} (hc : c ≠ '\r') (chars : List Char) :
    withoutReturn (c :: chars) = c :: withoutReturn chars := by
  cases chars with
  | nil => simp [withoutReturn, hc]
  | cons next rest => exact withoutReturn_append [c] (List.cons_ne_nil next rest)

theorem withoutReturn_append_of_ne {chars : List Char} (h : ∀ c ∈ chars, c ≠ '\r')
    (more : List Char) : withoutReturn (chars ++ more) = chars ++ withoutReturn more := by
  induction chars with
  | nil => rfl
  | cons c rest ih =>
    rw [List.cons_append, withoutReturn_cons (h c List.mem_cons_self),
      ih fun x hx => h x (List.mem_cons_of_mem c hx), List.cons_append]

/-- A line is what it is without a carriage return, or that and the carriage return. -/
theorem withoutReturn_eq (chars : List Char) :
    withoutReturn chars = chars ∨ chars = withoutReturn chars ++ ['\r'] := by
  by_cases h : chars.getLast? = some '\r'
  · obtain ⟨before, rfl⟩ := List.getLast?_eq_some_iff.mp h
    exact .inr (by rw [withoutReturn_concat])
  · exact .inl (withoutReturn_of_ne h)

theorem isPrefix_withoutReturn (chars : List Char) : withoutReturn chars <+: chars := by
  rcases withoutReturn_eq chars with hsame | hreturn
  · exact ⟨[], by rw [hsame, List.append_nil]⟩
  · exact ⟨['\r'], hreturn.symm⟩

theorem closed_mk (finished : List (List Char)) (chars : List Char) :
    LineScan.closed ⟨finished, chars.reverse⟩ = withoutReturn chars := by
  rcases withoutReturn_eq chars with hsame | hreturn
  · have hne : chars.getLast? ≠ some '\r' := by
      intro hlast
      obtain ⟨before, rfl⟩ := List.getLast?_eq_some_iff.mp hlast
      simp [withoutReturn_concat] at hsame
    rw [hsame, LineScan.closed]
    split
    · next earlier hcurrent =>
      rw [List.reverse_eq_cons_iff] at hcurrent
      simp [hcurrent] at hne
    · rw [List.reverse_reverse]
  · rw [hreturn, withoutReturn_concat]
    simp [LineScan.closed]

/-! ### Parts of a text -/

theorem foldl_step_finished (chars : List Char) (scan : LineScan) :
    chars.foldl LineScan.step scan =
      ⟨(chars.foldl LineScan.step ⟨[], scan.current⟩).finished ++ scan.finished,
        (chars.foldl LineScan.step ⟨[], scan.current⟩).current⟩ := by
  induction chars generalizing scan with
  | nil => rfl
  | cons c rest ih =>
    rw [List.foldl_cons, List.foldl_cons, ih (scan.step c), ih (LineScan.step ⟨[], scan.current⟩ c)]
    by_cases hc : c = '\n'
    · simp [LineScan.step, hc, LineScan.closed]
    · simp [LineScan.step, hc]

/-- From a line start on, the lines are those of the rest alone. -/
theorem lines_foldl (chars : List Char) (finished : List (List Char)) :
    (chars.foldl LineScan.step ⟨finished, []⟩).lines = finished.reverse ++ charLines chars := by
  rw [foldl_step_finished, charLines, LineScan.start, LineScan.lines, LineScan.lines]
  split
  · simp
  · simp

theorem foldl_step_concat (before : List Char) :
    (before ++ ['\n']).foldl LineScan.step LineScan.start =
      ⟨(charLines (before ++ ['\n'])).reverse, []⟩ := by
  rw [charLines, List.foldl_append]
  simp [LineScan.step, LineScan.lines]

/-- A text that ends where a line starts has its lines in front of all others. -/
theorem charLines_append {front : List Char} (h : AtLineStart front) (back : List Char) :
    charLines (front ++ back) = charLines front ++ charLines back := by
  rcases h with rfl | ⟨before, rfl⟩
  · rfl
  · rw [charLines, List.foldl_append, foldl_step_concat, lines_foldl, List.reverse_reverse]

theorem charLines_feed {line : List Char} (h : '\n' ∉ line) (back : List Char) :
    charLines (line ++ '\n' :: back) = withoutReturn line :: charLines back := by
  have hline : charLines (line ++ ['\n']) = [withoutReturn line] := by
    rw [charLines, List.foldl_append, foldl_step_of_no_feed _ _ h]
    simp [LineScan.step, LineScan.lines, LineScan.start, closed_mk]
  rw [List.append_cons, charLines_append (.inr ⟨line, rfl⟩), hline, List.singleton_append]

/-- Lines with a line feed after each of them are the lines of the text. -/
theorem charLines_fed {lines : List (List Char)}
    (h : ∀ line ∈ lines, '\n' ∉ line ∧ line.getLast? ≠ some '\r') :
    charLines (lines.flatMap (· ++ ['\n'])) = lines := by
  induction lines with
  | nil => rfl
  | cons line rest ih =>
    obtain ⟨hfeed, hreturn⟩ := h line List.mem_cons_self
    rw [List.flatMap_cons, List.append_assoc, List.singleton_append, charLines_feed hfeed,
      withoutReturn_of_ne hreturn, ih fun other hmem => h other (List.mem_cons_of_mem line hmem)]

/-- Every text is a line up to its end and whatever follows. -/
theorem exists_line (chars : List Char) :
    ∃ line, '\n' ∉ line ∧ (chars = line ∨ ∃ back, chars = line ++ '\n' :: back) := by
  by_cases h : '\n' ∈ chars
  · obtain ⟨line, back, rfl, hline⟩ := List.eq_append_cons_of_mem h
    exact ⟨line, hline, .inr ⟨back, rfl⟩⟩
  · exact ⟨chars, h, .inl rfl⟩

/-- No line has a line feed in it. -/
theorem feed_notMem_of_mem_charLines {chars line : List Char} (h : line ∈ charLines chars) :
    '\n' ∉ line := by
  induction hlength : chars.length using Nat.strongRecOn generalizing chars with
  | ind length ih =>
    obtain ⟨first, hfirst, hchars⟩ := exists_line chars
    rcases hchars with rfl | ⟨back, rfl⟩
    · rw [charLines_of_no_feed _ hfirst] at h
      split at h
      · simp at h
      · rwa [List.mem_singleton.mp h]
    · rw [charLines_feed hfirst] at h
      rcases List.mem_cons.mp h with rfl | hback
      · exact fun hmem => hfirst ((isPrefix_withoutReturn first).mem hmem)
      · have hshorter : back.length < length := by
          rw [← hlength, List.length_append, List.length_cons]
          omega
        exact ih _ hshorter hback rfl

/-! ### Other line ends -/

theorem closed_return {scan : LineScan} (h : '\r' ∉ scan.current) :
    LineScan.closed ⟨scan.finished, '\r' :: scan.current⟩ = scan.closed := by
  cases hcurrent : scan.current with
  | nil => simp [LineScan.closed, hcurrent]
  | cons c earlier =>
    have hc : c ≠ '\r' := by
      rintro rfl
      simp [hcurrent] at h
    simp [LineScan.closed, hcurrent, hc]

theorem foldl_step_withReturns {chars : List Char} {scan : LineScan} (hchars : '\r' ∉ chars)
    (hscan : '\r' ∉ scan.current) :
    (withReturns chars).foldl LineScan.step scan = chars.foldl LineScan.step scan := by
  induction chars generalizing scan with
  | nil => rfl
  | cons c rest ih =>
    simp only [List.mem_cons, not_or] at hchars
    obtain ⟨hc, hrest⟩ := hchars
    rw [withReturns, List.flatMap_cons, List.foldl_append, List.foldl_cons, ← withReturns]
    by_cases hfeed : c = '\n'
    · subst hfeed
      have hstep : ['\r', '\n'].foldl LineScan.step scan = scan.step '\n' := by
        simp [LineScan.step, closed_return hscan]
      rw [if_pos rfl, hstep]
      exact ih hrest (by simp [LineScan.step])
    · rw [if_neg hfeed, List.foldl_cons, List.foldl_nil]
      exact ih hrest (by simp [LineScan.step, hfeed, hscan, hc])

/-- Where there is no carriage return, the lines are the same with a carriage return in front of
every line feed. -/
theorem charLines_withReturns {chars : List Char} (h : '\r' ∉ chars) :
    charLines (withReturns chars) = charLines chars := by
  rw [charLines, foldl_step_withReturns h (List.not_mem_nil), charLines]

end EventScript.Text
