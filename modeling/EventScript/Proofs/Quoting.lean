import Mathlib.Data.List.Basic
import Mathlib.Data.List.Induction
import EventScript.Token.Lexer

/-!
Quotes and comments on a line. Read from the front, the characters of a line are outside all quotes
and comments, or a semicolon outside has started a comment, or a quotation mark outside has started
a quote that is not closed yet. What the lexer does next depends on which of the three it is.

        jump top          outside
        say "hi; \"       in a quote that is still open
        say "hi" ; "      in a comment
-/

namespace EventScript.Token

/-! ### Forms -/

/-- What can stand between the quotation marks of a quoted token: a backslash has a character after
it, and there is no quotation mark but after a backslash. -/
inductive QuotedBody : List Char → Prop
  | nil : QuotedBody []
  | plain {c : Char} {rest : List Char} (hquote : c ≠ '"') (hescape : c ≠ '\\')
      (hrest : QuotedBody rest) : QuotedBody (c :: rest)
  | escaped {c : Char} {rest : List Char} (hrest : QuotedBody rest) :
      QuotedBody ('\\' :: c :: rest)

/-- Characters after which the next one is outside all quotes and comments. -/
inductive Outside : List Char → Prop
  | nil : Outside []
  | plain {c : Char} {rest : List Char} (hquote : c ≠ '"') (hcomment : c ≠ ';')
      (hrest : Outside rest) : Outside (c :: rest)
  | quoted {body rest : List Char} (hbody : QuotedBody body) (hrest : Outside rest) :
      Outside ('"' :: (body ++ '"' :: rest))

/-- Characters that stand between words: one separator or more. -/
def IsGap (gap : List Char) : Prop := gap ≠ [] ∧ ∀ c ∈ gap, isSeparator c = true

/-- Characters that leave no quote open. -/
def Closed (chars : List Char) : Prop :=
  Outside chars ∨ ∃ front comment, chars = front ++ ';' :: comment ∧ Outside front

theorem QuotedBody.append {body more : List Char} (h : QuotedBody body) (hmore : QuotedBody more) :
    QuotedBody (body ++ more) := by
  induction h with
  | nil => exact hmore
  | plain hquote hescape _ ih => exact .plain hquote hescape ih
  | escaped _ ih => exact .escaped ih

theorem Outside.append {chars more : List Char} (h : Outside chars) (hmore : Outside more) :
    Outside (chars ++ more) := by
  induction h with
  | nil => exact hmore
  | plain hquote hcomment _ ih => exact .plain hquote hcomment ih
  | quoted hbody _ ih => simpa using Outside.quoted hbody ih

theorem outside_of_forall {chars : List Char} (h : ∀ c ∈ chars, c ≠ '"' ∧ c ≠ ';') :
    Outside chars := by
  induction chars with
  | nil => exact .nil
  | cons c rest ih =>
    obtain ⟨hquote, hcomment⟩ := h c List.mem_cons_self
    exact .plain hquote hcomment (ih fun x hx => h x (List.mem_cons_of_mem c hx))

theorem Outside.closed_comment {front : List Char} (h : Outside front) (comment : List Char) :
    Closed (front ++ ';' :: comment) := .inr ⟨front, comment, rfl, h⟩

theorem Closed.comment {line : List Char} (h : Closed line) (text : List Char) :
    Closed (line ++ ';' :: text) := by
  rcases h with houtside | ⟨front, earlier, rfl, hfront⟩
  · exact houtside.closed_comment text
  · rw [List.append_assoc, List.cons_append]
    exact hfront.closed_comment _

theorem Outside.closed_gap {front gap : List Char} (h : Outside front) (hgap : IsGap gap) :
    Closed (front ++ gap) := by
  refine .inl (h.append (outside_of_forall fun c hmem => ?_))
  have hc := hgap.2 c hmem
  constructor
  · rintro rfl
    exact absurd hc (by decide)
  · rintro rfl
    exact absurd hc (by decide)

/-- Characters that leave a quote open hold its quotation mark, with no end of the quote after it
and perhaps a backslash that still waits for its character. -/
def LeavesOpen (chars : List Char) : Prop :=
  ∃ front body, Outside front ∧ QuotedBody body ∧
    (chars = front ++ '"' :: body ∨ chars = front ++ '"' :: (body ++ ['\\']))

/-- Every line has one of the forms. -/
theorem closed_or_leavesOpen (chars : List Char) : Closed chars ∨ LeavesOpen chars := by
  induction chars using List.reverseRecOn with
  | nil => exact .inl (.inl .nil)
  | append_singleton chars c ih =>
    rcases ih with (houtside | ⟨front, comment, rfl, hfront⟩) |
      ⟨front, body, hfront, hbody, rfl | rfl⟩
    · by_cases hquote : c = '"'
      · subst hquote
        exact .inr ⟨chars, [], houtside, .nil, .inl rfl⟩
      · by_cases hcomment : c = ';'
        · subst hcomment
          exact .inl (houtside.closed_comment [])
        · exact .inl (.inl (houtside.append (.plain hquote hcomment .nil)))
    · left
      rw [List.append_assoc, List.cons_append]
      exact hfront.closed_comment _
    · by_cases hquote : c = '"'
      · subst hquote
        left
        left
        simpa using hfront.append (.quoted hbody .nil)
      · by_cases hescape : c = '\\'
        · subst hescape
          exact .inr ⟨front, body, hfront, hbody, .inr (by simp)⟩
        · exact .inr ⟨front, body ++ [c], hfront, hbody.append (.plain hquote hescape .nil),
            .inl (by simp)⟩
    · -- whatever comes after the backslash belongs to the quote
      exact .inr ⟨front, body ++ ['\\', c], hfront, hbody.append (.escaped .nil), .inl (by simp)⟩

/-! ### The lexer on them -/

namespace Scan

/-- The lexer stands outside all quotes and comments. -/
def IsOutside (scan : Scan) : Prop := scan.mode = .gap ∨ ∃ chars, scan.mode = .word chars

/-- The finished tokens, counting an open one, latest first. -/
def settled (scan : Scan) : List (List Char) :=
  match scan.mode with
  | .gap | .comment => scan.finished
  | .word chars | .quoted chars _ => chars.reverse :: scan.finished

theorem isOutside_start : start.IsOutside := .inl rfl

theorem tokens_eq (scan : Scan) : scan.tokens = scan.settled.reverse := by
  unfold tokens settled
  cases scan.mode <;> rfl

/-- A character that ends words is read the same in a gap and at the end of a word. -/
theorem IsOutside.step_of_endsWord {scan : Scan} (h : scan.IsOutside) {c : Char}
    (hc : endsWord c = true) : scan.step c = ⟨enter c, scan.settled⟩ := by
  rcases h with hgap | ⟨chars, hword⟩
  · simp [step, settled, hgap]
  · simp [step, settled, hword, hc]

theorem IsOutside.step {scan : Scan} (h : scan.IsOutside) {c : Char} (hquote : c ≠ '"')
    (hcomment : c ≠ ';') : (scan.step c).IsOutside := by
  have henter : enter c = .gap ∨ enter c = .word [c] := by
    by_cases hseparator : isSeparator c = true
    · exact .inl (if_pos hseparator)
    · exact .inr (by rw [enter, if_neg hseparator, if_neg hcomment, if_neg hquote])
  rcases h with hgap | ⟨chars, hword⟩
  · rcases henter with henter | henter
    · exact .inl (by simp [Scan.step, hgap, henter])
    · exact .inr ⟨[c], by simp [Scan.step, hgap, henter]⟩
  · by_cases hends : endsWord c = true
    · rcases henter with henter | henter
      · exact .inl (by simp [Scan.step, hword, hends, henter])
      · exact .inr ⟨[c], by simp [Scan.step, hword, hends, henter]⟩
    · exact .inr ⟨c :: chars, by simp [Scan.step, hword, hends]⟩

end Scan

/-- The inside of a quote is read as it is. -/
theorem run_quotedBody {body : List Char} (h : QuotedBody body) (opened : List Char)
    (finished : List (List Char)) :
    run ⟨.quoted opened false, finished⟩ body =
      ⟨.quoted (body.reverse ++ opened) false, finished⟩ := by
  induction h generalizing opened with
  | nil => rfl
  | @plain c rest hquote hescape _ ih =>
    rw [run_cons]
    simp only [Scan.step, hquote, hescape, if_false]
    rw [ih]
    simp
  | @escaped c rest _ ih =>
    rw [run_cons, run_cons]
    simp only [Scan.step, if_true]
    rw [ih]
    simp

/-- A complete quote is a token of its own, also directly after a word. -/
theorem run_quoted {body : List Char} (h : QuotedBody body) {scan : Scan} (hscan : scan.IsOutside) :
    run scan ('"' :: (body ++ ['"'])) = ⟨.gap, ('"' :: (body ++ ['"'])) :: scan.settled⟩ := by
  have hopen : scan.step '"' = ⟨.quoted ['"'] false, scan.settled⟩ :=
    hscan.step_of_endsWord (by decide)
  rw [run_cons, hopen, run_append, run_quotedBody h]
  simp [Scan.step]

theorem run_outside {chars : List Char} (h : Outside chars) {scan : Scan}
    (hscan : scan.IsOutside) : (run scan chars).IsOutside := by
  induction h generalizing scan with
  | nil => exact hscan
  | plain hquote hcomment _ ih => exact ih (hscan.step hquote hcomment)
  | @quoted body rest hbody _ ih =>
    have hsplit : '"' :: (body ++ '"' :: rest) = ('"' :: (body ++ ['"'])) ++ rest := by simp
    rw [hsplit, run_append, run_quoted hbody hscan]
    exact ih (.inl rfl)

theorem run_semicolon {scan : Scan} (h : scan.IsOutside) (comment : List Char) :
    run scan (';' :: comment) = ⟨.comment, scan.settled⟩ := by
  have hopen : scan.step ';' = ⟨.comment, scan.settled⟩ := h.step_of_endsWord (by decide)
  rw [run_cons, hopen, run_comment]

/-- Separators outside end a word and leave a gap, whichever they are. -/
theorem run_gap {scan : Scan} (h : scan.IsOutside) {gap : List Char} (hgap : IsGap gap) :
    run scan gap = ⟨.gap, scan.settled⟩ := by
  obtain ⟨hne, hseparators⟩ := hgap
  cases gap with
  | nil => exact absurd rfl hne
  | cons c rest =>
    have hc : isSeparator c = true := hseparators c List.mem_cons_self
    have hends : endsWord c = true := by simp [endsWord, hc]
    have henter : Scan.enter c = .gap := if_pos hc
    rw [run_cons, h.step_of_endsWord hends, henter]
    exact run_separators _ rest fun x hx => hseparators x (List.mem_cons_of_mem c hx)

/-- After characters that leave no quote open the lexer stands outside or in a comment. -/
theorem run_closed {chars : List Char} (h : Closed chars) :
    (run .start chars).IsOutside ∨ (run .start chars).mode = .comment := by
  rcases h with houtside | ⟨front, comment, rfl, hfront⟩
  · exact .inl (run_outside houtside Scan.isOutside_start)
  · rw [run_append, run_semicolon (run_outside hfront Scan.isOutside_start)]
    exact .inr rfl

/-- After characters that leave a quote open the lexer stands in it. -/
theorem run_leavesOpen {chars : List Char} (h : LeavesOpen chars) :
    ∃ opened escaping, (run .start chars).mode = .quoted opened escaping := by
  obtain ⟨front, body, hfront, hbody, hchars⟩ := h
  have hopen : (run .start front).step '"' = ⟨.quoted ['"'] false, (run .start front).settled⟩ :=
    (run_outside hfront Scan.isOutside_start).step_of_endsWord (by decide)
  rcases hchars with rfl | rfl
  · rw [run_append, run_cons, hopen, run_quotedBody hbody]
    exact ⟨_, false, rfl⟩
  · rw [run_append, run_cons, hopen, run_append, run_quotedBody hbody]
    exact ⟨_, true, rfl⟩

/-- The characters leave no quote open exactly when the lexer stands in none after them. -/
theorem closed_iff {chars : List Char} :
    Closed chars ↔ ∀ opened escaping, (run .start chars).mode ≠ .quoted opened escaping := by
  constructor
  · intro h opened escaping hmode
    rcases run_closed h with (hgap | ⟨word, hword⟩) | hcomment
    · simp [hgap] at hmode
    · simp [hword] at hmode
    · simp [hcomment] at hmode
  · intro h
    refine (closed_or_leavesOpen chars).resolve_right fun hopen => ?_
    obtain ⟨opened, escaping, hmode⟩ := run_leavesOpen hopen
    exact h opened escaping hmode

/-! ### Tokens -/

theorem scanTokens_eq (chars : List Char) :
    scanTokens chars = (run .start chars).settled.reverse := Scan.tokens_eq _

theorem scanTokens_comment {line : List Char} (h : Closed line) (text : List Char) :
    scanTokens (line ++ ';' :: text) = scanTokens line := by
  rw [scanTokens_eq, scanTokens_eq, run_append]
  rcases run_closed h with houtside | hcomment
  · rw [run_semicolon houtside]
    rfl
  · generalize run .start line = scan at hcomment
    obtain ⟨mode, finished⟩ := scan
    subst hcomment
    rw [run_comment]

/-- It makes no difference which separators stand between words. -/
theorem scanTokens_respace {before gap other : List Char} (h : Outside before) (hgap : IsGap gap)
    (hother : IsGap other) (after : List Char) :
    scanTokens (before ++ (gap ++ after)) = scanTokens (before ++ (other ++ after)) := by
  have houtside := run_outside h Scan.isOutside_start
  rw [scanTokens_eq, scanTokens_eq, run_append, run_append, run_gap houtside hgap, run_append,
    run_append, run_gap houtside hother]

/-- A carriage return at the end counts for nothing unless a quote is open. -/
theorem scanTokens_return {line : List Char} (h : Closed line) :
    scanTokens (line ++ ['\r']) = scanTokens line := by
  rw [scanTokens_eq, scanTokens_eq, run_append]
  rcases run_closed h with houtside | hcomment
  · have hgap : IsGap ['\r'] := ⟨List.cons_ne_nil _ _, List.forall_mem_singleton.mpr rfl⟩
    rw [run_gap houtside hgap]
    rfl
  · rw [run_cons, run_nil, Scan.step, hcomment]

/-- A carriage return never closes a quote. -/
theorem closed_of_return {line : List Char} (h : Closed (line ++ ['\r'])) : Closed line := by
  rw [closed_iff] at h ⊢
  intro opened escaping hmode
  rw [run_append, run_cons, run_nil] at h
  cases escaping with
  | true => exact h ('\r' :: opened) false (by simp [Scan.step, hmode])
  | false => exact h ('\r' :: opened) false (by simp [Scan.step, hmode])

theorem run_word {word : List Char} (hne : word ≠ []) (h : ∀ c ∈ word, endsWord c = false)
    (finished : List (List Char)) : run ⟨.gap, finished⟩ word = ⟨.word word.reverse, finished⟩ := by
  have hmore : ∀ (more opened : List Char), (∀ c ∈ more, endsWord c = false) →
      run ⟨.word opened, finished⟩ more = ⟨.word (more.reverse ++ opened), finished⟩ := by
    intro more
    induction more with
    | nil => exact fun _ _ => rfl
    | cons c rest ih =>
      intro opened hends
      rw [run_cons]
      simp only [Scan.step, hends c List.mem_cons_self, Bool.false_eq_true, if_false]
      rw [ih _ fun x hx => hends x (List.mem_cons_of_mem c hx)]
      simp
  cases word with
  | nil => exact absurd rfl hne
  | cons c rest =>
    have hc := h c List.mem_cons_self
    simp only [endsWord, Bool.or_eq_false_iff, beq_eq_false_iff_ne] at hc
    obtain ⟨⟨hseparator, hcomment⟩, hquote⟩ := hc
    have henter : Scan.enter c = .word [c] := by simp [Scan.enter, hseparator, hcomment, hquote]
    rw [run_cons]
    simp only [Scan.step, henter]
    rw [hmore rest [c] fun x hx => h x (List.mem_cons_of_mem c hx)]
    simp

theorem Scan.finished_suffix_step (scan : Scan) (c : Char) :
    scan.finished <:+ (scan.step c).finished := by
  obtain ⟨mode, finished⟩ := scan
  cases mode with
  | gap | comment => exact List.suffix_refl _
  | word word =>
    simp only [step]
    split
    · exact List.suffix_cons _ _
    · exact List.suffix_refl _
  | quoted opened escaping =>
    cases escaping with
    | true => exact List.suffix_refl _
    | false =>
      simp only [step]
      split
      · exact List.suffix_refl _
      · split
        · exact List.suffix_cons _ _
        · exact List.suffix_refl _

/-- Tokens that are finished stay the first ones. -/
theorem finished_suffix_run (scan : Scan) (chars : List Char) :
    scan.finished <:+ (run scan chars).finished := by
  induction chars generalizing scan with
  | nil => exact List.suffix_refl _
  | cons c rest ih => exact (scan.finished_suffix_step c).trans (ih (scan.step c))

theorem finished_suffix_settled_run (scan : Scan) (chars : List Char) :
    scan.finished <:+ (run scan chars).settled := by
  refine (finished_suffix_run scan chars).trans ?_
  generalize run scan chars = ending
  obtain ⟨mode, finished⟩ := ending
  cases mode with
  | gap | comment => exact List.suffix_refl _
  | word | quoted => exact List.suffix_cons _ _

end EventScript.Token
