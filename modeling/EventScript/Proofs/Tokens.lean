import EventScript.Proofs.Quoting

/-!
What the lexer makes of an input. It loses nothing and invents nothing: the input is the tokens,
each with the separators in front of it, and then perhaps more separators and a comment. A quoted
token ends at the first quotation mark that is not escaped, and that one is found by counting the
backslashes in front of it.

        input     ␣say x"a;\"b",top ; again
        tokens    ␣say
                  ␣x
                  "a;\"b"
                  ,top
        rest      ␣; again
-/

namespace EventScript.Token

/-! ### Where a quote ends -/

/-- How many backslashes the characters end with. -/
def trailingBackslashes (chars : List Char) : Nat :=
  (chars.reverse.takeWhile (· = '\\')).length

/-- The characters end with an odd run of backslashes. -/
def EscapesNext (chars : List Char) : Prop := trailingBackslashes chars % 2 = 1

instance (chars : List Char) : Decidable (EscapesNext chars) :=
  inferInstanceAs (Decidable (trailingBackslashes chars % 2 = 1))

/-- Every quotation mark among the characters comes after an odd run of backslashes. -/
def NoneCloses (body : List Char) : Prop :=
  ∀ before after, body = before ++ '"' :: after → EscapesNext before

theorem escapesNext_concat {chars : List Char} {c : Char} :
    EscapesNext (chars ++ [c]) ↔ c = '\\' ∧ ¬EscapesNext chars := by
  unfold EscapesNext trailingBackslashes
  rw [List.reverse_concat, List.takeWhile_cons]
  by_cases hescape : c = '\\'
  · simp only [hescape, decide_true, if_true, List.length_cons, true_and]
    omega
  · simp [hescape]

theorem noneCloses_nil : NoneCloses [] := by
  intro before after hbody
  simp at hbody

theorem noneCloses_concat {body : List Char} {c : Char} :
    NoneCloses (body ++ [c]) ↔ NoneCloses body ∧ (c = '"' → EscapesNext body) := by
  constructor
  · intro h
    refine ⟨fun before after hbody => h before (after ++ [c]) (by simp [hbody]), ?_⟩
    rintro rfl
    exact h body [] rfl
  · rintro ⟨hbody, hlast⟩ before after hsplit
    rcases List.eq_nil_or_concat' after with rfl | ⟨front, last, rfl⟩
    · obtain ⟨rfl, hc⟩ := List.append_inj' hsplit rfl
      exact hlast (List.singleton_inj.mp hc)
    · have hmore : body ++ [c] = (before ++ '"' :: front) ++ [last] := by simpa using hsplit
      exact hbody before front (List.append_inj' hmore rfl).1

/-- Either no quotation mark ends the quote or there is a first one that does. -/
theorem noneCloses_or_exists (chars : List Char) :
    NoneCloses chars ∨ ∃ body after, chars = body ++ '"' :: after ∧ NoneCloses body ∧
      ¬EscapesNext body := by
  induction chars using List.reverseRecOn with
  | nil => exact .inl noneCloses_nil
  | append_singleton chars c ih =>
    rcases ih with hnone | ⟨body, after, rfl, hbody, hends⟩
    · by_cases hcloses : c = '"' ∧ ¬EscapesNext chars
      · obtain ⟨rfl, hends⟩ := hcloses
        exact .inr ⟨chars, [], rfl, hnone, hends⟩
      · exact .inl (noneCloses_concat.mpr ⟨hnone, by simpa using hcloses⟩)
    · exact .inr ⟨body, after ++ [c], by simp, hbody, hends⟩

/-- Characters of which none closes the quote are the inside of one, perhaps with a backslash that
still waits for its character. -/
theorem quotedBody_of_noneCloses {body : List Char} (h : NoneCloses body) :
    (¬EscapesNext body → QuotedBody body) ∧
      (EscapesNext body → ∃ front, body = front ++ ['\\'] ∧ QuotedBody front) := by
  induction body using List.reverseRecOn with
  | nil => exact ⟨fun _ => .nil, fun hescapes => absurd hescapes (by decide)⟩
  | append_singleton body c ih =>
    obtain ⟨hbody, hlast⟩ := noneCloses_concat.mp h
    obtain ⟨hplain, hescaped⟩ := ih hbody
    rw [escapesNext_concat]
    by_cases hescapes : EscapesNext body
    · obtain ⟨front, rfl, hfront⟩ := hescaped hescapes
      refine ⟨fun _ => ?_, fun hc => absurd hescapes hc.2⟩
      -- the backslash that was waiting has its character now
      rw [List.append_assoc]
      exact hfront.append (.escaped .nil)
    · refine ⟨fun hc => ?_, fun hc => ⟨body, by rw [hc.1], hplain hescapes⟩⟩
      have hescape : c ≠ '\\' := fun hc' => hc ⟨hc', hescapes⟩
      have hquote : c ≠ '"' := fun hc' => hescapes (hlast hc')
      exact (hplain hescapes).append (.plain hquote hescape .nil)

/-! ### Tokens -/

/-- The characters make a word: there are some, and none of them is a separator, a semicolon or a
quotation mark. -/
def IsUnquoted (token : List Char) : Prop := token ≠ [] ∧ ∀ c ∈ token, endsWord c = false

/-- What can be a token in front of the characters after it. A word goes on to the next character
that ends words; a quoted token goes on to the first quotation mark that is not escaped, or to the
end where there is none. -/
inductive IsToken : List Char → List Char → Prop
  | word {word after : List Char} (hword : IsUnquoted word)
      (hends : ∀ c ∈ after.head?, endsWord c = true) : IsToken word after
  | closed {body after : List Char} (hbody : NoneCloses body) (hcloses : ¬EscapesNext body) :
      IsToken ('"' :: (body ++ ['"'])) after
  | unclosed {body : List Char} (hbody : NoneCloses body) : IsToken ('"' :: body) []

/-- A token and the separators in front of it. -/
structure Lexeme where
  gap : List Char
  token : List Char

/-- The characters of a lexeme. -/
def Lexeme.chars (lexeme : Lexeme) : List Char := lexeme.gap ++ lexeme.token

/-- The token of a lexeme as the lexer gives it. -/
def Lexeme.text (lexeme : Lexeme) : String := String.ofList lexeme.token

/-- The input is the lexemes one after the other, then perhaps separators and a comment. -/
inductive Splits : List Lexeme → List Char → Prop
  | rest {gap tail : List Char} (hgap : ∀ c ∈ gap, isSeparator c = true)
      (htail : tail = [] ∨ ∃ comment, tail = ';' :: comment) : Splits [] (gap ++ tail)
  | lexeme {lexeme : Lexeme} {lexemes : List Lexeme} {after : List Char}
      (hgap : ∀ c ∈ lexeme.gap, isSeparator c = true) (htoken : IsToken lexeme.token after)
      (hafter : Splits lexemes after) : Splits (lexeme :: lexemes) (lexeme.chars ++ after)

theorem IsUnquoted.exists_cons {word : List Char} (h : IsUnquoted word) :
    ∃ c rest, word = c :: rest ∧ endsWord c = false := by
  obtain ⟨hne, hword⟩ := h
  obtain ⟨c, rest, rfl⟩ := List.exists_cons_of_ne_nil hne
  exact ⟨c, rest, rfl, hword c List.mem_cons_self⟩

theorem not_isUnquoted_quote (chars : List Char) : ¬IsUnquoted ('"' :: chars) := by
  rintro ⟨-, hword⟩
  exact absurd (hword '"' List.mem_cons_self) (by decide)

namespace IsToken
variable {token after : List Char}

theorem ne_nil (h : IsToken token after) : token ≠ [] := by
  cases h with
  | word hword => exact hword.1
  | closed | unclosed => exact List.cons_ne_nil _ _

theorem alone (h : IsToken token after) : IsToken token [] := by
  cases h with
  | word hword => exact .word hword (by simp)
  | closed hbody hcloses => exact .closed hbody hcloses
  | unclosed hbody => exact .unclosed hbody

/-- A token with something after it stays one when a space comes next: it is no open quote. -/
theorem spaced (h : IsToken token after) (hafter : after ≠ []) (more : List Char) :
    IsToken token (' ' :: more) := by
  cases h with
  | word hword => exact .word hword (by simp [endsWord, isSeparator])
  | closed hbody hcloses => exact .closed hbody hcloses
  | unclosed => exact absurd rfl hafter

end IsToken

/-! ### The lexer on a token -/

/-- Where a character that ends words comes next, an open word counts as finished. -/
theorem run_of_endsWord {scan : Scan} (h : scan.IsOutside) {c : Char} (hc : endsWord c = true)
    (rest : List Char) : run scan (c :: rest) = run ⟨.gap, scan.settled⟩ (c :: rest) := by
  rw [run_cons, run_cons, h.step_of_endsWord hc, Scan.IsOutside.step_of_endsWord (.inl rfl) hc]
  rfl

/-- After an opening quotation mark and characters of which none closes, the quote is open, and the
lexer knows whether the last run of backslashes was odd. -/
theorem run_unclosed {body : List Char} (h : NoneCloses body) (finished : List (List Char)) :
    run ⟨.gap, finished⟩ ('"' :: body) =
      ⟨.quoted ('"' :: body).reverse (EscapesNext body), finished⟩ := by
  have hopen : Scan.step ⟨.gap, finished⟩ '"' = ⟨.quoted ['"'] false, finished⟩ := rfl
  obtain ⟨hplain, hescaped⟩ := quotedBody_of_noneCloses h
  rw [run_cons, hopen]
  by_cases hescapes : EscapesNext body
  · obtain ⟨front, rfl, hfront⟩ := hescaped hescapes
    rw [run_append, run_quotedBody hfront]
    simp [Scan.step, hescapes]
  · rw [run_quotedBody (hplain hescapes)]
    simp [hescapes]

theorem run_closing {body : List Char} (h : NoneCloses body) (hcloses : ¬EscapesNext body)
    (finished : List (List Char)) :
    run ⟨.gap, finished⟩ ('"' :: (body ++ ['"'])) =
      ⟨.gap, ('"' :: (body ++ ['"'])) :: finished⟩ :=
  run_quoted ((quotedBody_of_noneCloses h).1 hcloses) (.inl rfl)

/-- A token with something after it is read as one. -/
theorem run_token {token : List Char} {c : Char} {rest : List Char} (h : IsToken token (c :: rest))
    (finished : List (List Char)) :
    run ⟨.gap, finished⟩ (token ++ c :: rest) = run ⟨.gap, token :: finished⟩ (c :: rest) := by
  rw [run_append]
  cases h with
  | word hword hends =>
    rw [run_word hword.1 hword.2, run_of_endsWord (.inr ⟨_, rfl⟩) (hends c rfl)]
    simp [Scan.settled]
  | closed hbody hcloses => rw [run_closing hbody hcloses]

theorem settled_run_alone {token : List Char} (h : IsToken token [])
    (finished : List (List Char)) : (run ⟨.gap, finished⟩ token).settled = token :: finished := by
  cases h with
  | word hword => simp [run_word hword.1 hword.2, Scan.settled]
  | closed hbody hcloses => simp [run_closing hbody hcloses, Scan.settled]
  | unclosed hbody => simp [run_unclosed hbody, Scan.settled]

theorem settled_run_token {token after : List Char} (h : IsToken token after)
    (finished : List (List Char)) :
    (run ⟨.gap, finished⟩ (token ++ after)).settled =
      (run ⟨.gap, token :: finished⟩ after).settled := by
  cases after with
  | nil =>
    rw [List.append_nil, settled_run_alone h]
    rfl
  | cons c rest => rw [run_token h]

/-- The lexer finds the tokens of the lexemes. -/
theorem settled_run_splits {lexemes : List Lexeme} {input : List Char} (h : Splits lexemes input)
    (finished : List (List Char)) :
    (run ⟨.gap, finished⟩ input).settled = (lexemes.map Lexeme.token).reverse ++ finished := by
  induction h generalizing finished with
  | rest hgap htail =>
    rw [run_append, run_separators _ _ hgap]
    rcases htail with rfl | ⟨comment, rfl⟩
    · rfl
    · rw [run_semicolon (.inl rfl)]
      rfl
  | @lexeme lexeme lexemes after hgap htoken _ ih =>
    rw [Lexeme.chars, List.append_assoc, run_append, run_separators _ _ hgap,
      settled_run_token htoken, ih]
    simp

/-! ### Every input splits -/

theorem exists_span (kind : Char → Bool) (chars : List Char) :
    ∃ front back, chars = front ++ back ∧ (∀ c ∈ front, kind c = true) ∧
      ∀ c ∈ back.head?, kind c = false := by
  induction chars with
  | nil => exact ⟨[], [], rfl, by simp, by simp⟩
  | cons c rest ih =>
    by_cases hc : kind c = true
    · obtain ⟨front, back, rfl, hfront, hback⟩ := ih
      exact ⟨c :: front, back, rfl, List.forall_mem_cons.mpr ⟨hc, hfront⟩, hback⟩
    · exact ⟨[], c :: rest, rfl, by simp, by simpa using hc⟩

/-- Where no separator and no comment comes next there is a token. -/
theorem exists_isToken {c : Char} (hgap : isSeparator c = false) (hcomment : c ≠ ';')
    (rest : List Char) : ∃ token after, c :: rest = token ++ after ∧ IsToken token after := by
  by_cases hquote : c = '"'
  · subst hquote
    rcases noneCloses_or_exists rest with hnone | ⟨body, after, rfl, hbody, hcloses⟩
    · exact ⟨'"' :: rest, [], by simp, .unclosed hnone⟩
    · exact ⟨'"' :: (body ++ ['"']), after, by simp, .closed hbody hcloses⟩
  · have hc : endsWord c = false := by simp [endsWord, hgap, hcomment, hquote]
    obtain ⟨front, after, hrest, hfront, hafter⟩ := exists_span (!endsWord ·) rest
    refine ⟨c :: front, after, by rw [hrest, List.cons_append], .word ⟨by simp, ?_⟩ ?_⟩
    · exact List.forall_mem_cons.mpr ⟨hc, by simpa using hfront⟩
    · simpa using hafter

/-- Every input splits into lexemes. -/
theorem exists_splits (input : List Char) : ∃ lexemes, Splits lexemes input := by
  -- each lexeme leaves fewer characters after it
  induction hlength : input.length using Nat.strongRecOn generalizing input with
  | _ count ih =>
    obtain ⟨gap, rest, rfl, hgap, hrest⟩ := exists_span isSeparator input
    cases rest with
    | nil => exact ⟨[], .rest hgap (.inl rfl)⟩
    | cons c rest =>
      by_cases hcomment : c = ';'
      · subst hcomment
        exact ⟨[], .rest hgap (.inr ⟨rest, rfl⟩)⟩
      · obtain ⟨token, after, hsplit, htoken⟩ := exists_isToken (hrest c rfl) hcomment rest
        have hpos : 0 < token.length := List.length_pos_iff.mpr htoken.ne_nil
        have hshorter : after.length < count := by
          rw [← hlength, hsplit]
          simp only [List.length_append]
          omega
        obtain ⟨lexemes, hlexemes⟩ := ih _ hshorter after rfl
        refine ⟨⟨gap, token⟩ :: lexemes, ?_⟩
        rw [hsplit, ← List.append_assoc]
        exact @Splits.lexeme ⟨gap, token⟩ _ _ hgap htoken hlexemes

/-! ### Words are maximal -/

namespace Splits
variable {lexemes front back : List Lexeme} {lexeme first second : Lexeme} {input : List Char}

theorem ne_nil (h : Splits (lexeme :: lexemes) input) : input ≠ [] := by
  cases h with
  | lexeme _ htoken _ => simp [Lexeme.chars, htoken.ne_nil]

theorem exists_after (h : Splits (front ++ lexeme :: back) input) :
    ∃ after, input = front.flatMap Lexeme.chars ++ (lexeme.chars ++ after) ∧
      (∀ c ∈ lexeme.gap, isSeparator c = true) ∧ IsToken lexeme.token after ∧
        Splits back after := by
  induction front generalizing input with
  | nil =>
    cases h with
    | lexeme hgap htoken hafter => exact ⟨_, rfl, hgap, htoken, hafter⟩
  | cons earlier front ih =>
    cases h with
    | lexeme _ _ hmore =>
      obtain ⟨after, rfl, hlexeme⟩ := ih hmore
      exact ⟨after, by simp, hlexeme⟩

/-- Two words have separators between them. -/
theorem gap_ne_nil_of_word (h : Splits (front ++ first :: second :: back) input)
    (hfirst : IsUnquoted first.token) (hsecond : IsUnquoted second.token) : second.gap ≠ [] := by
  intro hgap
  obtain ⟨after, -, -, htoken, hafter⟩ := h.exists_after
  obtain ⟨c, rest, hc, hinside⟩ := hsecond.exists_cons
  generalize first.token = token at htoken hfirst
  cases htoken with
  | word _ hends =>
    cases hafter with
    | lexeme =>
      -- the next word would go on with the one that has ended
      have hboth : endsWord c = true := hends c (by simp [Lexeme.chars, hgap, hc])
      exact Bool.false_ne_true (hinside.symm.trans hboth)
  | closed | unclosed => exact not_isUnquoted_quote _ hfirst

/-- In front of a word is the start of the input or a character that ends words. -/
theorem endsWord_of_getLast? (h : Splits (front ++ lexeme :: back) input)
    (hword : IsUnquoted lexeme.token) :
    ∀ c ∈ (front.flatMap Lexeme.chars ++ lexeme.gap).getLast?, endsWord c = true := by
  intro c hc
  rcases List.eq_nil_or_concat' lexeme.gap with hgap | ⟨gap, last, hgap⟩
  · rcases List.eq_nil_or_concat' front with rfl | ⟨earlier, before, rfl⟩
    · simp [hgap] at hc
    · rw [List.append_assoc, List.singleton_append] at h
      obtain ⟨after, -, -, htoken, hafter⟩ := h.exists_after
      have hlast : c ∈ before.token.getLast? := by
        have hne := htoken.ne_nil
        rw [hgap] at hc
        simpa [Lexeme.chars, List.getLast?_append_of_ne_nil, hne] using hc
      have hnot : ¬IsUnquoted before.token := fun hbefore => h.gap_ne_nil_of_word hbefore hword hgap
      generalize before.token = token at htoken hlast hnot
      cases htoken with
      | word hbefore => exact absurd hbefore hnot
      | closed =>
        rw [← List.cons_append, List.getLast?_concat] at hlast
        obtain rfl := Option.some.inj hlast
        rfl
      | unclosed =>
        -- an open quote would have taken in the word
        exact absurd rfl hafter.ne_nil
  · rw [hgap, ← List.append_assoc, List.getLast?_concat] at hc
    obtain rfl := Option.some.inj hc
    obtain ⟨-, -, hseparators, -⟩ := h.exists_after
    have hlast := hseparators last (by simp [hgap])
    simp [endsWord, hlast]

end Splits

/-! ### Tokens once more -/

/-- The tokens with single spaces between them are the same tokens again. -/
theorem settled_run_intercalate {lexemes : List Lexeme} {input : List Char}
    (h : Splits lexemes input) (finished : List (List Char)) :
    (run ⟨.gap, finished⟩ ([' '].intercalate (lexemes.map Lexeme.token))).settled =
      (lexemes.map Lexeme.token).reverse ++ finished := by
  induction h generalizing finished with
  | rest => rfl
  | @lexeme lexeme lexemes after _ htoken hafter ih =>
    cases lexemes with
    | nil =>
      rw [List.map_singleton, List.intercalate_singleton]
      exact settled_run_alone htoken.alone finished
    | cons second more =>
      have hspace : Scan.step ⟨.gap, lexeme.token :: finished⟩ ' ' =
          ⟨.gap, lexeme.token :: finished⟩ := rfl
      rw [List.map_cons, List.map_cons, List.intercalate_cons_cons, List.append_assoc,
        List.singleton_append, settled_run_token (htoken.spaced hafter.ne_nil _), run_cons, hspace,
        ← List.map_cons, ih]
      simp

theorem tokenize_of_settled {text : String} {tokens : List (List Char)}
    (h : (run .start text.toList).settled = tokens.reverse) :
    tokenize text = tokens.map String.ofList := by
  rw [tokenize, scanTokens_eq, h, List.reverse_reverse]

theorem Splits.tokenize {lexemes : List Lexeme} {text : String} (h : Splits lexemes text.toList) :
    tokenize text = lexemes.map Lexeme.text := by
  have hrun := settled_run_splits h []
  rw [List.append_nil] at hrun
  rw [tokenize_of_settled hrun, List.map_map]
  rfl

/-- Joining the tokens with single spaces and reading them again gives the same tokens. -/
theorem tokenize_intercalate (text : String) :
    tokenize (" ".intercalate (tokenize text)) = tokenize text := by
  obtain ⟨lexemes, h⟩ := exists_splits text.toList
  have hsame : String.toList ∘ Lexeme.text = Lexeme.token := funext fun _ => String.toList_ofList
  have hchars : (" ".intercalate (lexemes.map Lexeme.text)).toList =
      [' '].intercalate (lexemes.map Lexeme.token) := by
    rw [String.toList_intercalate, List.map_map, hsame]
    rfl
  have hrun := settled_run_intercalate h []
  rw [List.append_nil, ← hchars] at hrun
  rw [h.tokenize, tokenize_of_settled hrun, List.map_map]
  rfl

/-- Tokenizing loses nothing and invents nothing. Every input splits into lexemes, each a token with
the separators in front of it, then perhaps separators and a comment; the tokens are those of the
lexemes, however the input is split. A word among them is maximal also to the left, and two words
have separators between them. The tokens joined with single spaces are the same tokens again. -/
theorem tokenize_splits (text : String) :
    (∃ lexemes, Splits lexemes text.toList) ∧
    (∀ lexemes, Splits lexemes text.toList → tokenize text = lexemes.map Lexeme.text ∧
      (∀ front lexeme back, lexemes = front ++ lexeme :: back → IsUnquoted lexeme.token →
        ∀ c ∈ (front.flatMap Lexeme.chars ++ lexeme.gap).getLast?, endsWord c = true) ∧
      ∀ front first second back, lexemes = front ++ first :: second :: back →
        IsUnquoted first.token → IsUnquoted second.token → second.gap ≠ []) ∧
    tokenize (" ".intercalate (tokenize text)) = tokenize text := by
  refine ⟨exists_splits text.toList, ?_, tokenize_intercalate text⟩
  intro lexemes h
  refine ⟨h.tokenize, ?_, ?_⟩
  · rintro front lexeme back rfl hword
    exact h.endsWord_of_getLast? hword
  · rintro front first second back rfl hfirst hsecond
    exact h.gap_ne_nil_of_word hfirst hsecond

example : tokenize "say x\"a;\\\"b\",top ; again" = ["say", "x", "\"a;\\\"b\"", "top"] := by
  decide +kernel

end EventScript.Token
