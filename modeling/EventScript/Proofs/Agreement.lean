import EventScript.Proofs.Integer
import EventScript.Proofs.TokenClass
import EventScript.Proofs.Tokens

/-!
The lexer and the classifier agree on what a token is. Both have to tell an escaped quotation mark
from one that closes a quote: the lexer stops at the first one that closes, and the classifier wants
the last character of a string literal to be that one.

        token      lexer                   classifier
        "a\\"      closed by the last      a string
        "a\"       open at the end         nothing
        x1:        one word                the label x1
-/

namespace EventScript.Token

/-! ### The classifier on a quote -/

/-- Content is read to its end if and only if it is the inside of a quote and a quotation mark. -/
theorem isSome_content?_iff {done chars : List Char} :
    (content? done chars).isSome = true ↔ ∃ body, QuotedBody body ∧ chars = body ++ ['"'] := by
  constructor
  · intro h
    fun_induction content? done chars with
    | case1 | case3 | case4 => cases h
    | case2 done rest hrest =>
      obtain rfl := List.isEmpty_iff.mp hrest
      exact ⟨[], .nil, rfl⟩
    | case5 done c rest ih =>
      obtain ⟨body, hbody, rfl⟩ := ih h
      exact ⟨'\\' :: c :: body, .escaped hbody, rfl⟩
    | case6 done c rest hquote hlast hmore ih =>
      have hescape : c ≠ '\\' := by
        rintro rfl
        cases rest with
        | nil => exact hlast rfl rfl
        | cons next rest => exact hmore next rest rfl rfl
      obtain ⟨body, hbody, rfl⟩ := ih h
      exact ⟨c :: body, .plain hquote hescape hbody, rfl⟩
  · rintro ⟨body, hbody, rfl⟩
    induction hbody generalizing done with
    | nil => rfl
    | @plain c rest hquote hescape _ ih =>
      rw [List.cons_append, content?_cons hquote hescape]
      exact ih
    | escaped _ ih => exact ih

/-- A token is a string literal exactly when it is the inside of a quote between quotation marks. -/
theorem isSome_string?_iff {token : String} :
    (string? token).isSome = true ↔
      ∃ body, QuotedBody body ∧ token.toList = '"' :: (body ++ ['"']) := by
  rw [string?, Option.isSome_map]
  constructor
  · intro h
    cases htoken : token.toList with
    | nil => simp [htoken, stringChars?] at h
    | cons first rest =>
      by_cases hquote : first = '"'
      · subst hquote
        rw [htoken, stringChars?] at h
        obtain ⟨body, hbody, rfl⟩ := isSome_content?_iff.mp h
        exact ⟨body, hbody, rfl⟩
      · simp [htoken, stringChars?, hquote] at h
  · rintro ⟨body, hbody, htoken⟩
    rw [htoken, stringChars?]
    exact isSome_content?_iff.mpr ⟨body, hbody, rfl⟩

theorem isSome_string?_of_closed {token : String} {body : List Char} (h : NoneCloses body)
    (hcloses : ¬EscapesNext body) (htoken : token.toList = '"' :: (body ++ ['"'])) :
    (string? token).isSome = true :=
  isSome_string?_iff.mpr ⟨body, (quotedBody_of_noneCloses h).1 hcloses, htoken⟩

/-- A quote that is open is no string literal: the lexer would not be in a quote after one. -/
theorem string?_of_unclosed {token : String} {body : List Char} (h : NoneCloses body)
    (htoken : token.toList = '"' :: body) : string? token = none := by
  rw [← Option.not_isSome_iff_eq_none, isSome_string?_iff]
  rintro ⟨inside, hinside, hclosed⟩
  have hopen := run_unclosed h []
  rw [← htoken, hclosed, run_quoted hinside (.inl rfl)] at hopen
  cases hopen

/-! ### The lexer at the end of a token -/

/-- The lexer finds the closing quotation mark of the token that comes after those in front: having
read the token to its end, it is outside quotes and the token is finished. -/
def FindsClosing (text : String) (front : List String) (token : String) : Prop :=
  ∃ before after, text.toList = before ++ (token.toList ++ after) ∧
    run .start (before ++ token.toList) =
      ⟨.gap, token.toList :: (front.map String.toList).reverse⟩

theorem IsToken.of_append {token more rest : List Char} {c : Char}
    (h : IsToken token ((c :: rest) ++ more)) : IsToken token (c :: rest) := by
  cases h with
  | word hword hends => exact .word hword hends
  | closed hbody hcloses => exact .closed hbody hcloses

/-- When it comes to a token, the lexer has read the tokens in front and none of the others. -/
theorem Splits.run_front {front back : List Lexeme} {lexeme : Lexeme} {input : List Char}
    (h : Splits (front ++ lexeme :: back) input) (finished : List (List Char)) :
    run ⟨.gap, finished⟩ (front.flatMap Lexeme.chars ++ lexeme.chars) =
      run ⟨.gap, (front.map Lexeme.token).reverse ++ finished⟩ lexeme.token := by
  induction front generalizing input finished with
  | nil =>
    obtain ⟨after, -, hgap, -, -⟩ := h.exists_after
    rw [List.flatMap_nil, List.nil_append, Lexeme.chars, run_append, run_separators _ _ hgap]
    rfl
  | cons earlier front ih =>
    cases h with
    | @lexeme _ _ after hgap htoken hmore =>
      have hrest := ih hmore (earlier.token :: finished)
      -- the character that ends the earlier token is still there when the input stops at the lexeme
      obtain ⟨last, hafter, -, hlexeme, -⟩ := hmore.exists_after
      have hne : front.flatMap Lexeme.chars ++ lexeme.chars ≠ [] := by
        simp [Lexeme.chars, hlexeme.ne_nil]
      obtain ⟨c, rest, hcons⟩ := List.exists_cons_of_ne_nil hne
      rw [← List.append_assoc, hcons] at hafter
      rw [hafter] at htoken
      rw [List.flatMap_cons, List.append_assoc, hcons, Lexeme.chars, List.append_assoc, run_append,
        run_separators _ _ hgap, run_token htoken.of_append, ← hcons, hrest]
      simp

theorem exists_place {text token : String} {front back : List String}
    (h : tokenize text = front ++ token :: back) :
    ∃ before after, text.toList = before ++ (token.toList ++ after) ∧
      IsToken token.toList after ∧ (after = [] → back = []) ∧
      run .start (before ++ token.toList) =
        run ⟨.gap, (front.map String.toList).reverse⟩ token.toList := by
  obtain ⟨lexemes, hsplits⟩ := exists_splits text.toList
  rw [hsplits.tokenize] at h
  obtain ⟨earlier, later, rfl, rfl, hlater⟩ := List.map_eq_append_iff.mp h
  obtain ⟨lexeme, more, rfl, rfl, rfl⟩ := List.map_eq_cons_iff.mp hlater
  obtain ⟨after, hinput, -, htoken, hafter⟩ := hsplits.exists_after
  have hrun := hsplits.run_front []
  have htext : lexeme.text.toList = lexeme.token := String.toList_ofList
  have hfront : (earlier.map Lexeme.text).map String.toList = earlier.map Lexeme.token := by
    rw [List.map_map]
    exact List.map_congr_left fun _ _ => String.toList_ofList
  refine ⟨earlier.flatMap Lexeme.chars ++ lexeme.gap, after, ?_, ?_, ?_, ?_⟩
  · rw [hinput, htext, Lexeme.chars]
    simp
  · rwa [htext]
  · rintro rfl
    cases more with
    | nil => rfl
    | cons => exact absurd rfl hafter.ne_nil
  · rw [htext, hfront, List.append_assoc, ← Lexeme.chars, Scan.start, hrun, List.append_nil]

/-- A quote that is open at the end of the text is not closed before: what is finished stays so. -/
theorem not_findsClosing {text token : String} {front : List String} {opened : List Char}
    {escaping : Bool}
    (h : run .start text.toList = ⟨.quoted opened escaping, (front.map String.toList).reverse⟩) :
    ¬FindsClosing text front token := by
  rintro ⟨before, after, htext, hclosed⟩
  have hsuffix := finished_suffix_run (run .start (before ++ token.toList)) after
  rw [← run_append, List.append_assoc, ← htext, h, hclosed] at hsuffix
  have hlength := hsuffix.length_le
  simp at hlength

/-- The lexer either closes a quote, and it is a string literal, or is still in it at the end of the
text, and it is none. -/
theorem closed_or_open {text token : String} {front back : List String}
    (h : tokenize text = front ++ token :: back) (hquote : token.toList.head? = some '"') :
    (FindsClosing text front token ∧ (string? token).isSome = true) ∨
      (back = [] ∧ string? token = none ∧ ∃ before escaping, text.toList = before ++ token.toList ∧
        run .start text.toList =
          ⟨.quoted token.toList.reverse escaping, (front.map String.toList).reverse⟩) := by
  obtain ⟨before, after, htext, htoken, hback, hrun⟩ := exists_place h
  generalize hchars : token.toList = chars at htoken
  cases htoken with
  | word hword =>
    obtain ⟨rest, hrest⟩ := List.head?_eq_some_iff.mp hquote
    rw [← hchars, hrest] at hword
    exact absurd hword (not_isUnquoted_quote rest)
  | closed hbody hcloses =>
    left
    refine ⟨⟨before, after, htext, ?_⟩, isSome_string?_of_closed hbody hcloses hchars⟩
    rw [hrun, hchars, run_closing hbody hcloses]
  | unclosed hbody =>
    right
    rw [List.append_nil] at htext
    rw [← htext, hchars, run_unclosed hbody] at hrun
    exact ⟨hback rfl, string?_of_unclosed hbody hchars, before, _, by rw [htext, hchars], hrun⟩

/-! ### Tokens that the classifier accepts -/

/-- The classifier accepts the token as one thing or another. -/
def IsAccepted (token : String) : Prop :=
  (label? token).isSome = true ∨ isDirective token = true ∨ isName token = true ∨
    (integer? token).isSome = true ∨ (string? token).isSome = true

theorem endsWord_of_isAlphanum {c : Char} (h : c.isAlphanum = true) : endsWord c = false :=
  endsWord_of_continuesName (by rw [continuesName, h, Bool.true_or])

theorem isUnquoted_of_isNameChars {name : List Char} (h : isNameChars name = true) :
    IsUnquoted name := by
  refine ⟨?_, fun c hc => endsWord_of_continuesName (continuesName_of_isNameChars h c hc)⟩
  rintro rfl
  cases h

theorem isUnquoted_of_label? {token : String} (h : (label? token).isSome = true) :
    IsUnquoted token.toList := by
  rw [label?, Option.isSome_map, Option.isSome_iff_exists] at h
  obtain ⟨name, hlabel⟩ := h
  obtain ⟨htoken, hname⟩ := labelChars?_eq_some_iff.mp hlabel
  obtain ⟨hne, hword⟩ := isUnquoted_of_isNameChars hname
  rw [htoken]
  exact ⟨by simp, List.forall_mem_append.mpr ⟨hword, List.forall_mem_singleton.mpr rfl⟩⟩

theorem isUnquoted_of_isDirective {token : String} (h : isDirective token = true) :
    IsUnquoted token.toList := by
  unfold isDirective isDirectiveChars at h
  split at h
  · next name htoken =>
    obtain ⟨-, hword⟩ := isUnquoted_of_isNameChars h
    rw [htoken]
    exact ⟨List.cons_ne_nil _ _, List.forall_mem_cons.mpr ⟨rfl, hword⟩⟩
  · cases h

theorem isUnquoted_of_spells {chars : List Char} {value : Int} (h : Spells chars value) :
    IsUnquoted chars := by
  obtain @⟨sign, mark, digits, factor, radix, magnitude, hsign, hmark, hdigits⟩ := h
  have hword : ∀ c ∈ mark ++ digits, endsWord c = false := fun c hc =>
    endsWord_of_isAlphanum (hmark.isAlphanum hdigits c hc)
  refine ⟨by simp [hdigits.1], List.forall_mem_append.mpr ⟨?_, hword⟩⟩
  cases hsign with
  | plus => simp
  | minus => exact List.forall_mem_singleton.mpr rfl

theorem tokenize_of_settled_alone {token : String}
    (h : (run .start token.toList).settled = [token.toList]) : tokenize token = [token] := by
  have htokens : tokenize token = [token.toList].map String.ofList := tokenize_of_settled h
  rw [htokens, List.map_singleton, String.ofList_toList]

theorem tokenize_of_isUnquoted {token : String} (h : IsUnquoted token.toList) :
    tokenize token = [token] :=
  tokenize_of_settled_alone (settled_run_alone (.word h (by simp)) [])

theorem IsAccepted.tokenize {token : String} (h : IsAccepted token) : tokenize token = [token] := by
  rcases h with hlabel | hdirective | hname | hinteger | hstring
  · exact tokenize_of_isUnquoted (isUnquoted_of_label? hlabel)
  · exact tokenize_of_isUnquoted (isUnquoted_of_isDirective hdirective)
  · exact tokenize_of_isUnquoted (isUnquoted_of_isNameChars hname)
  · obtain ⟨word, hword⟩ := Option.isSome_iff_exists.mp hinteger
    obtain ⟨value, hspells, -⟩ := integer?_eq_some_iff.mp hword
    exact tokenize_of_isUnquoted (isUnquoted_of_spells hspells)
  · obtain ⟨body, hbody, htoken⟩ := isSome_string?_iff.mp hstring
    apply tokenize_of_settled_alone
    rw [htoken, run_quoted hbody Scan.isOutside_start]
    rfl

/-- The lexer and the classifier agree on what a token is. A token that starts with a quotation mark
is a string literal if and only if the lexer finds its closing quotation mark; otherwise it is the
last token, and the lexer is still inside it at the end of the input. And every token that the
classifier accepts is one token for the lexer. -/
theorem lexer_agrees :
    (∀ (text token : String) (front back : List String),
      tokenize text = front ++ token :: back → token.toList.head? = some '"' →
        ((string? token).isSome = true ↔ FindsClosing text front token) ∧
        (¬FindsClosing text front token →
          back = [] ∧ ∃ before escaping, text.toList = before ++ token.toList ∧
            run .start text.toList =
              ⟨.quoted token.toList.reverse escaping, (front.map String.toList).reverse⟩)) ∧
    ∀ token, IsAccepted token → tokenize token = [token] := by
  refine ⟨fun text token front back h hquote => ?_, fun token h => h.tokenize⟩
  rcases closed_or_open h hquote with ⟨hfinds, hstring⟩ | ⟨hback, hstring, hopen⟩
  · exact ⟨iff_of_true hstring hfinds, fun hnot => absurd hfinds hnot⟩
  · obtain ⟨before, escaping, htext, hrun⟩ := hopen
    have hnot : ¬FindsClosing text front token := not_findsClosing hrun
    exact ⟨iff_of_false (by simp [hstring]) hnot, fun _ => ⟨hback, before, escaping, htext, hrun⟩⟩

/-- A quote that ends with an escaped backslash is closed, and one that ends with an escaped
quotation mark is not; and a label definition is one token. -/
theorem lexer_agrees_say :
    let text := "say \"a\\\\\" \"b\\\""
    tokenize text = ["say", "\"a\\\\\"", "\"b\\\""] ∧
      FindsClosing text ["say"] "\"a\\\\\"" ∧
      ¬FindsClosing text ["say", "\"a\\\\\""] "\"b\\\"" ∧ tokenize "top:" = ["top:"] := by
  intro text
  obtain ⟨hquotes, haccepted⟩ := lexer_agrees
  have htokens : tokenize text = ["say", "\"a\\\\\"", "\"b\\\""] := by decide +kernel
  refine ⟨htokens, ?_, ?_, haccepted "top:" (.inl (by decide +kernel))⟩
  · exact (hquotes text "\"a\\\\\"" ["say"] ["\"b\\\""] htokens rfl).1.mp (by decide +kernel)
  · intro hfinds
    have hstring := (hquotes text "\"b\\\"" ["say", "\"a\\\\\""] [] htokens rfl).1.mpr hfinds
    exact absurd hstring (by decide +kernel)

end EventScript.Token
