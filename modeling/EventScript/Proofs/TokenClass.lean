import Mathlib.Data.List.Basic
import EventScript.Token.Lexer
import EventScript.Token.Literal
import EventScript.Token.Name

/-!
What a token can be. The characters that a symbolic name starts with start no number, so a token is
never taken for both; a label definition is a symbolic name and a colon and nothing else.
-/

namespace EventScript.Token

theorem toNat_of_startsName {c : Char} (h : startsName c = true) :
    65 ≤ c.toNat ∧ c.toNat ≤ 90 ∨ 97 ≤ c.toNat ∧ c.toNat ≤ 122 ∨ c.toNat = 95 := by
  rw [startsName, Bool.or_eq_true, beq_iff_eq] at h
  rcases h with halpha | rfl
  · rcases Bool.or_eq_true_iff.mp halpha with hupper | hlower
    · change decide (65 ≤ c.val ∧ c.val ≤ 90) = true at hupper
      simp only [decide_eq_true_eq, UInt32.le_iff_toNat_le] at hupper
      exact .inl hupper
    · change (decide (97 ≤ c.val) && decide (c.val ≤ 122)) = true at hlower
      simp only [Bool.and_eq_true, decide_eq_true_eq, UInt32.le_iff_toNat_le] at hlower
      exact .inr (.inl hlower)
  · exact .inr (.inr rfl)

theorem continuesName_of_startsName {c : Char} (h : startsName c = true) :
    continuesName c = true := by
  rw [startsName, Bool.or_eq_true] at h
  rw [continuesName, Char.isAlphanum, Bool.or_assoc, Bool.or_left_comm, Bool.or_eq_true,
    Bool.or_eq_true]
  exact .inr h

theorem endsWord_of_continuesName {c : Char} (h : continuesName c = true) :
    endsWord c = false := by
  by_contra hends
  simp only [endsWord, isSeparator, Bool.not_eq_false, Bool.or_eq_true, beq_iff_eq] at hends
  rcases hends with ((((((rfl | rfl) | rfl) | rfl) | rfl) | rfl) | rfl) | rfl <;>
    exact absurd h (by decide)

theorem continuesName_of_isNameChars {name : List Char} (h : isNameChars name = true) :
    ∀ c ∈ name, continuesName c = true := by
  cases name with
  | nil => simp
  | cons first rest =>
    rw [isNameChars, Bool.and_eq_true, List.all_eq_true] at h
    intro c hmem
    rcases List.mem_cons.mp hmem with rfl | hmem
    · exact continuesName_of_startsName h.1
    · exact h.2 c hmem

/-- No name starts with a digit. -/
theorem digit?_of_startsName {c : Char} (h : startsName c = true) :
    Text.Numeral.digit? 10 c = none := by
  have hcode := toNat_of_startsName h
  have hdigit : c.isDigit = false := by
    by_contra hdigit
    rw [Bool.not_eq_false] at hdigit
    change (decide (48 ≤ c.val) && decide (c.val ≤ 57)) = true at hdigit
    simp only [Bool.and_eq_true, decide_eq_true_eq, UInt32.le_iff_toNat_le] at hdigit
    obtain ⟨hlow, hhigh⟩ := hdigit
    change 48 ≤ c.toNat at hlow
    change c.toNat ≤ 57 at hhigh
    omega
  simp only [Text.Numeral.digit?, hdigit, Option.filter_eq_none_iff, decide_eq_true_eq]
  -- a letter counts ten or more
  intro value hvalue
  split at hvalue
  · next hfalse => simp at hfalse
  · split at hvalue
    · obtain rfl := Option.some.inj hvalue
      omega
    · split at hvalue
      · obtain rfl := Option.some.inj hvalue
        omega
      · cases hvalue

/-- A symbolic name is spelled without sign and without radix. -/
theorem ofChars_of_startsName {c : Char} (h : startsName c = true) (rest : List Char) :
    Spelling.ofChars (c :: rest) = ⟨false, 10, c :: rest⟩ := by
  have hsign : c ≠ '-' := by
    rintro rfl
    exact absurd h (by decide)
  have hzero : c ≠ '0' := by
    rintro rfl
    exact absurd h (by decide)
  simp [Spelling.ofChars, Spelling.ofUnsigned, hsign, hzero]

/-- A symbolic name is no integer literal. -/
theorem integer?_of_isName {token : String} (h : isName token = true) : integer? token = none := by
  unfold isName at h
  unfold integer?
  cases htoken : token.toList with
  | nil => simp [htoken, isNameChars] at h
  | cons first rest =>
    rw [htoken, isNameChars, Bool.and_eq_true] at h
    rw [ofChars_of_startsName h.1, Spelling.word?, Text.Numeral.magnitude?, Text.Numeral.extend?,
      digit?_of_startsName h.1]
    simp

theorem content?_cons {c : Char} (hquote : c ≠ '"') (hescape : c ≠ '\\') {done rest : List Char} :
    content? done (c :: rest) = content? (c :: done) rest := by
  rw [content?.eq_5 _ _ _ hquote]
  · exact fun h => absurd h hescape
  · exact fun _ _ h => absurd h hescape

/-- A string literal starts with a quotation mark. -/
theorem exists_toList_of_string? {token content : String} (h : string? token = some content) :
    ∃ rest, token.toList = '"' :: rest := by
  obtain ⟨chars, hchars, -⟩ := Option.map_eq_some_iff.mp h
  cases htoken : token.toList with
  | nil => simp [htoken, stringChars?] at hchars
  | cons first rest =>
    by_cases hquote : first = '"'
    · exact ⟨rest, by rw [hquote]⟩
    · simp [htoken, stringChars?, hquote] at hchars

theorem string?_of_isName {token : String} (h : isName token = true) : string? token = none := by
  cases hliteral : string? token with
  | none => rfl
  | some content =>
    obtain ⟨rest, htoken⟩ := exists_toList_of_string? hliteral
    rw [isName, htoken] at h
    cases h

/-- A string literal is no integer literal. -/
theorem integer?_of_string? {token content : String} (h : string? token = some content) :
    integer? token = none := by
  obtain ⟨rest, htoken⟩ := exists_toList_of_string? h
  rw [integer?, htoken]
  rfl

theorem isName_of_label? {token name : String} (h : label? token = some name) :
    isName name = true := by
  obtain ⟨chars, hchars, rfl⟩ := Option.map_eq_some_iff.mp h
  rw [isName, String.toList_ofList]
  exact (labelChars?_eq_some_iff.mp hchars).2

theorem label?_colon {name : String} (h : isName name = true) :
    label? (name ++ ":") = some name := by
  have hchars : labelChars? (name ++ ":").toList = some name.toList :=
    labelChars?_eq_some_iff.mpr ⟨String.toList_append, h⟩
  rw [label?, hchars, Option.map_some, String.ofList_toList]

/-- A token that is no name with a colon after it defines no label. -/
theorem label?_eq_none {token : String}
    (h : ∀ name, token.toList = name ++ [':'] → isNameChars name = false) :
    label? token = none := by
  rw [label?, Option.map_eq_none_iff, ← Option.not_isSome_iff_eq_none, Option.isSome_iff_exists]
  rintro ⟨name, hname⟩
  obtain ⟨hchars, hisName⟩ := labelChars?_eq_some_iff.mp hname
  simp [h name hchars] at hisName

/-- A directive defines no label. -/
theorem label?_of_isDirective {token : String} (h : isDirective token = true) :
    label? token = none := by
  refine label?_eq_none fun name hchars => ?_
  rw [isDirective, hchars] at h
  -- the full stop would be the first character of the name
  cases name with
  | nil => rfl
  | cons first rest =>
    have hfirst : first = '.' := by
      by_contra hne
      simp [isDirectiveChars, hne] at h
    subst hfirst
    rfl

theorem label?_of_isName {token : String} (h : isName token = true) : label? token = none := by
  refine label?_eq_none fun name hchars => ?_
  have hcolon : ':' ∈ token.toList := by simp [hchars]
  exact absurd (continuesName_of_isNameChars h ':' hcolon) (by decide)

theorem isDirective_of_isName {token : String} (h : isName token = true) :
    isDirective token = false := by
  unfold isDirective isDirectiveChars
  split
  · next name htoken =>
    rw [isName, htoken] at h
    exact absurd (continuesName_of_isNameChars h '.' List.mem_cons_self) (by decide)
  · rfl

end EventScript.Token
