import EventScript.Proofs.Contribution
import EventScript.Proofs.Integer
import EventScript.Proofs.TokenClass

/-!
Operands that may be a number or a string. A token is at most one of the five things that the
classifier knows: how it opens tells names and label definitions, directives, integers and strings
apart, and a name has no colon. So the number and the string do not compete for a token; the only
tokens that fit both are the names of variables, and those count as numbers.

        7        integer      tag 0, one byte
        x        name         tag 1, index word, if `x` is declared
        "hi"     string       tag 3, length word, content
        top:     neither
-/

namespace EventScript

namespace Token

open Text.Numeral (digit?)

/-! ### Forms -/

/-- What a token can be. -/
inductive Form where
  | label
  | directive
  | name
  | integer
  | string
  deriving DecidableEq, Repr

/-- The classifier takes the token for this. -/
def Form.Accepts (token : String) : Form → Prop
  | .label => (label? token).isSome = true
  | .directive => isDirective token = true
  | .name => isName token = true
  | .integer => (integer? token).isSome = true
  | .string => (string? token).isSome = true

/-- The kinds of characters that tokens open with. -/
inductive Opening where
  | letter
  | stop
  | digit
  | quote
  deriving DecidableEq, Repr

/-- The kind of a character that opens a token. -/
def opening? (c : Char) : Option Opening :=
  if startsName c then some .letter
  else if c = '.' then some .stop
  else if c = '"' then some .quote
  else if c = '-' ∨ (digit? 10 c).isSome then some .digit
  else none

/-- What the tokens of a form open with. -/
def Form.opening : Form → Opening
  | .label | .name => .letter
  | .directive => .stop
  | .integer => .digit
  | .string => .quote

theorem opening?_of_isNameChars {name : List Char} (h : isNameChars name = true) :
    name.head?.bind opening? = some .letter := by
  cases name with
  | nil => cases h
  | cons first rest =>
    rw [isNameChars, Bool.and_eq_true] at h
    exact if_pos h.1

theorem opening?_of_isDigit {c : Char} {value : Nat} (h : IsDigit 10 c value) :
    opening? c = some .digit := by
  have hdigit : digit? 10 c = some value := (digit?_eq_some_iff (by decide)).mpr h
  have hletter : startsName c = false := by
    by_contra hname
    rw [Bool.not_eq_false] at hname
    cases hdigit.symm.trans (digit?_of_startsName hname)
  have hstop : c ≠ '.' := by
    rintro rfl
    cases hdigit
  have hquote : c ≠ '"' := by
    rintro rfl
    cases hdigit
  simp [opening?, hletter, hstop, hquote, hdigit]

theorem opening?_of_spells {chars : List Char} {value : Int} (h : Spells chars value) :
    chars.head?.bind opening? = some .digit := by
  obtain @⟨sign, mark, digits, factor, radix, magnitude, hsign, hmark, hdigits⟩ := h
  have hzero : IsDigit 10 '0' 0 := ⟨by decide, .inl rfl⟩
  cases hsign with
  | minus => rfl
  | plus =>
    cases hmark with
    | hexadecimal => exact opening?_of_isDigit hzero
    | binary => exact opening?_of_isDigit hzero
    | decimal =>
      obtain ⟨c, rest, rfl⟩ := List.exists_cons_of_ne_nil hdigits.1
      obtain ⟨digit, hdigit⟩ := hdigits.exists_isDigit c List.mem_cons_self
      exact opening?_of_isDigit hdigit

/-- A token opens as its form does. -/
theorem Form.Accepts.opening? {token : String} {form : Form} (h : form.Accepts token) :
    token.toList.head?.bind opening? = some form.opening := by
  cases form with
  | label =>
    obtain ⟨name, hname⟩ := Option.isSome_iff_exists.mp h
    obtain ⟨chars, hchars, -⟩ := Option.map_eq_some_iff.mp hname
    obtain ⟨htoken, hisName⟩ := labelChars?_eq_some_iff.mp hchars
    have hopens := opening?_of_isNameChars hisName
    rw [htoken]
    cases chars with
    | nil => cases hopens
    | cons first rest => exact hopens
  | directive =>
    have hdirective : isDirectiveChars token.toList = true := h
    unfold isDirectiveChars at hdirective
    split at hdirective
    · next rest htoken =>
      rw [htoken]
      rfl
    · cases hdirective
  | name => exact opening?_of_isNameChars h
  | integer =>
    obtain ⟨word, hword⟩ := Option.isSome_iff_exists.mp h
    obtain ⟨value, hspells, -⟩ := integer?_eq_some_iff.mp hword
    exact opening?_of_spells hspells
  | string =>
    obtain ⟨content, hcontent⟩ := Option.isSome_iff_exists.mp h
    obtain ⟨rest, htoken⟩ := exists_toList_of_string? hcontent
    rw [htoken]
    rfl

/-- Forms that open alike are one form, or label definition and name. -/
theorem Form.eq_of_opening {form other : Form} (h : form.opening = other.opening) :
    form = other ∨ (form = .label ∧ other = .name) ∨ (form = .name ∧ other = .label) := by
  revert h
  cases form <;> cases other <;> decide

/-- A token has one form at most. -/
theorem Form.Accepts.unique {token : String} {form other : Form} (h : form.Accepts token)
    (hother : other.Accepts token) : form = other := by
  have hopening := Option.some.inj (h.opening?.symm.trans hother.opening?)
  have hlabel : Form.label.Accepts token → ¬Form.name.Accepts token := by
    intro hlabel hname
    simp [Form.Accepts, label?_of_isName hname] at hlabel
  rcases Form.eq_of_opening hopening with hsame | ⟨rfl, rfl⟩ | ⟨rfl, rfl⟩
  · exact hsame
  · exact absurd hother (hlabel h)
  · exact absurd h (hlabel hother)

theorem string?_of_integer? {token : String} {value : UInt32} (h : integer? token = some value) :
    string? token = none := by
  rw [Option.eq_none_iff_forall_ne_some]
  intro content hstring
  cases h.symm.trans (integer?_of_string? hstring)

end Token

namespace Operand

variable {vars : Variables} {token : String}

/-! ### The two attempts -/

/-- The token is a symbolic name that the table declares. -/
def IsVariable (vars : Variables) (token : String) : Prop :=
  Token.isName token = true ∧ ∃ index, vars.index? token = .ok index

theorem not_isVariable_of_integer? {value : UInt32} (h : Token.integer? token = some value) :
    ¬IsVariable vars token := by
  rintro ⟨hname, -⟩
  cases h.symm.trans (Token.integer?_of_isName hname)

theorem not_isVariable_of_string? {content : String} (h : Token.string? token = some content) :
    ¬IsVariable vars token := by
  rintro ⟨hname, -⟩
  cases h.symm.trans (Token.string?_of_isName hname)

theorem encodeNumber_of_integer? {value : UInt32} (h : Token.integer? token = some value)
    (vars : Variables) (width : Nat) :
    encodeNumber vars width token = .ok (ofValue width value) := by
  rw [encodeNumber, h]

theorem encodeString_of_string? {content : String} (h : Token.string? token = some content)
    (vars : Variables) : encodeString vars token = .ok (ofContent content) := by
  rw [encodeString, h]

theorem ofVariable_of_index? {index : Nat} (hname : Token.isName token = true)
    (hindex : vars.index? token = .ok index) (tag : UInt8) (otherwise : OperandError) :
    ofVariable vars tag token otherwise = .ok ⟨tag :: wordBytes index, none⟩ := by
  rw [ofVariable, if_pos hname, hindex]

theorem exists_ofVariable_iff {tag : UInt8} {otherwise : OperandError} :
    (∃ encoding, ofVariable vars tag token otherwise = .ok encoding) ↔ IsVariable vars token := by
  constructor
  · rintro ⟨encoding, h⟩
    unfold ofVariable at h
    split at h
    · next hname =>
      split at h
      · next index hindex => exact ⟨hname, index, hindex⟩
      · cases h
    · cases h
  · rintro ⟨hname, index, hindex⟩
    exact ⟨_, ofVariable_of_index? hname hindex tag otherwise⟩

theorem exists_encodeNumber_iff {width : Nat} :
    (∃ encoding, encodeNumber vars width token = .ok encoding) ↔
      (∃ value, Token.integer? token = some value) ∨ IsVariable vars token := by
  unfold encodeNumber
  cases Token.integer? token with
  | some value => simp
  | none => simp [exists_ofVariable_iff]

theorem exists_encodeString_iff :
    (∃ encoding, encodeString vars token = .ok encoding) ↔
      (∃ content, Token.string? token = some content) ∨ IsVariable vars token := by
  unfold encodeString
  cases Token.string? token with
  | some content => simp
  | none => simp [exists_ofVariable_iff]

/-- What is both a number and a string is a declared name. -/
theorem number_and_string_iff {width : Nat} :
    ((∃ encoding, encodeNumber vars width token = .ok encoding) ∧
        ∃ encoding, encodeString vars token = .ok encoding) ↔ IsVariable vars token := by
  rw [exists_encodeNumber_iff, exists_encodeString_iff]
  constructor
  · rintro ⟨⟨value, hvalue⟩ | hvariable, ⟨content, hcontent⟩ | hvariable'⟩
    · cases hvalue.symm.trans (Token.integer?_of_string? hcontent)
    · exact hvariable'
    · exact hvariable
    · exact hvariable
  · intro hvariable
    exact ⟨.inr hvariable, .inr hvariable⟩

theorem exists_error {result : Except OperandError Encoding}
    (h : ¬∃ encoding, result = .ok encoding) : ∃ error, result = .error error := by
  cases result with
  | ok encoding => exact absurd ⟨encoding, rfl⟩ h
  | error error => exact ⟨error, rfl⟩

theorem exists_encodeNumber_error (hinteger : Token.integer? token = none)
    (hname : ¬IsVariable vars token) (width : Nat) :
    ∃ error, encodeNumber vars width token = .error error :=
  exists_error (by simp [exists_encodeNumber_iff, hinteger, hname])

theorem exists_encodeString_error (hstring : Token.string? token = none)
    (hname : ¬IsVariable vars token) : ∃ error, encodeString vars token = .error error :=
  exists_error (by simp [exists_encodeString_iff, hstring, hname])

/-! ### A number or a string -/

/-- What a token is encoded as where a number or a string may stand: an integer as one byte, a
declared name as its index word, a string literal as its length word and its content; anything else
is refused. -/
inductive IsEither (vars : Variables) (token : String) : Except OperandError Encoding → Prop
  | integer {value : UInt32} (h : Token.integer? token = some value) :
      IsEither vars token (.ok ⟨[0, UInt8.ofNat (value.toNat % 256)],
        if value.toNat < 256 then none
        else some (.value value (UInt32.ofNat (value.toNat % 256)) 255)⟩)
  | name {index : Nat} (hname : Token.isName token = true)
      (hindex : vars.index? token = .ok index) :
      IsEither vars token (.ok ⟨1 :: wordBytes index, none⟩)
  | string {content : String} (h : Token.string? token = some content) :
      IsEither vars token (.ok ⟨3 :: (wordBytes (min (utf8 content).length 65535) ++
          (utf8 content).take 65535),
        if (utf8 content).length ≤ 65535 then none
        else some (.string (utf8 content).length)⟩)
  | neither (hinteger : Token.integer? token = none) (hname : ¬IsVariable vars token)
      (hstring : Token.string? token = none) :
      IsEither vars token (.error (.notIntegerOrString token))

/-- An integer of one byte is its value modulo 256, and a larger value is cut. -/
theorem ofValue_eitherWidth (value : UInt32) :
    ofValue eitherWidth value = ⟨[0, UInt8.ofNat (value.toNat % 256)],
      if value.toNat < 256 then none
      else some (.value value (UInt32.ofNat (value.toNat % 256)) 255)⟩ := by
  have hbyte : (UInt32.ofNat (value.toNat % 256)).toNat = value.toNat % 256 := by
    rw [UInt32.toNat_ofNat']
    omega
  have hmask : value &&& widthMask 1 = UInt32.ofNat (value.toNat % 256) := by
    rw [← UInt32.toNat_inj, toNat_and_widthMask, hbyte]
    rfl
  have hkept : UInt32.ofNat (value.toNat % 256) = value ↔ value.toNat < 256 := by
    rw [← UInt32.toNat_inj, hbyte]
    omega
  rw [ofValue, eitherWidth, hmask]
  simp only [hkept, hbyte]
  rfl

/-- Every token is one of the four. -/
theorem exists_isEither (vars : Variables) (token : String) :
    ∃ result, IsEither vars token result := by
  cases hinteger : Token.integer? token with
  | some value => exact ⟨_, .integer hinteger⟩
  | none =>
    cases hstring : Token.string? token with
    | some content => exact ⟨_, .string hstring⟩
    | none =>
      by_cases hvariable : IsVariable vars token
      · obtain ⟨hname, index, hindex⟩ := hvariable
        exact ⟨_, .name hname hindex⟩
      · exact ⟨_, .neither hinteger hvariable hstring⟩

namespace IsEither
variable {result : Except OperandError Encoding}

/-- The number is tried first, and what is no number is tried as a string. -/
theorem encodeEither (h : IsEither vars token result) :
    Operand.encodeEither vars token = result := by
  cases h with
  | @integer value hinteger =>
    rw [Operand.encodeEither, encodeNumber_of_integer? hinteger, ofValue_eitherWidth]
  | @name index hname hindex =>
    rw [Operand.encodeEither, encodeNumber, Token.integer?_of_isName hname,
      ofVariable_of_index? hname hindex]
    rfl
  | @string content hstring =>
    obtain ⟨error, hnumber⟩ := exists_encodeNumber_error (Token.integer?_of_string? hstring)
      (not_isVariable_of_string? hstring) eitherWidth
    rw [Operand.encodeEither, hnumber, encodeString_of_string? hstring]
    rfl
  | neither hinteger hname hstring =>
    obtain ⟨error, hnumber⟩ := exists_encodeNumber_error hinteger hname eitherWidth
    obtain ⟨error', htext⟩ := exists_encodeString_error hstring hname
    rw [Operand.encodeEither, hnumber, htext]

/-- No result has the tag of a variable in the place of a string. -/
theorem tag_ne (h : IsEither vars token result) :
    ∀ encoding, result = .ok encoding → encoding.bytes.head? ≠ some stringVariableTag := by
  cases h with
  | integer | name | string =>
    rintro _ ⟨⟩
    simp [stringVariableTag]
  | neither =>
    rintro _ ⟨⟩

end IsEither

theorem encodeEither_eq_iff {result : Except OperandError Encoding} :
    encodeEither vars token = result ↔ IsEither vars token result := by
  constructor
  · rintro rfl
    obtain ⟨result, h⟩ := exists_isEither vars token
    rwa [h.encodeEither]
  · exact IsEither.encodeEither

/-- A string if the token is one, else a number: the attempts the other way round. -/
def encodeEitherTextFirst (vars : Variables) (token : String) : Except OperandError Encoding :=
  match encodeString vars token with
  | .ok encoding => .ok encoding
  | .error _ =>
    match encodeNumber vars eitherWidth token with
    | .ok encoding => .ok encoding
    | .error _ => .error (.notIntegerOrString token)

/-- The order of the attempts makes a difference for declared names and for nothing else. -/
theorem encodeEitherTextFirst_ne_iff :
    encodeEitherTextFirst vars token ≠ encodeEither vars token ↔ IsVariable vars token := by
  obtain ⟨result, h⟩ := exists_isEither vars token
  rw [h.encodeEither]
  cases h with
  | @integer value hinteger =>
    have hname : ¬IsVariable vars token := not_isVariable_of_integer? hinteger
    obtain ⟨error, htext⟩ := exists_encodeString_error (Token.string?_of_integer? hinteger) hname
    refine iff_of_false (not_not_intro ?_) hname
    rw [encodeEitherTextFirst, htext, encodeNumber_of_integer? hinteger, ofValue_eitherWidth]
  | @name index hname hindex =>
    refine iff_of_true ?_ ⟨hname, index, hindex⟩
    rw [encodeEitherTextFirst, encodeString, Token.string?_of_isName hname]
    simp [ofVariable_of_index? hname hindex, stringVariableTag]
  | @string content hstring =>
    refine iff_of_false (not_not_intro ?_) (not_isVariable_of_string? hstring)
    rw [encodeEitherTextFirst, encodeString_of_string? hstring]
    rfl
  | neither hinteger hname hstring =>
    obtain ⟨error, hnumber⟩ := exists_encodeNumber_error hinteger hname eitherWidth
    obtain ⟨error', htext⟩ := exists_encodeString_error hstring hname
    refine iff_of_false (not_not_intro ?_) hname
    rw [encodeEitherTextFirst, htext, hnumber]

/-- Operands that may be a number or a string are unambiguous. A token has one form at most, so
what is both a number and a string is a declared name, whatever names the table holds. An integer is
encoded as one byte, a declared name as its index word under the tag of a number, a string literal
as the string that it is; any other token is refused once. No operand has the tag of a variable in
the place of a string, and only a declared name would have it with the attempts the other way
round. -/
theorem either_unambiguous :
    (∀ (token : String) (form other : Token.Form), form.Accepts token → other.Accepts token →
      form = other) ∧
    (∀ (vars : Variables) (width : Nat) (token : String),
      ((∃ encoding, encodeNumber vars width token = .ok encoding) ∧
        ∃ encoding, encodeString vars token = .ok encoding) ↔ IsVariable vars token) ∧
    (∀ (vars : Variables) (token : String) (result : Except OperandError Encoding),
      encodeEither vars token = result ↔ IsEither vars token result) ∧
    (∀ (vars : Variables) (token content : String), Token.string? token = some content →
      encodeEither vars token = encodeString vars token) ∧
    (∀ (vars : Variables) (token : String) (encoding : Encoding),
      encodeEither vars token = .ok encoding → encoding.bytes.head? ≠ some stringVariableTag) ∧
    ∀ (vars : Variables) (token : String),
      encodeEitherTextFirst vars token ≠ encodeEither vars token ↔ IsVariable vars token := by
  refine ⟨fun token form other => Token.Form.Accepts.unique, fun vars width token =>
    number_and_string_iff, fun vars token result => encodeEither_eq_iff, ?_, ?_,
    fun vars token => encodeEitherTextFirst_ne_iff⟩
  · intro vars token content hstring
    rw [(IsEither.string hstring).encodeEither, encodeString_of_string? hstring]
    rfl
  · intro vars token encoding h
    exact (encodeEither_eq_iff.mp h).tag_ne encoding rfl

/-- A table that holds the number 7 as a name makes no difference to the number; a name that it
holds beside it is a variable. -/
theorem either_unambiguous_seven :
    let vars : Variables := ⟨((∅ : Registry Nat).add "7" 0).add "x" 1⟩
    vars.index? "7" = .ok 0 ∧ Token.Form.integer.Accepts "7" ∧ ¬Token.Form.name.Accepts "7" ∧
      encodeEither vars "7" = .ok ⟨[0, 7], none⟩ ∧ encodeEither vars "x" = .ok ⟨[1, 1, 0], none⟩ ∧
      encodeEither vars "\"x\"" = encodeString vars "\"x\"" ∧
      ([1, 1, 0] : List UInt8).head? ≠ some stringVariableTag ∧
      encodeEitherTextFirst vars "x" ≠ encodeEither vars "x" := by
  intro vars
  obtain ⟨hforms, -, heither, hstring, htag, horder⟩ := either_unambiguous
  have hseven : Token.Form.integer.Accepts "7" := by
    unfold Token.Form.Accepts
    decide
  have hname : vars.index? "x" = .ok 1 := by decide +kernel
  have hx : encodeEither vars "x" = .ok ⟨[1, 1, 0], none⟩ :=
    (heither _ _ _).mpr (.name (by decide) hname)
  refine ⟨by decide +kernel, hseven, ?_,
    (heither _ _ _).mpr (@IsEither.integer _ _ 7 (by decide)), hx,
    hstring _ _ "x" (by decide), htag _ _ _ hx, (horder _ _).mpr ⟨by decide, 1, hname⟩⟩
  intro hletter
  cases hforms "7" _ _ hseven hletter

end Operand

end EventScript
