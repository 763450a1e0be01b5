import Mathlib.Data.List.Forall2
import Mathlib.Data.Nat.Digits.Defs
import EventScript.Token.Literal

/-!
Integer literals against the numbers that they spell. A literal is a sign, a mark that announces the
radix, and digits; its digits have a positional value, however many they are, and the literal is
accepted when that value with its sign is in range. The reader keeps no more of the value than a
ceiling just out of range, and that is enough.

        -      0x     00ff
        sign   mark   digits
        -1  *         255
-/

namespace EventScript.Token

open Text.Numeral (digit? extend? magnitude?)

/-! ### Spelled numbers -/

/-- The character is the digit of this value to the radix; a letter may be of either case. -/
structure IsDigit (radix : Nat) (c : Char) (value : Nat) : Prop where
  lt : value < radix
  spelled : "0123456789abcdef".toList[value]? = some c ∨
    "0123456789ABCDEF".toList[value]? = some c

/-- The characters are digits to the radix, one or more, with this positional value. -/
def IsNumeral (radix : Nat) (digits : List Char) (magnitude : Nat) : Prop :=
  digits ≠ [] ∧ ∃ values, List.Forall₂ (IsDigit radix) digits values ∧
    magnitude = Nat.ofDigits radix values.reverse

/-- The sign of a number and its factor. -/
inductive Sign : List Char → Int → Prop
  | plus : Sign [] 1
  | minus : Sign ['-'] (-1)

/-- What announces the radix of a number. -/
inductive Mark : List Char → Nat → Prop
  | decimal : Mark [] 10
  | hexadecimal {x : Char} (h : x = 'x' ∨ x = 'X') : Mark ['0', x] 16
  | binary {b : Char} (h : b = 'b' ∨ b = 'B') : Mark ['0', b] 2

/-- The characters spell an integer, in range or not. -/
inductive Spells : List Char → Int → Prop
  | number {sign mark digits : List Char} {factor : Int} {radix magnitude : Nat}
      (hsign : Sign sign factor) (hmark : Mark mark radix)
      (hdigits : IsNumeral radix digits magnitude) :
      Spells (sign ++ (mark ++ digits)) (factor * magnitude)

theorem Mark.le {mark : List Char} {radix : Nat} (h : Mark mark radix) : radix ≤ 16 := by
  cases h <;> decide

theorem Mark.pos {mark : List Char} {radix : Nat} (h : Mark mark radix) : 0 < radix := by
  cases h <;> decide

/-! ### Digits -/

theorem toNat_lt_of_digit? {radix : Nat} {c : Char} {value : Nat}
    (h : digit? radix c = some value) : c.toNat < 128 := by
  simp only [digit?, Option.filter_eq_some_iff] at h
  obtain ⟨hvalue, -⟩ := h
  split at hvalue
  · next hdigit =>
    simp only [Char.isDigit, Bool.and_eq_true, decide_eq_true_eq] at hdigit
    have hle : c.toNat ≤ 57 := hdigit.2
    omega
  · split at hvalue
    · next hlower =>
      have hle : c.toNat ≤ 122 := hlower.2
      omega
    · split at hvalue
      · next hupper =>
        have hle : c.toNat ≤ 90 := hupper.2
        omega
      · cases hvalue

theorem digit?_eq_some_iff_sixteen {radix : Nat} (hradix : radix ≤ 16) {c : Char} {value : Nat} :
    digit? radix c = some value ↔ value < radix ∧ digit? 16 c = some value := by
  simp only [digit?, Option.filter_eq_some_iff, decide_eq_true_eq]
  constructor
  · rintro ⟨hvalue, hlt⟩
    exact ⟨hlt, hvalue, by omega⟩
  · rintro ⟨hlt, hvalue, -⟩
    exact ⟨hvalue, hlt⟩

/-- The characters read as digits are the digits. -/
theorem digit?_eq_some_iff {radix : Nat} (hradix : radix ≤ 16) {c : Char} {value : Nat} :
    digit? radix c = some value ↔ IsDigit radix c value := by
  rw [digit?_eq_some_iff_sixteen hradix]
  constructor
  · rintro ⟨hlt, hvalue⟩
    have hcodes : ∀ code < 128, ∀ value < 16, digit? 16 (Char.ofNat code) = some value →
        "0123456789abcdef".toList[value]? = some (Char.ofNat code) ∨
          "0123456789ABCDEF".toList[value]? = some (Char.ofNat code) := by decide +kernel
    have hcode := hcodes c.toNat (toNat_lt_of_digit? hvalue) value (by omega)
    rw [Char.ofNat_toNat] at hcode
    exact ⟨hlt, hcode hvalue⟩
  · rintro ⟨hlt, hspelled⟩
    have hread : ∀ value < 16,
        ("0123456789abcdef".toList[value]?).bind (digit? 16) = some value ∧
          ("0123456789ABCDEF".toList[value]?).bind (digit? 16) = some value := by decide
    obtain ⟨hlower, hupper⟩ := hread value (by omega)
    refine ⟨hlt, ?_⟩
    rcases hspelled with hspelled | hspelled
    · rwa [hspelled, Option.bind_some] at hlower
    · rwa [hspelled, Option.bind_some] at hupper

/-! ### Magnitudes -/

/-- Once a value is at the ceiling it stays there, whatever digits follow. -/
theorem min_mul_add_min {value ceiling factor rest : Nat} (hfactor : 0 < factor) :
    min (min value ceiling * factor + rest) ceiling = min (value * factor + rest) ceiling := by
  rcases Nat.le_total value ceiling with hle | hge
  · rw [Nat.min_eq_left hle]
  · have hceiling : ceiling ≤ ceiling * factor := Nat.le_mul_of_pos_right ceiling hfactor
    have hvalue : ceiling * factor ≤ value * factor := Nat.mul_le_mul_right factor hge
    rw [Nat.min_eq_right hge]
    omega

/-- Reading on adds the positional value of the digits to what was read, up to the ceiling. -/
theorem extend?_eq_some_iff {radix ceiling value n : Nat} {digits : List Char}
    (hvalue : value ≤ ceiling) :
    extend? radix ceiling value digits = some n ↔
      ∃ values, List.Forall₂ (fun c d => digit? radix c = some d) digits values ∧
        n = min (value * radix ^ values.length + Nat.ofDigits radix values.reverse) ceiling := by
  induction digits generalizing value with
  | nil =>
    simp only [extend?, Option.some.injEq, List.forall₂_nil_left_iff, exists_eq_left,
      List.length_nil, List.reverse_nil, Nat.ofDigits_nil, Nat.pow_zero, Nat.mul_one, Nat.add_zero,
      Nat.min_eq_left hvalue]
    exact eq_comm
  | cons c rest ih =>
    simp only [extend?, List.forall₂_cons_left_iff]
    cases hdigit : digit? radix c with
    | none => simp
    | some d =>
      have hpos : 0 < radix := Nat.zero_lt_of_lt (Text.Numeral.digit?_lt hdigit)
      have hsame : ∀ values : List Nat,
          min (min (value * radix + d) ceiling * radix ^ values.length +
            Nat.ofDigits radix values.reverse) ceiling =
          min (value * radix ^ (d :: values).length +
            Nat.ofDigits radix (d :: values).reverse) ceiling := by
        intro values
        rw [min_mul_add_min (Nat.pow_pos hpos), Nat.ofDigits_reverse_cons, List.length_cons]
        congr 1
        ring
      simp only
      rw [ih (Nat.min_le_right _ _)]
      constructor
      · rintro ⟨values, hvalues, rfl⟩
        exact ⟨d :: values, ⟨d, values, rfl, hvalues, rfl⟩, hsame values⟩
      · rintro ⟨_, ⟨other, values, hother, hvalues, rfl⟩, rfl⟩
        obtain rfl := Option.some.inj hother
        exact ⟨values, hvalues, (hsame values).symm⟩

/-- The digits of a numeral are read as its value, up to the ceiling, and nothing else is read. -/
theorem magnitude?_eq_some_iff {radix ceiling n : Nat} {digits : List Char}
    (hradix : radix ≤ 16) :
    magnitude? radix ceiling digits = some n ↔
      ∃ magnitude, IsNumeral radix digits magnitude ∧ n = min magnitude ceiling := by
  cases digits with
  | nil => simp [magnitude?, IsNumeral]
  | cons c rest =>
    simp only [magnitude?, extend?_eq_some_iff (Nat.zero_le ceiling), digit?_eq_some_iff hradix,
      Nat.zero_mul, Nat.zero_add]
    constructor
    · rintro ⟨values, hvalues, rfl⟩
      exact ⟨_, ⟨List.cons_ne_nil c rest, values, hvalues, rfl⟩, rfl⟩
    · rintro ⟨magnitude, ⟨-, values, hvalues, rfl⟩, rfl⟩
      exact ⟨values, hvalues, rfl⟩

theorem IsNumeral.exists_isDigit {radix magnitude : Nat} {digits : List Char}
    (h : IsNumeral radix digits magnitude) : ∀ c ∈ digits, ∃ value, IsDigit radix c value := by
  obtain ⟨-, values, hvalues, -⟩ := h
  induction hvalues with
  | nil => simp
  | cons hdigit _ ih =>
    intro c hmem
    rcases List.mem_cons.mp hmem with rfl | hmem
    · exact ⟨_, hdigit⟩
    · exact ih c hmem

theorem IsDigit.isAlphanum {radix value : Nat} {c : Char} (hradix : radix ≤ 16)
    (h : IsDigit radix c value) : c.isAlphanum = true := by
  have hspelled : ∀ value < 16,
      ("0123456789abcdef".toList[value]?).all Char.isAlphanum = true ∧
        ("0123456789ABCDEF".toList[value]?).all Char.isAlphanum = true := by decide
  obtain ⟨hlower, hupper⟩ := hspelled value (Nat.lt_of_lt_of_le h.lt hradix)
  rcases h.spelled with hspelled | hspelled
  · rwa [hspelled, Option.all_some] at hlower
  · rwa [hspelled, Option.all_some] at hupper

/-- Zeros in front of a numeral change nothing of its value. -/
theorem IsNumeral.zeros {radix magnitude : Nat} {digits : List Char} (hradix : 0 < radix)
    (h : IsNumeral radix digits magnitude) (count : Nat) :
    IsNumeral radix (List.replicate count '0' ++ digits) magnitude := by
  induction count with
  | zero => exact h
  | succ count ih =>
    obtain ⟨-, values, hvalues, rfl⟩ := ih
    have hzero : IsDigit radix '0' 0 := ⟨hradix, .inl rfl⟩
    refine ⟨List.cons_ne_nil _ _, 0 :: values, .cons hzero hvalues, ?_⟩
    rw [Nat.ofDigits_reverse_zero_cons]

/-! ### Parts of a literal -/

theorem Mark.ofUnsigned {mark digits : List Char} {radix magnitude : Nat} (h : Mark mark radix)
    (hdigits : IsNumeral radix digits magnitude) (negative : Bool) :
    Spelling.ofUnsigned negative (mark ++ digits) = ⟨negative, radix, digits⟩ := by
  cases h with
  | hexadecimal hx => rcases hx with rfl | rfl <;> rfl
  | binary hb => rcases hb with rfl | rfl <;> rfl
  | decimal =>
    -- the letter of another mark would have to be a decimal digit
    have hletter : ∀ letter rest, digits = '0' :: letter :: rest → digit? 10 letter ≠ none := by
      rintro letter rest rfl
      obtain ⟨value, hvalue⟩ := hdigits.exists_isDigit letter (by simp)
      rw [(digit?_eq_some_iff (by decide)).mpr hvalue]
      simp
    rw [List.nil_append]
    unfold Spelling.ofUnsigned
    split
    · exact absurd rfl (hletter 'x' _ rfl)
    · exact absurd rfl (hletter 'X' _ rfl)
    · exact absurd rfl (hletter 'b' _ rfl)
    · exact absurd rfl (hletter 'B' _ rfl)
    · rfl

theorem exists_mark (negative : Bool) (chars : List Char) :
    ∃ mark radix digits, Mark mark radix ∧ chars = mark ++ digits ∧
      Spelling.ofUnsigned negative chars = ⟨negative, radix, digits⟩ := by
  unfold Spelling.ofUnsigned
  split
  · next digits => exact ⟨['0', 'x'], 16, digits, .hexadecimal (.inl rfl), rfl, rfl⟩
  · next digits => exact ⟨['0', 'X'], 16, digits, .hexadecimal (.inr rfl), rfl, rfl⟩
  · next digits => exact ⟨['0', 'b'], 2, digits, .binary (.inl rfl), rfl, rfl⟩
  · next digits => exact ⟨['0', 'B'], 2, digits, .binary (.inr rfl), rfl, rfl⟩
  · exact ⟨[], 10, chars, .decimal, rfl, rfl⟩

theorem Mark.isAlphanum {mark digits : List Char} {radix magnitude : Nat} (h : Mark mark radix)
    (hdigits : IsNumeral radix digits magnitude) : ∀ c ∈ mark ++ digits, c.isAlphanum = true := by
  intro c hmem
  rcases List.mem_append.mp hmem with hmark | hdigit
  · cases h with
    | decimal => cases hmark
    | hexadecimal hx => rcases hx with rfl | rfl <;> exact List.all_eq_true.mp rfl c hmark
    | binary hb => rcases hb with rfl | rfl <;> exact List.all_eq_true.mp rfl c hmark
  · obtain ⟨value, hvalue⟩ := hdigits.exists_isDigit c hdigit
    exact hvalue.isAlphanum h.le

/-- A literal is read as its sign, its radix and its digits. -/
theorem ofChars_of_numeral {sign mark digits : List Char} {factor : Int} {radix magnitude : Nat}
    (hsign : Sign sign factor) (hmark : Mark mark radix)
    (hdigits : IsNumeral radix digits magnitude) :
    Spelling.ofChars (sign ++ (mark ++ digits)) = ⟨factor < 0, radix, digits⟩ := by
  cases hsign with
  | minus => exact hmark.ofUnsigned hdigits true
  | plus =>
    have hminus : ∀ rest, mark ++ digits ≠ '-' :: rest := by
      intro rest heq
      exact absurd (hmark.isAlphanum hdigits '-' (by simp [heq])) (by decide)
    rw [List.nil_append]
    unfold Spelling.ofChars
    split
    · next rest heq => exact absurd heq (hminus rest)
    · exact hmark.ofUnsigned hdigits false

theorem exists_sign (chars : List Char) :
    ∃ sign factor mark radix digits, Sign sign factor ∧ Mark mark radix ∧
      chars = sign ++ (mark ++ digits) ∧
      Spelling.ofChars chars = ⟨factor < 0, radix, digits⟩ := by
  unfold Spelling.ofChars
  split
  · next rest =>
    obtain ⟨mark, radix, digits, hmark, rfl, hsplit⟩ := exists_mark true rest
    exact ⟨['-'], -1, mark, radix, digits, .minus, hmark, rfl, hsplit⟩
  · obtain ⟨mark, radix, digits, hmark, hchars, hsplit⟩ := exists_mark false chars
    exact ⟨[], 1, mark, radix, digits, .plus, hmark, hchars, hsplit⟩

/-! ### Words -/

/-- The word of a magnitude and its sign. -/
def signedWord (negative : Bool) (magnitude : Nat) : UInt32 :=
  if negative then - UInt32.ofNat magnitude else UInt32.ofNat magnitude

/-- The word of a magnitude in range is the value modulo 2^32. -/
theorem toNat_signedWord {sign : List Char} {factor : Int} (h : Sign sign factor) {magnitude : Nat}
    (hlt : magnitude < Spelling.bound (factor < 0)) :
    ((signedWord (factor < 0) magnitude).toNat : Int) = factor * magnitude % 2 ^ 32 := by
  cases h with
  | plus =>
    change ((UInt32.ofNat magnitude).toNat : Int) = 1 * (magnitude : Int) % 2 ^ 32
    rw [UInt32.toNat_ofNat']
    omega
  | minus =>
    change ((- UInt32.ofNat magnitude).toNat : Int) = -1 * (magnitude : Int) % 2 ^ 32
    rw [UInt32.toNat_neg, UInt32.toNat_ofNat', UInt32.size]
    change magnitude < 0x80000001 at hlt
    omega

/-- A magnitude is below its bound when the value is in range. -/
theorem lt_bound_iff {sign : List Char} {factor : Int} (h : Sign sign factor) (magnitude : Nat) :
    magnitude < Spelling.bound (factor < 0) ↔
      -2 ^ 31 ≤ factor * magnitude ∧ factor * magnitude ≤ 2 ^ 32 - 1 := by
  cases h with
  | plus =>
    change magnitude < 0x100000000 ↔ _
    omega
  | minus =>
    change magnitude < 0x80000001 ↔ _
    omega

/-- The word of a spelling is that of its magnitude, if this is below the bound. -/
theorem word?_eq_some_iff {spelling : Spelling} (hradix : spelling.radix ≤ 16) {word : UInt32} :
    spelling.word? = some word ↔
      ∃ magnitude, IsNumeral spelling.radix spelling.digits magnitude ∧
        magnitude < Spelling.bound spelling.negative ∧
        word = signedWord spelling.negative magnitude := by
  unfold Spelling.word?
  generalize hbound : Spelling.bound spelling.negative = bound
  have hread := @magnitude?_eq_some_iff spelling.radix bound
  constructor
  · intro h
    split at h
    · cases h
    · next n hn =>
      obtain ⟨magnitude, hdigits, rfl⟩ := (hread hradix).mp hn
      split at h
      · next hlt =>
        have hmin : min magnitude bound = magnitude := by omega
        rw [hmin] at h hlt
        exact ⟨magnitude, hdigits, hlt, (Option.some.inj h).symm⟩
      · cases h
  · rintro ⟨magnitude, hdigits, hlt, rfl⟩
    rw [(hread hradix).mpr ⟨magnitude, hdigits, rfl⟩, Nat.min_eq_left (Nat.le_of_lt hlt)]
    exact if_pos hlt

/-- A literal in range stands for its value modulo 2^32, and nothing else stands for anything. -/
theorem integer?_eq_some_iff {token : String} {word : UInt32} :
    integer? token = some word ↔
      ∃ value, Spells token.toList value ∧ -2 ^ 31 ≤ value ∧ value ≤ 2 ^ 32 - 1 ∧
        (word.toNat : Int) = value % 2 ^ 32 := by
  unfold integer?
  constructor
  · intro h
    obtain ⟨sign, factor, mark, radix, digits, hsign, hmark, hchars, hsplit⟩ :=
      exists_sign token.toList
    rw [hsplit, word?_eq_some_iff hmark.le] at h
    obtain ⟨magnitude, hdigits, hlt, rfl⟩ := h
    obtain ⟨hlow, hhigh⟩ := (lt_bound_iff hsign magnitude).mp hlt
    refine ⟨factor * magnitude, ?_, hlow, hhigh, toNat_signedWord hsign hlt⟩
    rw [hchars]
    exact .number hsign hmark hdigits
  · rintro ⟨value, hspells, hlow, hhigh, hword⟩
    generalize token.toList = chars at hspells ⊢
    cases hspells with
    | @number sign mark digits factor radix magnitude hsign hmark hdigits =>
      have hlt := (lt_bound_iff hsign magnitude).mpr ⟨hlow, hhigh⟩
      rw [ofChars_of_numeral hsign hmark hdigits, word?_eq_some_iff hmark.le]
      have hsame := hword.trans (toNat_signedWord hsign hlt).symm
      exact ⟨magnitude, hdigits, hlt, UInt32.toNat_inj.mp (Int.ofNat_inj.mp hsame)⟩

/-! ### One value -/

theorem IsNumeral.unique {radix magnitude other : Nat} {digits : List Char} (hradix : radix ≤ 16)
    (h : IsNumeral radix digits magnitude) (hother : IsNumeral radix digits other) :
    magnitude = other := by
  -- under a ceiling that is above both, the reader gives both of them
  have hread := (magnitude?_eq_some_iff hradix).mpr
    ⟨magnitude, h, (Nat.min_eq_left (Nat.le_add_right magnitude other)).symm⟩
  rw [(magnitude?_eq_some_iff hradix).mpr
    ⟨other, hother, (Nat.min_eq_left (Nat.le_add_left other magnitude)).symm⟩] at hread
  exact (Option.some.inj hread).symm

theorem Sign.eq_of_neg {sign sign' : List Char} {factor factor' : Int} (h : Sign sign factor)
    (h' : Sign sign' factor') (hneg : decide (factor < 0) = decide (factor' < 0)) :
    factor = factor' := by
  cases h with
  | plus =>
    cases h' with
    | plus => rfl
    | minus => cases hneg
  | minus =>
    cases h' with
    | plus => cases hneg
    | minus => rfl

theorem Spells.unique {chars : List Char} {value other : Int} (h : Spells chars value)
    (hother : Spells chars other) : value = other := by
  obtain @⟨sign, mark, digits, factor, radix, magnitude, hsign, hmark, hdigits⟩ := h
  generalize hchars : sign ++ (mark ++ digits) = chars at hother
  obtain @⟨sign', mark', digits', factor', radix', magnitude', hsign', hmark', hdigits'⟩ := hother
  have hsame := ofChars_of_numeral hsign hmark hdigits
  rw [hchars, ofChars_of_numeral hsign' hmark' hdigits', Spelling.mk.injEq] at hsame
  obtain ⟨hneg, rfl, rfl⟩ := hsame
  rw [hdigits.unique hmark.le hdigits', hsign.eq_of_neg hsign' hneg.symm]

/-- What characters stand for that spell an integer depends on that integer alone. -/
theorem integer?_of_spells {chars : List Char} {value : Int} (h : Spells chars value)
    (word : UInt32) :
    integer? (String.ofList chars) = some word ↔
      -2 ^ 31 ≤ value ∧ value ≤ 2 ^ 32 - 1 ∧ (word.toNat : Int) = value % 2 ^ 32 := by
  rw [integer?_eq_some_iff, String.toList_ofList]
  constructor
  · rintro ⟨other, hother, hrange⟩
    rwa [h.unique hother]
  · intro hrange
    exact ⟨value, h, hrange⟩

/-- Integer literals are parsed exactly. A token stands for a word if and only if it spells an
integer between -2^31 and 2^32 - 1, and the word is that integer modulo 2^32. However many digits it
has, a token that spells an integer out of this range stands for nothing; and zeros in front of the
digits make no difference. -/
theorem integer?_exact :
    (∀ (token : String) (word : UInt32), integer? token = some word ↔
      ∃ value, Spells token.toList value ∧ -2 ^ 31 ≤ value ∧ value ≤ 2 ^ 32 - 1 ∧
        (word.toNat : Int) = value % 2 ^ 32) ∧
    (∀ (token : String) (value : Int), Spells token.toList value →
      value < -2 ^ 31 ∨ 2 ^ 32 - 1 < value → integer? token = none) ∧
    ∀ (sign mark digits : List Char) (factor : Int) (radix magnitude count : Nat),
      Sign sign factor → Mark mark radix → IsNumeral radix digits magnitude →
      integer? (String.ofList (sign ++ (mark ++ (List.replicate count '0' ++ digits)))) =
        integer? (String.ofList (sign ++ (mark ++ digits))) := by
  refine ⟨fun token word => integer?_eq_some_iff, ?_, ?_⟩
  · intro token value hspells hrange
    rw [Option.eq_none_iff_forall_ne_some]
    intro word hword
    rw [← String.ofList_toList (s := token)] at hword
    obtain ⟨hlow, hhigh, -⟩ := (integer?_of_spells hspells word).mp hword
    omega
  · intro sign mark digits factor radix magnitude count hsign hmark hdigits
    have hspells := Spells.number hsign hmark hdigits
    have hzeros := Spells.number hsign hmark (hdigits.zeros hmark.pos count)
    apply Option.ext
    intro word
    rw [integer?_of_spells hspells, integer?_of_spells hzeros]

/-- The least literal; a literal that is zero modulo 2^64; and zeros after a mark. -/
theorem integer?_exact_limits :
    integer? "-0x80000000" = some 0x80000000 ∧
      Spells "18446744073709551616".toList 18446744073709551616 ∧
      integer? "18446744073709551616" = none ∧ integer? "0b0011" = integer? "0b11" := by
  obtain ⟨hvalue, hrange, hzeros⟩ := integer?_exact
  have hnumeral : ∀ radix ≤ 16, ∀ ceiling n digits, n < ceiling →
      magnitude? radix ceiling digits = some n → IsNumeral radix digits n := by
    intro radix hradix ceiling n digits hlt hread
    obtain ⟨magnitude, hdigits, hmin⟩ := (magnitude?_eq_some_iff hradix).mp hread
    have hsame : n = magnitude := by omega
    exact hsame ▸ hdigits
  have hleast := hnumeral 16 (by decide) 0x80000001 0x80000000 "80000000".toList (by decide)
    (by decide)
  have hlarge := hnumeral 10 (by decide) 18446744073709551617 18446744073709551616
    "18446744073709551616".toList (by decide) (by decide)
  have hthree := hnumeral 2 (by decide) 4 3 "11".toList (by decide) (by decide)
  have hspells : Spells "18446744073709551616".toList 18446744073709551616 :=
    .number .plus .decimal hlarge
  refine ⟨(hvalue _ _).mpr ⟨-0x80000000, ?_, by decide, by decide, by decide⟩, hspells,
    hrange _ _ hspells (.inr (by decide)), ?_⟩
  · exact .number .minus (.hexadecimal (.inl rfl)) hleast
  · exact hzeros [] ['0', 'b'] ['1', '1'] 1 2 3 2 .plus (.binary (.inl rfl)) hthree

end EventScript.Token
