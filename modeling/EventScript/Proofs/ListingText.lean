import Mathlib.Data.List.Basic
import EventScript.Listing
import EventScript.Proofs.Physical

/-!
Reading a listing. A row starts with its address and two spaces. When fewer characters follow than
the bytes column is wide, they are the bytes of a further row; otherwise that many of them are the
bytes of a first row, and its number and its text come after them.

        0010  02 03 02 00 68 69         12  say "hi"
        0018  01 00 00
        address bytes column         number  text
-/

namespace EventScript.Listing

open Text.Numeral (digit? hexUpper column)

/-! ### The reader -/

/-- The number that digits stand for. -/
def readNumber (radix : Nat) (digits : List Char) : Nat :=
  digits.foldl (fun number c => radix * number + (digit? radix c).getD 0) 0

/-- The bytes of a row: two digits each, with a space between, up to the padding. -/
def readBytes : List Char → List UInt8
  | [] | [_] => []
  | [high, low] => if high = ' ' then [] else [UInt8.ofNat (readNumber 16 [high, low])]
  | high :: low :: _ :: rest =>
    if high = ' ' then [] else UInt8.ofNat (readNumber 16 [high, low]) :: readBytes rest

/-- The width of the bytes column. -/
def bytesWidth : Nat := 24

/-- The row that the characters of one line of a listing are. -/
def readRow (chars : List Char) : Row :=
  let address := readNumber 16 (chars.takeWhile (· ≠ ' '))
  let columns := (chars.dropWhile (· ≠ ' ')).drop 2
  if columns.length < bytesWidth then .further address (readBytes columns)
  else
    let numbered := (columns.drop (bytesWidth + 2)).dropWhile (· = ' ')
    .first address (readBytes (columns.take bytesWidth))
      (readNumber 10 (numbered.takeWhile (· ≠ ' ')))
      (String.ofList ((numbered.dropWhile (· ≠ ' ')).drop 2))

/-- The rows of a listing, below its header. -/
def read (listing : String) : List Row :=
  ((Text.charLines listing.toList).drop 2).map readRow

/-! ### Numbers -/

/-- The digits of a number are digits below the radix. -/
theorem exists_digit_of_mem_toDigits {radix n : Nat} (hradix : 1 < radix) {c : Char}
    (h : c ∈ Nat.toDigits radix n) : ∃ d < radix, c = d.digitChar := by
  induction n using Nat.strongRecOn with
  | ind n ih =>
    rw [Nat.toDigits_eq_if hradix] at h
    split at h
    · next hsmall => exact ⟨n, hsmall, List.mem_singleton.mp h⟩
    · next hlarge =>
      rcases List.mem_append.mp h with hfront | hlast
      · exact ih (n / radix) (Nat.div_lt_self (by omega) hradix) hfront
      · exact ⟨n % radix, Nat.mod_lt n (by omega), List.mem_singleton.mp hlast⟩

theorem readNumber_append_singleton (radix : Nat) (digits : List Char) (c : Char) :
    readNumber radix (digits ++ [c]) =
      radix * readNumber radix digits + (digit? radix c).getD 0 := by
  rw [readNumber, List.foldl_append, readNumber]
  rfl

/-- Digits are read back as the number, however they are spelled. -/
theorem readNumber_toDigits {radix : Nat} (hradix : 1 < radix) {spell : Char → Char}
    (hspell : ∀ d < radix, digit? radix (spell d.digitChar) = some d) (n : Nat) :
    readNumber radix ((Nat.toDigits radix n).map spell) = n := by
  induction n using Nat.strongRecOn with
  | ind n ih =>
    rw [Nat.toDigits_eq_if hradix]
    split
    · next hsmall => simp [readNumber, hspell n hsmall]
    · next hlarge =>
      have hfront := ih (n / radix) (Nat.div_lt_self (by omega) hradix)
      rw [List.map_append, List.map_singleton, readNumber_append_singleton, hfront,
        hspell _ (Nat.mod_lt n (by omega)), Option.getD_some, Nat.div_add_mod]

theorem readNumber_leftpad (radix width : Nat) (digits : List Char) :
    readNumber radix (digits.leftpad width '0') = readNumber radix digits := by
  have hzero : (digit? radix '0').getD 0 = 0 := by
    cases radix <;> simp [digit?, Option.filter]
  have hzeros : ∀ count, readNumber radix (List.replicate count '0') = 0 := by
    intro count
    induction count with
    | zero => rfl
    | succ count ih =>
      rw [List.replicate_succ', readNumber_append_singleton, ih, hzero, Nat.mul_zero]
  rw [List.leftpad, readNumber, List.foldl_append, ← readNumber, hzeros, readNumber]

theorem digit?_toUpper : ∀ d < 16, digit? 16 d.digitChar.toUpper = some d := by decide

theorem digit?_digitChar : ∀ d < 10, digit? 10 d.digitChar = some d := by decide

theorem isAlphanum_toUpper : ∀ d < 16, d.digitChar.toUpper.isAlphanum = true := by decide

theorem isAlphanum_digitChar : ∀ d < 10, d.digitChar.isAlphanum = true := by decide

theorem readNumber_hexUpper (width n : Nat) : readNumber 16 (hexUpper width n).toList = n := by
  rw [hexUpper, String.toList_ofList, readNumber_leftpad,
    readNumber_toDigits (by decide) digit?_toUpper]

/-- Letters and digits only. -/
def IsWord (chars : List Char) : Prop := ∀ c ∈ chars, c.isAlphanum = true

theorem IsWord.ne_space {word : List Char} (h : IsWord word) : ∀ c ∈ word, c ≠ ' ' := by
  rintro c hmem rfl
  exact absurd (h ' ' hmem) (by decide)

theorem isWord_hexUpper (width n : Nat) : IsWord (hexUpper width n).toList := by
  intro c hmem
  rw [hexUpper, String.toList_ofList, List.leftpad, List.mem_append] at hmem
  rcases hmem with hzero | hdigit
  · rw [List.eq_of_mem_replicate hzero]
    rfl
  · obtain ⟨digit, hmem, rfl⟩ := List.mem_map.mp hdigit
    obtain ⟨d, hlt, rfl⟩ := exists_digit_of_mem_toDigits (by decide : 1 < 16) hmem
    exact isAlphanum_toUpper d hlt

theorem isWord_toDigits (n : Nat) : IsWord (Nat.toDigits 10 n) := by
  intro c hmem
  obtain ⟨d, hlt, rfl⟩ := exists_digit_of_mem_toDigits (by decide : 1 < 10) hmem
  exact isAlphanum_digitChar d hlt

/-- A word ends at the space after it. -/
theorem takeWhile_word {word : List Char} (h : IsWord word) (rest : List Char) :
    (word ++ ' ' :: rest).takeWhile (· ≠ ' ') = word := by
  rw [List.takeWhile_append_of_pos (by simpa using h.ne_space)]
  simp

theorem dropWhile_word {word : List Char} (h : IsWord word) (rest : List Char) :
    (word ++ ' ' :: rest).dropWhile (· ≠ ' ') = ' ' :: rest := by
  rw [List.dropWhile_append_of_pos (by simpa using h.ne_space)]
  simp

/-- The spaces in front of a number in its column can be left out. -/
theorem dropWhile_column (width number : Nat) (rest : List Char) :
    ((column width number).toList ++ rest).dropWhile (· = ' ') =
      Nat.toDigits 10 number ++ rest := by
  have hblank : ∀ c ∈ List.replicate (width - (Nat.toDigits 10 number).length) ' ',
      decide (c = ' ') = true := by
    intro c hmem
    rw [List.eq_of_mem_replicate hmem]
    rfl
  rw [column, String.toList_ofList, List.leftpad, List.append_assoc,
    List.dropWhile_append_of_pos hblank]
  have hdigits := (isWord_toDigits number).ne_space
  cases hchars : Nat.toDigits 10 number with
  | nil => exact absurd hchars Nat.toDigits_ne_nil
  | cons c digits =>
    have hc : c ≠ ' ' := hdigits c (by simp [hchars])
    simp [hc]

/-! ### Bytes -/

theorem exists_hexUpper_byte (byte : UInt8) :
    ∃ high low, (hexUpper 2 byte.toNat).toList = [high, low] ∧ high ≠ ' ' ∧
      UInt8.ofNat (readNumber 16 [high, low]) = byte := by
  have hlength : (hexUpper 2 byte.toNat).toList.length = 2 := by
    have hdigits : (Nat.toDigits 16 byte.toNat).length ≤ 2 :=
      (Nat.length_toDigits_le_iff (by decide) (by decide)).mpr byte.toNat_lt
    rw [hexUpper, String.toList_ofList, List.length_leftpad, List.length_map]
    omega
  obtain ⟨high, low, hchars⟩ := List.length_eq_two.mp hlength
  have hnumber := readNumber_hexUpper 2 byte.toNat
  rw [hchars] at hnumber
  refine ⟨high, low, hchars, ?_, by rw [hnumber, UInt8.ofNat_toNat]⟩
  exact (isWord_hexUpper 2 byte.toNat).ne_space high (by simp [hchars])

theorem toList_bytesText (bytes : List UInt8) :
    (bytesText bytes).toList =
      [' '].intercalate (bytes.map fun byte => (hexUpper 2 byte.toNat).toList) := by
  rw [bytesText, String.toList_intercalate, List.map_map]
  rfl

theorem readBytes_of_blank {pad : List Char} (h : ∀ c ∈ pad, c = ' ') : readBytes pad = [] := by
  match pad with
  | [] => rfl
  | [c] => rfl
  | [c, _] => rw [readBytes, if_pos (h c List.mem_cons_self)]
  | c :: _ :: _ :: _ => rw [readBytes, if_pos (h c List.mem_cons_self)]

/-- Bytes are read back, with padding after them or without. -/
theorem readBytes_bytesText (bytes : List UInt8) {pad : List Char} (h : ∀ c ∈ pad, c = ' ') :
    readBytes ((bytesText bytes).toList ++ pad) = bytes := by
  rw [toList_bytesText]
  induction bytes with
  | nil => exact readBytes_of_blank h
  | cons byte rest ih =>
    obtain ⟨high, low, hchars, hhigh, hbyte⟩ := exists_hexUpper_byte byte
    cases rest with
    | nil =>
      rw [List.map_singleton, List.intercalate_singleton, hchars]
      cases pad with
      | nil =>
        rw [List.append_nil, readBytes, if_neg hhigh, hbyte]
      | cons c pad =>
        have hpad := readBytes_of_blank fun x hmem => h x (List.mem_cons_of_mem c hmem)
        rw [List.cons_append, List.singleton_append, readBytes, if_neg hhigh, hbyte, hpad]
    | cons next rest =>
      rw [List.map_cons, List.map_cons, List.intercalate_cons_cons, hchars]
      rw [List.map_cons] at ih
      simp only [List.cons_append, List.nil_append]
      rw [readBytes, if_neg hhigh, hbyte, ih]

theorem length_bytesText (bytes : List UInt8) :
    (bytesText bytes).toList.length = 3 * bytes.length - 1 := by
  rw [toList_bytesText]
  induction bytes with
  | nil => rfl
  | cons byte rest ih =>
    obtain ⟨high, low, hchars, -, -⟩ := exists_hexUpper_byte byte
    cases rest with
    | nil => simp [hchars]
    | cons next rest =>
      rw [List.map_cons, List.map_cons, List.intercalate_cons_cons, hchars]
      rw [List.map_cons] at ih
      simp only [List.length_append, ih, List.length_cons, List.length_nil]
      omega

/-! ### Rows -/

/-- A row that can be read back: no more bytes than fit, and a text that is one line. -/
def Row.IsLegible : Row → Prop
  | .first _ bytes _ text =>
    bytes.length ≤ rowBytes ∧ '\n' ∉ text.toList ∧ text.toList.getLast? ≠ some '\r'
  | .further _ bytes => bytes.length ≤ rowBytes

/-- The characters of a row, without its line end. -/
def Row.chars : Row → List Char
  | .first address bytes number text =>
    (hexUpper 4 address).toList ++
      ' ' :: ' ' :: ((bytesText bytes).toList.rightpad bytesWidth ' ' ++
        ' ' :: ' ' :: ((column 4 number).toList ++ ' ' :: ' ' :: text.toList))
  | .further address bytes =>
    (hexUpper 4 address).toList ++ ' ' :: ' ' :: (bytesText bytes).toList

theorem toList_render (row : Row) : row.render.toList = row.chars ++ ['\n'] := by
  cases row with
  | first address bytes number text =>
    simp [Row.render, Row.chars, padRight, bytesWidth, toString]
  | further address bytes => simp [Row.render, Row.chars, toString]

/-- A row is read back as it was. -/
theorem readRow_chars {row : Row} (h : row.IsLegible) : readRow row.chars = row := by
  cases row with
  | further address bytes =>
    have hshort : (bytesText bytes).toList.length < bytesWidth := by
      have hbytes : bytes.length ≤ 8 := h
      rw [length_bytesText, bytesWidth]
      omega
    have hread := readBytes_bytesText bytes (List.forall_mem_nil _)
    rw [List.append_nil] at hread
    simp only [readRow, Row.chars, takeWhile_word (isWord_hexUpper 4 address),
      dropWhile_word (isWord_hexUpper 4 address), readNumber_hexUpper, List.drop_succ_cons,
      List.drop_zero, if_pos hshort, hread]
  | first address bytes number text =>
    obtain ⟨hbytes, -, -⟩ := h
    have hwidth : ((bytesText bytes).toList.rightpad bytesWidth ' ').length = bytesWidth := by
      change bytes.length ≤ 8 at hbytes
      rw [List.length_rightpad, length_bytesText, bytesWidth]
      omega
    have hread : readBytes ((bytesText bytes).toList.rightpad bytesWidth ' ') = bytes :=
      readBytes_bytesText bytes fun c hmem => List.eq_of_mem_replicate hmem
    have hdigits := isWord_toDigits number
    have hnumber := @readNumber_toDigits 10 (by decide) id digit?_digitChar number
    rw [List.map_id] at hnumber
    have hlong : ∀ more, ¬ ((bytesText bytes).toList.rightpad bytesWidth ' ' ++ more).length <
        bytesWidth := by
      intro more
      rw [List.length_append, hwidth]
      exact Nat.not_lt.mpr (Nat.le_add_right _ _)
    have hbehind : ∀ more, ((bytesText bytes).toList.rightpad bytesWidth ' ' ++
        ' ' :: ' ' :: more).drop (bytesWidth + 2) = more := by
      intro more
      rw [← List.drop_drop, List.drop_left' hwidth]
      rfl
    simp only [readRow, Row.chars, takeWhile_word (isWord_hexUpper 4 address),
      dropWhile_word (isWord_hexUpper 4 address), readNumber_hexUpper, List.drop_succ_cons,
      List.drop_zero, if_neg (hlong _), List.take_left' hwidth, hread, hbehind, dropWhile_column,
      takeWhile_word hdigits, dropWhile_word hdigits, hnumber, String.ofList_toList]

/-! ### The whole listing -/

/-- Letters, digits and spaces only. -/
def IsPlain (chars : List Char) : Prop := ∀ c ∈ chars, c.isAlphanum = true ∨ c = ' '

theorem IsWord.isPlain {word : List Char} (h : IsWord word) : IsPlain word :=
  fun c hmem => .inl (h c hmem)

theorem isPlain_replicate (count : Nat) : IsPlain (List.replicate count ' ') :=
  fun _ hmem => .inr (List.eq_of_mem_replicate hmem)

theorem IsPlain.append {chars more : List Char} (h : IsPlain chars) (hmore : IsPlain more) :
    IsPlain (chars ++ more) := by
  intro c hmem
  exact (List.mem_append.mp hmem).elim (h c) (hmore c)

theorem IsPlain.ne {chars : List Char} (h : IsPlain chars) {c : Char} (hc : c.isAlphanum = false)
    (hspace : c ≠ ' ') : c ∉ chars := by
  intro hmem
  rcases h c hmem with halphanum | hblank
  · simp [hc] at halphanum
  · exact hspace hblank

theorem isPlain_column (width n : Nat) : IsPlain (column width n).toList := by
  rw [column, String.toList_ofList]
  exact (isPlain_replicate _).append (isWord_toDigits n).isPlain

theorem isPlain_bytesText (bytes : List UInt8) : IsPlain (bytesText bytes).toList := by
  rw [toList_bytesText]
  induction bytes with
  | nil => exact fun c hmem => by simp at hmem
  | cons byte rest ih =>
    have hbyte := (isWord_hexUpper 2 byte.toNat).isPlain
    cases rest with
    | nil => simpa using hbyte
    | cons next rest =>
      rw [List.map_cons, List.map_cons, List.intercalate_cons_cons]
      exact (hbyte.append (isPlain_replicate 1)).append ih

/-- A row is plain up to its text. -/
theorem Row.exists_isPlain {row : Row} (h : row.IsLegible) :
    ∃ front text, row.chars = front ++ text ∧ IsPlain front ∧ '\n' ∉ text ∧
      text.getLast? ≠ some '\r' := by
  cases row with
  | further address bytes =>
    refine ⟨_, [], (List.append_nil _).symm, ?_, List.not_mem_nil, by simp⟩
    exact (isWord_hexUpper 4 address).isPlain.append
      ((isPlain_replicate 2).append (isPlain_bytesText bytes))
  | first address bytes number text =>
    obtain ⟨-, hfeed, hreturn⟩ := h
    refine ⟨(hexUpper 4 address).toList ++ (List.replicate 2 ' ' ++
      ((bytesText bytes).toList.rightpad bytesWidth ' ' ++ (List.replicate 2 ' ' ++
        ((column 4 number).toList ++ List.replicate 2 ' ')))), text.toList, ?_, ?_, hfeed, hreturn⟩
    · simp [Row.chars, List.replicate]
    · have hbytes : IsPlain ((bytesText bytes).toList.rightpad bytesWidth ' ') :=
        (isPlain_bytesText bytes).append (isPlain_replicate _)
      exact (isWord_hexUpper 4 address).isPlain.append ((isPlain_replicate 2).append
        (hbytes.append ((isPlain_replicate 2).append
          ((isPlain_column 4 number).append (isPlain_replicate 2)))))

theorem Row.feed_notMem_chars {row : Row} (h : row.IsLegible) : '\n' ∉ row.chars := by
  obtain ⟨front, text, hchars, hfront, htext, -⟩ := row.exists_isPlain h
  rw [hchars, List.mem_append, not_or]
  exact ⟨hfront.ne (by decide) (by decide), htext⟩

theorem Row.getLast?_chars {row : Row} (h : row.IsLegible) : row.chars.getLast? ≠ some '\r' := by
  obtain ⟨front, text, hchars, hfront, -, htext⟩ := row.exists_isPlain h
  rw [hchars, List.getLast?_append, ne_eq, Option.or_eq_some_iff, not_or]
  refine ⟨htext, fun ⟨_, hlast⟩ => ?_⟩
  exact hfront.ne (by decide) (by decide) (List.mem_of_getLast? hlast)

theorem drop_charLines_header (back : List Char) :
    (Text.charLines (header.toList ++ back)).drop 2 = Text.charLines back := by
  have hlength : (Text.charLines header.toList).length = 2 := by decide
  rw [Text.charLines_append (.inr ⟨header.toList.dropLast, by decide⟩), List.drop_left' hlength]

/-- A listing is read back as the rows that it was written from. -/
theorem read_render {output : Array UInt8} {lines : List Line}
    (h : ∀ row ∈ rows output lines, row.IsLegible) :
    read (render output lines) = rows output lines := by
  have hlines : Text.charLines (((rows output lines).map Row.chars).flatMap (· ++ ['\n'])) =
      (rows output lines).map Row.chars := by
    refine Text.charLines_fed fun line hline => ?_
    obtain ⟨row, hmem, rfl⟩ := List.mem_map.mp hline
    exact ⟨Row.feed_notMem_chars (h row hmem), Row.getLast?_chars (h row hmem)⟩
  rw [List.flatMap_map] at hlines
  rw [read, render, String.toList_append, drop_charLines_header, String.toList_join,
    List.flatMap_map]
  simp only [toList_render]
  rw [hlines, List.map_map]
  exact (List.map_congr_left fun row hmem => readRow_chars (h row hmem)).trans (List.map_id _)

end EventScript.Listing
