import EventScript.Proofs.Extension
import EventScript.Proofs.ListingText

/-!
Reading a symbol dump. Headings stand at the start of their lines and entries are indented, so a
label or a variable may have the name of a heading. Of an entry the digits come first, with zeros or
spaces in front of them, and the name comes last; a name has no space in it.

        LABELS
          0012  START          offset   name
          1F0004  VARIABLES    a wide offset; no heading
        VARIABLES
             0  count          index    name
-/

namespace EventScript.Listing

open Text.Numeral (digit? hexUpper column)

/-! ### The reader -/

/-- The name and the number on a line that is indented: the digits end at the first space after
them, and a symbolic name is all that follows. -/
def readSymbol? (radix : Nat) : List Char → Option (String × Nat)
  | ' ' :: ' ' :: chars =>
    let padded := chars.dropWhile (· = ' ')
    let digits := padded.takeWhile (· ≠ ' ')
    match padded.dropWhile (· ≠ ' ') with
    | ' ' :: ' ' :: name =>
      if digits ≠ [] ∧ digits.all (fun c => (digit? radix c).isSome) ∧ Token.isNameChars name then
        some (String.ofList name, readNumber radix digits)
      else none
    | _ => none
  | _ => none

/-- The entries on lines, if each of them has one. -/
def readSection? (radix : Nat) : List (List Char) → Option (List (String × Nat))
  | [] => some []
  | line :: rest =>
    match readSymbol? radix line, readSection? radix rest with
    | some entry, some entries => some (entry :: entries)
    | _, _ => none

/-- The line above the labels. -/
def labelsHeading : List Char := ['L', 'A', 'B', 'E', 'L', 'S']

/-- The line between the labels and the variables. -/
def variablesHeading : List Char := ['V', 'A', 'R', 'I', 'A', 'B', 'L', 'E', 'S']

/-- The labels and the variables that a symbol dump lists. -/
def readDump? (dump : String) : Option (List (String × Nat) × List (String × Nat)) :=
  match Text.charLines dump.toList with
  | [] => none
  | first :: lines =>
    if first = labelsHeading then
      match lines.dropWhile (· ≠ variablesHeading) with
      | [] => none
      | _ :: later =>
        match readSection? 16 (lines.takeWhile (· ≠ variablesHeading)), readSection? 10 later with
        | some labels, some vars => some (labels, vars)
        | _, _ => none
    else none

/-! ### Entries -/

/-- The characters of an entry, without its line end. -/
def symbolChars (number : List Char) (name : String) : List Char :=
  ' ' :: ' ' :: (number ++ ' ' :: ' ' :: name.toList)

theorem toList_labelText (name : String) (offset : Nat) :
    (labelText name offset).toList = symbolChars (hexUpper 4 offset).toList name ++ ['\n'] := by
  simp [labelText, symbolChars, toString]

theorem toList_variableText (name : String) (index : Nat) :
    (variableText name index).toList = symbolChars (column 4 index).toList name ++ ['\n'] := by
  simp [variableText, symbolChars, toString]

/-- Digits of a radix, at least one. -/
structure IsNumber (radix : Nat) (digits : List Char) : Prop where
  ne_nil : digits ≠ []
  isSome_digit? : ∀ c ∈ digits, (digit? radix c).isSome
  isWord : IsWord digits

theorem isNumber_hexUpper (width n : Nat) : IsNumber 16 (hexUpper width n).toList where
  ne_nil := by simp [hexUpper, List.leftpad, Nat.toDigits_ne_nil]
  isSome_digit? := by
    intro c hmem
    rw [hexUpper, String.toList_ofList, List.leftpad, List.mem_append] at hmem
    rcases hmem with hzero | hdigit
    · rw [List.eq_of_mem_replicate hzero]
      rfl
    · obtain ⟨digit, hmem, rfl⟩ := List.mem_map.mp hdigit
      obtain ⟨d, hlt, rfl⟩ := exists_digit_of_mem_toDigits (by decide : 1 < 16) hmem
      rw [digit?_toUpper d hlt]
      rfl
  isWord := isWord_hexUpper width n

theorem isNumber_toDigits (n : Nat) : IsNumber 10 (Nat.toDigits 10 n) where
  ne_nil := Nat.toDigits_ne_nil
  isSome_digit? := by
    intro c hmem
    obtain ⟨d, hlt, rfl⟩ := exists_digit_of_mem_toDigits (by decide : 1 < 10) hmem
    rw [digit?_digitChar d hlt]
    rfl
  isWord := isWord_toDigits n

/-- An entry is read back, with spaces in front of its digits or without. -/
theorem readSymbol?_symbolChars {radix : Nat} {pad digits : List Char} {name : String}
    (hpad : ∀ c ∈ pad, c = ' ') (hdigits : IsNumber radix digits)
    (hname : Token.isName name = true) :
    readSymbol? radix (symbolChars (pad ++ digits) name) =
      some (name, readNumber radix digits) := by
  have hpadded : (pad ++ digits ++ ' ' :: ' ' :: name.toList).dropWhile (· = ' ') =
      digits ++ ' ' :: ' ' :: name.toList := by
    rw [List.append_assoc, List.dropWhile_append_of_pos (by simpa using hpad)]
    obtain ⟨c, rest, rfl⟩ := List.exists_cons_of_ne_nil hdigits.ne_nil
    have hc : c ≠ ' ' := hdigits.isWord.ne_space c List.mem_cons_self
    simp [hc]
  have hall : digits ≠ [] ∧ digits.all (fun c => (digit? radix c).isSome) ∧
      Token.isNameChars name.toList :=
    ⟨hdigits.ne_nil, List.all_eq_true.mpr hdigits.isSome_digit?, hname⟩
  simp only [readSymbol?, symbolChars, hpadded, takeWhile_word hdigits.isWord,
    dropWhile_word hdigits.isWord, if_pos hall, String.ofList_toList]

theorem readSymbol?_label {name : String} (hname : Token.isName name = true) (offset : Nat) :
    readSymbol? 16 (symbolChars (hexUpper 4 offset).toList name) = some (name, offset) := by
  have hread := readSymbol?_symbolChars (List.forall_mem_nil _) (isNumber_hexUpper 4 offset) hname
  rwa [List.nil_append, readNumber_hexUpper] at hread

theorem readSymbol?_variable {name : String} (hname : Token.isName name = true) (index : Nat) :
    readSymbol? 10 (symbolChars (column 4 index).toList name) = some (name, index) := by
  have hnumber := @readNumber_toDigits 10 (by decide) id digit?_digitChar index
  rw [List.map_id] at hnumber
  rw [column, String.toList_ofList, List.leftpad,
    readSymbol?_symbolChars (fun c hmem => List.eq_of_mem_replicate hmem) (isNumber_toDigits index)
      hname, hnumber]

theorem readSection?_map {radix : Nat} {chars : String × Nat → List Char}
    {entries : List (String × Nat)}
    (h : ∀ entry ∈ entries, readSymbol? radix (chars entry) = some entry) :
    readSection? radix (entries.map chars) = some entries := by
  induction entries with
  | nil => rfl
  | cons entry rest ih =>
    have hrest := ih fun other hmem => h other (List.mem_cons_of_mem entry hmem)
    rw [List.map_cons, readSection?, h entry List.mem_cons_self, hrest]

/-! ### Lines -/

theorem ne_variablesHeading {radix : Nat} {chars : List Char} {entry : String × Nat}
    (h : readSymbol? radix chars = some entry) : chars ≠ variablesHeading := by
  rintro rfl
  exact absurd h (by simp [readSymbol?, variablesHeading])

/-- The entries of the labels end at the heading of the variables. -/
theorem span_variablesHeading {lines : List (List Char)}
    (h : ∀ line ∈ lines, line ≠ variablesHeading) (later : List (List Char)) :
    (lines ++ variablesHeading :: later).takeWhile (· ≠ variablesHeading) = lines ∧
      (lines ++ variablesHeading :: later).dropWhile (· ≠ variablesHeading) =
        variablesHeading :: later := by
  rw [List.takeWhile_append_of_pos (by simpa using h),
    List.dropWhile_append_of_pos (by simpa using h)]
  simp

theorem symbolChars_isLine {number : List Char} {name : String}
    (hnumber : ∀ c ∈ number, c.isAlphanum = true ∨ c = ' ') (hname : Token.isName name = true) :
    '\n' ∉ symbolChars number name ∧ (symbolChars number name).getLast? ≠ some '\r' := by
  have hcontinues := Token.continuesName_of_isNameChars hname
  have hchar : ∀ c ∈ symbolChars number name, Token.continuesName c = true ∨ c = ' ' := by
    intro c hmem
    simp only [symbolChars, List.mem_cons, List.mem_append] at hmem
    rcases hmem with rfl | rfl | hmem | rfl | rfl | hmem
    · exact .inr rfl
    · exact .inr rfl
    · exact (hnumber c hmem).imp_left fun halphanum => by simp [Token.continuesName, halphanum]
    · exact .inr rfl
    · exact .inr rfl
    · exact .inl (hcontinues c hmem)
  constructor
  · intro hfeed
    exact absurd (hchar '\n' hfeed) (by decide)
  · intro hreturn
    exact absurd (hchar '\r' (List.mem_of_getLast? hreturn)) (by decide)

/-- The lines of a symbol dump. -/
theorem charLines_symbols {labels : Labels} {vars : Variables}
    (hlabels : ∀ entry ∈ labels.toList, Token.isName entry.1 = true)
    (hvars : ∀ entry ∈ vars.toList, Token.isName entry.1 = true) :
    Text.charLines (symbols labels vars).toList =
      labelsHeading ::
        (labels.toList.map (fun entry => symbolChars (hexUpper 4 entry.2).toList entry.1) ++
          variablesHeading ::
            vars.toList.map fun entry => symbolChars (column 4 entry.2).toList entry.1) := by
  have hdump : (symbols labels vars).toList = (labelsHeading ::
      (labels.toList.map (fun entry => symbolChars (hexUpper 4 entry.2).toList entry.1) ++
        variablesHeading :: vars.toList.map fun entry =>
          symbolChars (column 4 entry.2).toList entry.1)).flatMap (· ++ ['\n']) := by
    have hlabelsHeading : "LABELS\n".toList = labelsHeading ++ ['\n'] := by decide
    have hvariablesHeading : "VARIABLES\n".toList = variablesHeading ++ ['\n'] := by decide
    simp only [symbols, String.toList_append, String.toList_join, List.flatMap_map,
      toList_labelText, toList_variableText, List.flatMap_cons, List.flatMap_append,
      hlabelsHeading, hvariablesHeading, List.append_assoc]
  rw [hdump]
  refine Text.charLines_fed fun line hline => ?_
  simp only [List.mem_cons, List.mem_append, List.mem_map] at hline
  rcases hline with rfl | ⟨entry, hmem, rfl⟩ | rfl | ⟨entry, hmem, rfl⟩
  · exact ⟨by decide, by decide⟩
  · exact symbolChars_isLine (isWord_hexUpper 4 entry.2).isPlain (hlabels entry hmem)
  · exact ⟨by decide, by decide⟩
  · exact symbolChars_isLine (isPlain_column 4 entry.2) (hvars entry hmem)

/-- A symbol dump of symbolic names is read back as the two tables. -/
theorem readDump?_symbols {labels : Labels} {vars : Variables}
    (hlabels : ∀ entry ∈ labels.toList, Token.isName entry.1 = true)
    (hvars : ∀ entry ∈ vars.toList, Token.isName entry.1 = true) :
    readDump? (symbols labels vars) = some (labels.toList, vars.toList) := by
  have hlabelEntries : ∀ entry ∈ labels.toList,
      readSymbol? 16 (symbolChars (hexUpper 4 entry.2).toList entry.1) = some entry :=
    fun entry hmem => readSymbol?_label (hlabels entry hmem) entry.2
  have hvarEntries : ∀ entry ∈ vars.toList,
      readSymbol? 10 (symbolChars (column 4 entry.2).toList entry.1) = some entry :=
    fun entry hmem => readSymbol?_variable (hvars entry hmem) entry.2
  have hentries : ∀ line ∈ labels.toList.map
      (fun entry => symbolChars (hexUpper 4 entry.2).toList entry.1), line ≠ variablesHeading := by
    intro line hline
    obtain ⟨entry, hmem, rfl⟩ := List.mem_map.mp hline
    exact ne_variablesHeading (hlabelEntries entry hmem)
  obtain ⟨htake, hdrop⟩ := span_variablesHeading hentries
    (vars.toList.map fun entry => symbolChars (column 4 entry.2).toList entry.1)
  simp only [readDump?, charLines_symbols hlabels hvars, if_true, htake, hdrop,
    readSection?_map hlabelEntries, readSection?_map hvarEntries]

end EventScript.Listing

namespace EventScript

/-! ### The tables of an assembly -/

/-- In the label table of a program offsets do not decrease, and none lies beyond the code. -/
theorem Direct.offsets_labels (commands : Command.Table) (lines : List Line) :
    ((labels commands lines).map (·.2)).Pairwise (· ≤ ·) ∧
      ∀ entry ∈ labels commands lines, entry.2 ≤ size commands lines := by
  induction lines using List.reverseRecOn with
  | nil => exact ⟨.nil, by simp [labels]⟩
  | append_singleton lines line ih =>
    obtain ⟨hordered, hbound⟩ := ih
    have hgrows : ∀ entry ∈ labels commands lines, entry.2 ≤ size commands (lines ++ [line]) :=
      fun entry hmem => Nat.le_trans (hbound entry hmem) (size_le_append lines [line])
    by_cases hold : ∀ name, line.label? = some name → name ∈ lines.filterMap Line.label?
    · rw [labels_concat_of_old hold]
      exact ⟨hordered, hgrows⟩
    · simp only [not_forall] at hold
      obtain ⟨name, hname, hnew⟩ := hold
      -- a new label stands at the end of the code, where no other lies beyond it
      rw [labels_concat_of_new hname hnew]
      constructor
      · rw [List.map_append, List.map_singleton, List.pairwise_append]
        refine ⟨hordered, List.pairwise_singleton _ _, ?_⟩
        intro offset hoffset last hlast
        obtain ⟨entry, hmem, rfl⟩ := List.mem_map.mp hoffset
        rw [List.mem_singleton.mp hlast]
        exact hbound entry hmem
      · intro entry hmem
        rcases List.mem_append.mp hmem with hearlier | hlast
        · exact hgrows entry hearlier
        · rw [List.mem_singleton.mp hlast]
          exact size_le_append lines [line]

/-- All names in the tables of an assembly are symbolic. -/
theorem isName_of_mem_tables (commands : Command.Table) (lines : List Line) :
    (∀ entry ∈ (assemble commands lines).assembly.labels.toList, Token.isName entry.1 = true) ∧
      ∀ entry ∈ (assemble commands lines).assembly.vars.toList, Token.isName entry.1 = true := by
  have hdirect := isDirect_assemble commands lines
  constructor
  · rintro ⟨name, offset⟩ hmem
    rw [hdirect.labels] at hmem
    exact Direct.isName_of_address? (Direct.address?_of_mem_labels hmem)
  · rintro ⟨name, index⟩ hmem
    have hdeclared := List.mem_of_getElem? (hdirect.mem_vars_iff.mp hmem)
    exact (Operand.mem_declared.mp hdeclared).1

/-- The symbol dump of an assembly can be read back. All names in it are symbolic, and reading it
gives the label table and the variable table, entry by entry; the offsets of the labels do not
decrease and lie within the output or at its end, and the variables are numbered from zero. -/
theorem symbols_readBack (commands : Command.Table) (lines : List Line) :
    let assembly := (assemble commands lines).assembly
    (∀ entry ∈ assembly.labels.toList ++ assembly.vars.toList, Token.isName entry.1 = true) ∧
      Listing.readDump? (Listing.symbols assembly.labels assembly.vars) =
        some (assembly.labels.toList, assembly.vars.toList) ∧
      (assembly.labels.toList.map (·.2)).Pairwise (· ≤ ·) ∧
      (∀ entry ∈ assembly.labels.toList, entry.2 ≤ assembly.output.offset) ∧
      assembly.vars.toList.map (·.2) = List.range assembly.vars.size := by
  have hdirect := isDirect_assemble commands lines
  obtain ⟨hlabels, hvars⟩ := isName_of_mem_tables commands lines
  obtain ⟨hordered, hbound⟩ := Direct.offsets_labels commands lines
  intro assembly
  refine ⟨List.forall_mem_append.mpr ⟨hlabels, hvars⟩, Listing.readDump?_symbols hlabels hvars,
    ?_, ?_, ?_⟩
  · rw [hdirect.labels]
    exact hordered
  · rw [hdirect.labels, hdirect.offset]
    exact hbound
  · rw [hdirect.size_vars, hdirect.vars, Direct.vars, List.zipIdx_map_snd, List.range_eq_range']

/-- A label and a variable may have the name of a heading. -/
example : Listing.readDump? "LABELS\n  0012  VARIABLES\nVARIABLES\n     0  LABELS\n" =
    some ([("VARIABLES", 18)], [("LABELS", 0)]) := by decide +kernel

end EventScript
