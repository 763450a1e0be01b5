import EventScript.Command.Builtin
import EventScript.Proofs.LetterCase
import EventScript.Proofs.Loading
import EventScript.Proofs.Location
import EventScript.Proofs.TokenClass
import EventScript.Proofs.Tokens

/-!
Which commands of a table can be used. A table takes any mnemonic that has a character, but a line
names a command by its first token. So the mnemonic has to be one token where it stands, and none
that the classifier takes for a label definition or a directive first. With such a mnemonic and a
word for each parameter the line is assembled as the command; with any other it is not.

        mnemonic    line           first token
        SAY         SAY x          SAY
        "SAY"       "SAY" x        "SAY"
        GO ON       GO ON          GO
        #;1         #;1            #
        top:        top:           top:, which defines a label
        .org        .org           .org, which is a directive
-/

namespace EventScript

namespace Token

/-! ### A mnemonic in front of words -/

/-- A word with at least one separator in front of it. -/
structure Lexeme.IsWord (lexeme : Lexeme) : Prop where
  gap : IsGap lexeme.gap
  word : IsUnquoted lexeme.token

theorem endsWord_of_head?_words {words : List Lexeme} (h : ∀ word ∈ words, word.IsWord) :
    ∀ c ∈ (words.flatMap Lexeme.chars).head?, endsWord c = true := by
  intro c hc
  cases words with
  | nil => cases hc
  | cons word rest =>
    obtain ⟨hne, hgap⟩ := (h word List.mem_cons_self).gap
    obtain ⟨first, gap, hfirst⟩ := List.exists_cons_of_ne_nil hne
    have hhead : first = c := by simpa [Lexeme.chars, hfirst] using hc
    have hseparator := hgap first (by simp [hfirst])
    simp [endsWord, ← hhead, hseparator]

/-- Words with separators in front of them are so many tokens. -/
theorem splits_of_forall_isWord {words : List Lexeme} (h : ∀ word ∈ words, word.IsWord) :
    Splits words (words.flatMap Lexeme.chars) := by
  induction words with
  | nil => exact @Splits.rest [] [] (by simp) (.inl rfl)
  | cons word rest ih =>
    obtain ⟨hword, hrest⟩ := List.forall_mem_cons.mp h
    -- the separator that ends the word belongs to the next one
    exact .lexeme hword.gap.2 (.word hword.word (endsWord_of_head?_words hrest)) (ih hrest)

theorem IsToken.exists_cons {token after : List Char} (h : IsToken token after) :
    ∃ c rest, token = c :: rest ∧ isSeparator c = false := by
  cases h with
  | word hword =>
    obtain ⟨c, rest, rfl, hc⟩ := hword.exists_cons
    simp only [endsWord, Bool.or_eq_false_iff] at hc
    exact ⟨c, rest, rfl, hc.1.1⟩
  | closed | unclosed => exact ⟨'"', _, rfl, rfl⟩

theorem eq_of_sameButCase_isSeparator {c d : Char} (h : SameButCase c d)
    (hc : isSeparator c = true) : c = d := by
  have hletters : asciiLetters.all
      (fun letter => !isSeparator letter.1 && !isSeparator letter.2) = true := by decide
  rw [List.all_eq_true] at hletters
  rcases h with rfl | h | h
  · rfl
  · simpa [hc] using hletters _ h
  · simpa [hc] using hletters _ h

/-- Where the first token of an input is what the input starts with, case aside, it starts with just
that token. -/
theorem isToken_of_splits {lexeme : Lexeme} {lexemes : List Lexeme} {mnemonic after : List Char}
    (h : Splits (lexeme :: lexemes) (mnemonic ++ after))
    (hsame : List.Forall₂ SameButCase mnemonic lexeme.token) :
    mnemonic = lexeme.token ∧ IsToken mnemonic after := by
  obtain ⟨rest, hinput, hgap, htoken, -⟩ := @Splits.exists_after [] _ _ _ h
  rw [List.flatMap_nil, List.nil_append, Lexeme.chars] at hinput
  cases hcase : lexeme.gap with
  | nil =>
    rw [hcase, List.nil_append] at hinput
    obtain ⟨rfl, rfl⟩ := List.append_inj hinput hsame.length_eq
    exact ⟨rfl, htoken⟩
  | cons separator gap =>
    -- the mnemonic would start with that separator, and so would the token
    have hseparator := hgap separator (by simp [hcase])
    obtain ⟨c, token, hc, hplain⟩ := htoken.exists_cons
    rw [hc] at hsame
    cases mnemonic with
    | nil => cases hsame
    | cons first mnemonic =>
      have hfirst : first = separator := by
        rw [hcase] at hinput
        exact (List.cons.inj hinput).1
      obtain ⟨hhead, -⟩ := List.forall₂_cons.mp hsame
      have heq := eq_of_sameButCase_isSeparator hhead (hfirst ▸ hseparator)
      rw [← heq, hfirst, hseparator] at hplain
      cases hplain

end Token

open Token (Lexeme IsToken Splits)

/-! ### The line of a command -/

namespace Command

/-- A command as a line of a script: its mnemonic and then the words. -/
def written (command : Command) (words : List Lexeme) : String :=
  String.ofList (command.mnemonic.toList ++ words.flatMap Lexeme.chars)

/-- In front of the words the mnemonic is one token, and one that is looked up in the table. -/
structure IsNamedWith (command : Command) (words : List Lexeme) : Prop where
  token : IsToken command.mnemonic.toList (words.flatMap Lexeme.chars)
  noLabel : Token.label? command.mnemonic = none
  noDirective : Token.isDirective command.mnemonic = false

variable {command : Command} {words : List Lexeme}

/-- The line of a command splits into the mnemonic and the words. -/
theorem IsNamedWith.tokenize (h : command.IsNamedWith words)
    (hwords : ∀ word ∈ words, word.IsWord) :
    Token.tokenize (command.written words) = command.mnemonic :: words.map Lexeme.text := by
  have hsplits : Splits (⟨[], command.mnemonic.toList⟩ :: words)
      (command.written words).toList := by
    rw [written, String.toList_ofList]
    exact @Splits.lexeme ⟨[], _⟩ _ _ (by simp) h.token (Token.splits_of_forall_isWord hwords)
  rw [hsplits.tokenize, List.map_cons, Lexeme.text, String.ofList_toList]

/-- Where the first token of the line finds the command, it is the mnemonic. -/
theorem eq_mnemonic_of_get? {commands : Table} {first : String} {rest : List String}
    (htokens : Token.tokenize (command.written words) = first :: rest)
    (h : commands.get? first = some command) :
    first = command.mnemonic ∧
      IsToken command.mnemonic.toList (words.flatMap Lexeme.chars) := by
  obtain ⟨lexemes, hsplits⟩ := Token.exists_splits (command.written words).toList
  rw [hsplits.tokenize] at htokens
  cases lexemes with
  | nil => cases htokens
  | cons lexeme lexemes =>
    obtain ⟨rfl, -⟩ := List.cons.inj htokens
    have hsame := key_eq_iff.mp (Table.get?_eq_some_iff.mp h).2
    rw [EqIgnoringCase, Lexeme.text, String.toList_ofList] at hsame
    rw [written, String.toList_ofList] at hsplits
    obtain ⟨heq, htoken⟩ := Token.isToken_of_splits hsplits hsame
    exact ⟨by rw [Lexeme.text, ← heq, String.ofList_toList], htoken⟩

/-- The line of a command holds the command and the words for its operands exactly if the command
has such a mnemonic. -/
theorem holds_iff_isNamedWith {commands : Table} (hcommand : command ∈ commands.toList)
    (hwords : ∀ word ∈ words, word.IsWord) (hcount : words.length = command.parameters.length)
    {source : String} (hsource : Text.lines source = [command.written words]) :
    (∃ line, Line.ofSource source = [line] ∧ line.command? commands =
      some (command, command.parameters.zip (words.map Lexeme.text))) ↔
      command.IsNamedWith words := by
  have hlength : (words.map Lexeme.text).length = command.parameters.length := by
    rw [List.length_map, hcount]
  rw [Line.ofSource_of_lines hsource]
  constructor
  · rintro ⟨line, hline, hheld⟩
    obtain ⟨first, rest, htokens, hlabel, hdirective, hknown, -⟩ :=
      Line.command?_eq_some_iff.mp hheld
    have hphysical : Line.ofPhysical? (command.written words) 1 = some line :=
      Option.toList_eq_singleton_iff.mp hline
    obtain ⟨-, rfl⟩ := Line.ofPhysical?_eq_some_iff.mp hphysical
    dsimp only at htokens
    obtain ⟨rfl, htoken⟩ := eq_mnemonic_of_get? htokens hknown
    exact ⟨htoken, hlabel, hdirective⟩
  · intro h
    have htokens := h.tokenize hwords
    refine ⟨_, Option.toList_eq_singleton_iff.mpr
      (Line.ofPhysical?_eq_some_iff.mpr ⟨by simp [htokens], rfl⟩), ?_⟩
    rw [Line.command?_eq_some_iff]
    dsimp only
    exact ⟨command.mnemonic, words.map Lexeme.text, htokens, h.noLabel, h.noDirective,
      Table.get?_eq_some_iff.mpr ⟨hcommand, rfl⟩,
      List.map_fst_zip (Nat.le_of_eq hlength.symm), List.map_snd_zip (Nat.le_of_eq hlength)⟩

theorem isNamedWith_of_isName (h : Token.isName command.mnemonic = true)
    (hwords : ∀ word ∈ words, word.IsWord) : command.IsNamedWith words where
  token := by
    refine .word ⟨?_, fun c hmem => ?_⟩ (Token.endsWord_of_head?_words hwords)
    · rintro hnil
      rw [Token.isName, hnil] at h
      cases h
    · exact Token.endsWord_of_continuesName (Token.continuesName_of_isNameChars h c hmem)
  noLabel := Token.label?_of_isName h
  noDirective := Token.isDirective_of_isName h

/-- Every command of the built-in set can be used. -/
theorem isNamedWith_of_mem_builtin (hcommand : command ∈ Table.builtin.toList)
    (hwords : ∀ word ∈ words, word.IsWord) : command.IsNamedWith words := by
  have hentry : command.entry ∈ builtinEntries := by
    rw [← Table.entries_of_load Table.load_builtinEntries]
    exact List.mem_map_of_mem hcommand
  have hnames : builtinEntries.all (fun entry => Token.isName entry.mnemonic) = true := by decide
  exact isNamedWith_of_isName (List.all_eq_true.mp hnames _ hentry) hwords

end Command

/-! ### What is reported -/

/-- The kinds of what is reported about a line that names no command of the table or has the wrong
number of operands for it. -/
def Diagnostic.Kind.IsOfNoCommand (kind : Diagnostic.Kind) : Prop :=
  kind = .unknownCommand ∨ kind = .argumentCount

section Reports
variable {commands : Command.Table} {lines : List Line} {line : Line} {diagnostic : Diagnostic}

theorem Operand.not_isOfNoCommand_failure (operand : Operand) :
    ¬operand.failure.IsOfNoCommand := by
  unfold failure
  repeat' split
  all_goals simp [Diagnostic.Kind.IsOfNoCommand]

theorem Operand.not_isOfNoCommand_of_mem {before : List Operand} {operand : Operand}
    (h : diagnostic ∈ diagnosticsAfter line before operand) :
    ¬diagnostic.kind.IsOfNoCommand := by
  rcases kind_of_mem_diagnosticsAfter h with hkind | hkind
  · simp [hkind, Diagnostic.Kind.IsOfNoCommand]
  · rw [hkind]
    exact operand.not_isOfNoCommand_failure

/-- What is reported about a line as a whole is about one that holds no command. -/
theorem exists_command?_eq_none_of_mem
    (h : diagnostic ∈ (assemble commands lines).assembly.diagnostics.toList)
    (hkind : diagnostic.kind.IsOfNoCommand) :
    ∃ line ∈ lines, line.command? commands = none ∧ diagnostic.IsOn line := by
  rcases mem_diagnostics_assemble.mp h with ⟨earlier, line, later, rfl, hmem⟩ |
    ⟨line, hline, hreport⟩
  · refine ⟨line, by simp, ?_, isOn_of_mem_lineDiagnostics hmem⟩
    cases hcommand : line.command? commands with
    | none => rfl
    | some found =>
      obtain ⟨front, operand, rest, -, hreport⟩ := (mem_lineDiagnostics earlier hcommand).mp hmem
      exact absurd hkind (Operand.not_isOfNoCommand_of_mem hreport)
  · -- the second pass reports about labels only
    obtain ⟨label, -, ⟨-, rfl⟩ | ⟨address, -, -, rfl⟩⟩ :=
      exists_label_of_mem_addressDiagnostics hreport
    · simp [Diagnostic.Kind.IsOfNoCommand, Problem.diagnostic, Problem.kind] at hkind
    · simp [Diagnostic.Kind.IsOfNoCommand, Problem.diagnostic, Problem.kind] at hkind

theorem head?_assemble_of_command? {command : Command} {operands : List Operand}
    (h : line.command? commands = some (command, operands)) :
    (assemble commands [line]).assembly.output.toList.head? = some command.opcode := by
  have hinstruction : Direct.instruction? commands [] line =
      some ⟨command.opcode, Operand.values [] operands⟩ := by
    rw [Direct.instruction?, h]
    rfl
  rw [(isDirect_assemble commands [line]).output, Direct.bytes, Direct.code, mapBefore, mapBefore,
    hinstruction]
  simp [Direct.Instruction.bytes]

end Reports

/-! ### Commands that can be used -/

/-- A command whose mnemonic is one token in front of its operands, and no label definition and no
directive, can be used: the line of the command and a word for each parameter holds the command, is
compiled to code that starts with its opcode, and nothing is reported about an unknown command or a
wrong number of operands. A command with any other mnemonic cannot be used: no line of it holds the
command. -/
theorem compile_written {commands : Command.Table} {command : Command}
    (hcommand : command ∈ commands.toList) {words : List Lexeme}
    (hwords : ∀ word ∈ words, word.IsWord) (hcount : words.length = command.parameters.length)
    {source : String} (hsource : Text.lines source = [command.written words]) :
    ((∃ line, Line.ofSource source = [line] ∧ line.command? commands =
      some (command, command.parameters.zip (words.map Lexeme.text))) ↔
        command.IsNamedWith words) ∧
    (command.IsNamedWith words →
      let assembly := (compile commands source).assembly
      assembly.output.toList.head? = some command.opcode ∧
        ∀ diagnostic ∈ assembly.diagnostics.toList,
          diagnostic.kind ≠ .unknownCommand ∧ diagnostic.kind ≠ .argumentCount) := by
  have hiff := Command.holds_iff_isNamedWith hcommand hwords hcount hsource
  refine ⟨hiff, fun hnamed => ?_⟩
  obtain ⟨line, hline, hheld⟩ := hiff.mpr hnamed
  rw [compile, hline]
  refine ⟨head?_assemble_of_command? hheld, fun diagnostic hmem => ?_⟩
  rw [← not_or]
  intro hkind
  obtain ⟨other, hother, hnone, -⟩ := exists_command?_eq_none_of_mem hmem hkind
  rw [List.mem_singleton.mp hother, hheld] at hnone
  cases hnone

/-- A mnemonic, a word and a number. -/
theorem compile_written_say :
    let command : Command := ⟨"SAY", 2, [.string, .number 1]⟩
    let words : List Lexeme := [⟨[' '], ['x']⟩, ⟨[',', ' '], ['7']⟩]
    command ∈ greetingCommands.toList ∧ (∀ word ∈ words, word.IsWord) ∧
      Text.lines "SAY x, 7" = [command.written words] ∧ command.IsNamedWith words ∧
      (compile greetingCommands "SAY x, 7").assembly.output.toList.head? = some 2 := by
  intro command words
  have hcommand : command ∈ greetingCommands.toList := by decide
  have hwords : ∀ word ∈ words, word.IsWord := by
    intro word hmem
    rcases List.mem_pair.mp hmem with rfl | rfl
    · exact ⟨⟨by simp, by simp [Token.isSeparator]⟩, by simp,
        by simp [Token.endsWord, Token.isSeparator]⟩
    · exact ⟨⟨by simp, by simp [Token.isSeparator]⟩, by simp,
        by simp [Token.endsWord, Token.isSeparator]⟩
  have hsource : Text.lines "SAY x, 7" = [command.written words] := by decide
  have hnamed : command.IsNamedWith words := {
    token := .word ⟨by simp [command], by simp [command, Token.endsWord, Token.isSeparator]⟩
      (by simp [words, Lexeme.chars, Token.endsWord, Token.isSeparator])
    noLabel := by decide
    noDirective := by decide }
  have hcode := (compile_written hcommand hwords rfl hsource).2 hnamed
  exact ⟨hcommand, hwords, hsource, hnamed, hcode.1⟩

/-- Not every command that a table takes can be used: this mnemonic is two tokens. -/
theorem not_forall_compile_written :
    ¬∀ (entries : List Command.Entry) (commands : Command.Table) (command : Command)
      (words : List Lexeme) (source : String), Command.Table.load entries = .ok commands →
      command ∈ commands.toList → (∀ word ∈ words, word.IsWord) →
      words.length = command.parameters.length →
      Text.lines source = [command.written words] →
      (compile commands source).assembly.output.toList.head? = some command.opcode ∧
        ∀ diagnostic ∈ (compile commands source).assembly.diagnostics.toList,
          diagnostic.kind ≠ .unknownCommand ∧ diagnostic.kind ≠ .argumentCount := by
  intro h
  have hload : Command.Table.load [⟨"GO ON", 7, []⟩] =
      .ok ((∅ : Command.Table).add ⟨"GO ON", 7, []⟩) := rfl
  have hcode := (h _ _ ⟨"GO ON", 7, []⟩ [] "GO ON" hload (by decide) (by simp) rfl (by decide)).1
  exact absurd hcode (by decide +kernel)

end EventScript
