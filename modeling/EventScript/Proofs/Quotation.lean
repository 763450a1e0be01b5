import EventScript.Proofs.Quoting
import EventScript.Proofs.Reports
import EventScript.Proofs.TokenClass

/-!
Any text can be written as a string literal. A content between quotation marks is spelled on one
line when a backslash goes in front of each quotation mark and each backslash and a line feed is
spelled `\n`. The lexer takes such a quote for one token whatever is in it, and the literal stands
for the content again.

        a "b" ; c     "a \"b\" ; c"     a "b" ; c
        content   ──→     token     ──→  content
-/

namespace EventScript

namespace Token

/-! ### Quotes -/

/-- How one character of a content is spelled in a quote. -/
def escape (c : Char) : List Char :=
  if c = '"' ∨ c = '\\' then ['\\', c] else if c = '\n' then ['\\', 'n'] else [c]

/-- A content between quotation marks. -/
def quoteChars (content : List Char) : List Char := '"' :: (content.flatMap escape ++ ['"'])

/-- The string literal that a content is written as. -/
def quote (content : String) : String := String.ofList (quoteChars content.toList)

/-- A character is spelled as itself or by a backslash and another one. -/
theorem escape_cases (c : Char) :
    (∃ spelled, escape c = ['\\', spelled] ∧ unescaped spelled = c ∧ spelled ≠ '\n') ∨
      (escape c = [c] ∧ c ≠ '"' ∧ c ≠ '\\' ∧ c ≠ '\n') := by
  unfold escape
  split
  · next hspecial =>
    rcases hspecial with rfl | rfl
    · exact .inl ⟨'"', rfl, by decide, by decide⟩
    · exact .inl ⟨'\\', rfl, by decide, by decide⟩
  · next hplain =>
    rw [not_or] at hplain
    split
    · next hfeed => exact .inl ⟨'n', rfl, by rw [hfeed]; decide, by decide⟩
    · next hfeed => exact .inr ⟨rfl, hplain.1, hplain.2, hfeed⟩

theorem quotedBody_escape (content : List Char) : QuotedBody (content.flatMap escape) := by
  induction content with
  | nil => exact .nil
  | cons c rest ih =>
    rw [List.flatMap_cons]
    rcases escape_cases c with ⟨spelled, hspelled, -, -⟩ | ⟨hspelled, hquote, hescape, -⟩
    · rw [hspelled]
      exact .escaped ih
    · rw [hspelled]
      exact .plain hquote hescape ih

theorem feed_notMem_quoteChars (content : List Char) : '\n' ∉ quoteChars content := by
  have hbody : ∀ c : Char, '\n' ∉ escape c := by
    intro c
    rcases escape_cases c with ⟨spelled, hspelled, -, hfeed⟩ | ⟨hspelled, -, -, hfeed⟩
    · simp [hspelled, Ne.symm hfeed]
    · simp [hspelled, Ne.symm hfeed]
  simp [quoteChars, hbody]

/-- What is spelled in a quote is read as it was. -/
theorem content?_escape (content done : List Char) :
    content? done (content.flatMap escape ++ ['"']) = some (done.reverse ++ content) := by
  induction content generalizing done with
  | nil => simp [content?]
  | cons c rest ih =>
    rw [List.flatMap_cons, List.append_assoc]
    rcases escape_cases c with ⟨spelled, hspelled, hread, -⟩ | ⟨hspelled, hquote, hescape, -⟩
    · rw [hspelled, List.cons_append, List.singleton_append, content?, hread, ih]
      simp
    · rw [hspelled, List.singleton_append, content?_cons hquote hescape, ih]
      simp

theorem string?_quote (content : String) : string? (quote content) = some content := by
  rw [string?, quote, String.toList_ofList, quoteChars, stringChars?, content?_escape]
  simp

/-! ### A command with quotes -/

/-- One quote of a command: the blanks in front of it and its content. -/
structure SpacedQuote where
  gap : List Char
  content : String
  blank : ∀ c ∈ gap, c = ' ' ∨ c = ','

namespace SpacedQuote

/-- The quote with its blanks. -/
def chars (item : SpacedQuote) : List Char := item.gap ++ quoteChars item.content.toList

theorem isSeparator_gap (item : SpacedQuote) : ∀ c ∈ item.gap, isSeparator c = true := by
  intro c hmem
  rcases item.blank c hmem with rfl | rfl <;> decide

theorem feed_notMem_chars (item : SpacedQuote) : '\n' ∉ item.chars := by
  intro hmem
  rcases List.mem_append.mp hmem with hgap | hquote
  · rcases item.blank _ hgap with h | h <;> exact absurd h (by decide)
  · exact feed_notMem_quoteChars _ hquote

theorem run_chars (item : SpacedQuote) {scan : Scan} (h : scan.IsOutside) :
    run scan item.chars = ⟨.gap, quoteChars item.content.toList :: scan.settled⟩ := by
  have hbody := quotedBody_escape item.content.toList
  rw [chars, run_append, quoteChars]
  by_cases hgap : item.gap = []
  · rw [hgap, run_nil, run_quoted hbody h]
  · rw [run_gap h ⟨hgap, item.isSeparator_gap⟩, run_quoted hbody (.inl rfl), Scan.settled]

/-- Quotes in a row are as many tokens, whatever is in them. -/
theorem settled_run_flatMap (items : List SpacedQuote) {scan : Scan} (h : scan.IsOutside) :
    (run scan (items.flatMap chars)).settled =
      (items.map fun item => quoteChars item.content.toList).reverse ++ scan.settled := by
  induction items generalizing scan with
  | nil => rfl
  | cons item rest ih =>
    rw [List.flatMap_cons, run_append, item.run_chars h, ih (.inl rfl)]
    simp [Scan.settled]

end SpacedQuote

end Token

open Token (SpacedQuote quote)

/-- A mnemonic and quotes. -/
def quotedCommand (mnemonic : String) (items : List SpacedQuote) : String :=
  String.ofList (mnemonic.toList ++ items.flatMap SpacedQuote.chars)

/-- The tokens of a command with quotes are the mnemonic and the quotes. -/
theorem tokenize_quotedCommand {mnemonic : String} (h : Token.isName mnemonic = true)
    (items : List SpacedQuote) :
    Token.tokenize (quotedCommand mnemonic items) =
      mnemonic :: items.map fun item => quote item.content := by
  have hne : mnemonic.toList ≠ [] := by
    intro hnil
    rw [Token.isName, hnil] at h
    exact absurd h (by decide)
  have hword : ∀ c ∈ mnemonic.toList, Token.endsWord c = false := fun c hmem =>
    Token.endsWord_of_continuesName (Token.continuesName_of_isNameChars h c hmem)
  rw [Token.tokenize, quotedCommand, String.toList_ofList, Token.scanTokens_eq, Token.run_append,
    Token.Scan.start, Token.run_word hne hword,
    SpacedQuote.settled_run_flatMap items (.inr ⟨_, rfl⟩)]
  simp [Token.Scan.settled, quote]

/-- A command with quotes is one line, whatever is in the quotes. -/
theorem ofSource_quotedCommand {mnemonic : String} (h : Token.isName mnemonic = true)
    (items : List SpacedQuote) :
    Line.ofSource (quotedCommand mnemonic items) =
      [⟨1, Text.trim (quotedCommand mnemonic items),
        mnemonic :: items.map fun item => quote item.content, none⟩] := by
  have hfeed : '\n' ∉ (quotedCommand mnemonic items).toList := by
    rw [quotedCommand, String.toList_ofList, List.mem_append, List.mem_flatMap]
    rintro (hname | ⟨item, -, hitem⟩)
    · exact absurd (Token.continuesName_of_isNameChars h _ hname) (by decide)
    · exact item.feed_notMem_chars hitem
  have hne : (quotedCommand mnemonic items).toList ≠ [] := by
    intro hnil
    have htokens := tokenize_quotedCommand h items
    rw [Token.tokenize, hnil] at htokens
    exact absurd htokens (by simp [Token.scanTokens, Token.Scan.start, Token.Scan.tokens])
  rw [Line.ofSource, Text.lines, Text.charLines_of_no_feed _ hfeed,
    List.isEmpty_eq_false_iff.mpr hne]
  simp [Line.ofPhysical?, tokenize_quotedCommand h]

/-! ### Its operands -/

/-- Operands that are quotes of these contents, each under a parameter that takes a string. -/
def AreQuotes : List Operand → List String → Prop :=
  List.Forall₂ fun operand content =>
    (operand.1 = .string ∨ operand.1 = .either) ∧ operand.2 = quote content

theorem valueAfter?_quote {parameter : Parameter} (h : parameter = .string ∨ parameter = .either)
    (content : String) (before : List Operand) :
    Operand.valueAfter? before (parameter, quote content) = some (.text content) :=
  Operand.valueAfter?_of_string? h (Token.string?_quote content)

theorem AreQuotes.values {operands : List Operand} {contents : List String}
    (h : AreQuotes operands contents) (before : List Operand) :
    Operand.values before operands = contents.map Operand.Value.text := by
  induction h generalizing before with
  | nil => rfl
  | @cons operand content rest contents hquote _ ih =>
    obtain ⟨parameter, token⟩ := operand
    obtain ⟨hparameter, rfl⟩ := hquote
    rw [Operand.values_cons, valueAfter?_quote hparameter, ih]
    rfl

/-- Quotes report the cuts of the contents that are too long and nothing else. -/
theorem AreQuotes.diagnostics {operands : List Operand} {contents : List String}
    (h : AreQuotes operands contents) (line : Line) (before : List Operand) :
    (mapBefore (Operand.diagnosticsAfter line) before operands).flatten =
      (contents.filter fun content => 65535 < (Operand.utf8 content).length).map fun content =>
        (Problem.truncated (.string (Operand.utf8 content).length)).diagnostic line.number
          line.text := by
  induction h generalizing before with
  | nil => rfl
  | @cons operand content rest contents hquote _ ih =>
    obtain ⟨parameter, token⟩ := operand
    obtain ⟨hparameter, rfl⟩ := hquote
    rw [mapBefore, List.flatten_cons, ih,
      Operand.diagnosticsAfter_of_some (valueAfter?_quote hparameter content before),
      Operand.Value.cut?, Operand.ofContent]
    by_cases hlength : (Operand.utf8 content).length ≤ Operand.maxStringLength
    · have hshort : ¬ 65535 < (Operand.utf8 content).length := Nat.not_lt.mpr hlength
      simp [hlength, hshort]
    · have hlong : 65535 < (Operand.utf8 content).length := Nat.not_le.mp hlength
      simp [hlength, hlong]

theorem areQuotes_zip {parameters : List Parameter} {contents : List String}
    (hcount : parameters.length = contents.length)
    (htext : ∀ parameter ∈ parameters, parameter = .string ∨ parameter = .either) :
    AreQuotes (parameters.zip (contents.map quote)) contents := by
  induction parameters generalizing contents with
  | nil =>
    obtain rfl := List.length_eq_zero_iff.mp hcount.symm
    exact .nil
  | cons parameter rest ih =>
    cases contents with
    | nil => cases hcount
    | cons content contents =>
      have hrest := ih (Nat.succ.inj hcount) fun other hmem =>
        htext other (List.mem_cons_of_mem _ hmem)
      exact .cons ⟨htext parameter List.mem_cons_self, rfl⟩ hrest

/-! ### Its code -/

/-- A command with quotes is one line, and that line holds the command with the quotes for
operands. -/
theorem exists_line_quotedCommand {commands : Command.Table} {command : Command}
    (hcommand : command ∈ commands.toList) (hname : Token.isName command.mnemonic = true)
    {items : List SpacedQuote} (hcount : command.parameters.length = items.length) :
    ∃ line, Line.ofSource (quotedCommand command.mnemonic items) = [line] ∧ line.number = 1 ∧
      line.text = Text.trim (quotedCommand command.mnemonic items) ∧
      line.command? commands =
        some (command, command.parameters.zip ((items.map SpacedQuote.content).map quote)) := by
  have htokens : ((items.map SpacedQuote.content).map quote).length =
      command.parameters.length := by
    rw [hcount, List.length_map, List.length_map]
  refine ⟨_, ofSource_quotedCommand hname items, rfl, rfl, ?_⟩
  refine Line.command?_eq_some_iff.mpr ⟨command.mnemonic, _, ?_, Token.label?_of_isName hname,
    Token.isDirective_of_isName hname, Command.Table.get?_eq_some_iff.mpr ⟨hcommand, rfl⟩,
    List.map_fst_zip (Nat.le_of_eq htokens.symm), List.map_snd_zip (Nat.le_of_eq htokens)⟩
  rw [List.map_map]
  rfl

/-- Any text can be written as a string literal. A command whose parameters all take strings, with
as many quotes, is compiled to its opcode and the contents: each as the string tag, the length word
and the UTF-8 bytes, up to the most that the word can count. Nothing is reported but the cuts of the
contents that have more bytes than that. -/
theorem compile_quotedCommand {commands : Command.Table} {command : Command}
    (hcommand : command ∈ commands.toList) (hname : Token.isName command.mnemonic = true)
    {items : List SpacedQuote} (hcount : command.parameters.length = items.length)
    (htext : ∀ parameter ∈ command.parameters, parameter = .string ∨ parameter = .either) :
    let source := quotedCommand command.mnemonic items
    let contents := items.map SpacedQuote.content
    let assembly := (compile commands source).assembly
    assembly.output.toList = command.opcode :: contents.flatMap (fun content =>
        3 :: (wordBytes (min (Operand.utf8 content).length 65535) ++
          (Operand.utf8 content).take 65535)) ∧
      assembly.isUsable = true ∧
      assembly.diagnostics.toList =
        (contents.filter fun content => 65535 < (Operand.utf8 content).length).map fun content =>
          (Problem.truncated (.string (Operand.utf8 content).length)).diagnostic 1
            (Text.trim source) := by
  intro source contents assembly
  have hquotes : AreQuotes (command.parameters.zip (contents.map quote)) contents :=
    areQuotes_zip (by rw [hcount, List.length_map]) htext
  obtain ⟨line, hsource, hnumber, hline, hheld⟩ :=
    exists_line_quotedCommand hcommand hname hcount
  have hinstruction : Direct.instruction? commands [] line =
      some ⟨command.opcode, contents.map Operand.Value.text⟩ := by
    rw [Direct.instruction?, hheld, Option.map_some, ← hquotes.values]
  have hdirect := isDirect_assemble commands [line]
  have hassembly : assembly = (assemble commands [line]).assembly := by rw [← hsource]; rfl
  -- no piece is a slot, so the second pass has nothing to report
  have hslots : slotDiagnostics commands [line] = [] := by
    simp [slotDiagnostics, piecesOf, mapBefore, linePieces, hinstruction, Operand.Value.piece,
      Piece.diagnostics]
  have hreports : assembly.diagnostics.toList =
      (contents.filter fun content => 65535 < (Operand.utf8 content).length).map fun content =>
        (Problem.truncated (.string (Operand.utf8 content).length)).diagnostic 1
          (Text.trim source) := by
    rw [hassembly, hdirect.toList_diagnostics, hslots, List.append_nil, diagnosticsOf, mapBefore,
      mapBefore, List.flatten_singleton, lineDiagnostics,
      (Statement.ofTokens_of_command? hheld).1, ← hnumber, ← hline]
    exact hquotes.diagnostics line _
  refine ⟨?_, ?_, hreports⟩
  · rw [hassembly, hdirect.output, Direct.bytes, Direct.code, mapBefore, mapBefore, hinstruction]
    simp [Direct.Instruction.bytes, Operand.Value.bytes, Operand.stringTag,
      Operand.maxStringLength, List.flatMap_map]
  · rw [← Bool.not_eq_false, hassembly, isUsable_eq_false_iff, ← hassembly, hreports]
    rintro ⟨diagnostic, hmem, hseverity⟩
    obtain ⟨content, -, rfl⟩ := List.mem_map.mp hmem
    cases hseverity

/-- A command for a text and a text or number. -/
def sayCommand : Command := ⟨"SAY", 2, [.string, .either]⟩

/-- Two quotes with a semicolon, a quotation mark, a backslash, a comma and a line feed in them. -/
def sayItems : List SpacedQuote :=
  [⟨[], "a;\"", by simp⟩, ⟨[',', ' '], "\\,\n", by simp⟩]

/-- What means something between quotes is part of the content in one. -/
theorem compile_quotedCommand_say :
    quotedCommand "SAY" sayItems = "SAY\"a;\\\"\", \"\\\\,\\n\"" ∧
      (compile ((∅ : Command.Table).add sayCommand)
        (quotedCommand "SAY" sayItems)).assembly.output.toList =
        [2, 3, 3, 0, 97, 59, 34, 3, 3, 0, 92, 44, 10] := by
  have hcommand : sayCommand ∈ ((∅ : Command.Table).add sayCommand).toList := by decide
  have hcode := @compile_quotedCommand _ _ hcommand (by decide) sayItems rfl (by decide)
  exact ⟨by decide, hcode.1⟩

end EventScript
