import EventScript.Proofs.Value
import EventScript.Statement

/-!
A program as its source shows it, before anything is emitted: which line defines which label, which
line holds a command and with which operands, and which operands stand before which.

        earlier lines     line          later lines
        ─────────────┬────────────┬────────────────
          operands before it │ operand
                             └ its value: names declared up to and with it
-/

namespace EventScript

/-! ### Lines -/

namespace Line

/-- The label that a line defines. -/
def label? (line : Line) : Option String := line.tokens.head?.bind Token.label?

/-- The command on a line and its operands, if their number is right. -/
def command? (commands : Command.Table) (line : Line) : Option (Command × List Operand) :=
  match line.tokens with
  | [] => none
  | first :: rest =>
    if (Token.label? first).isSome || Token.isDirective first then none
    else
      match commands.get? first with
      | none => none
      | some command =>
        if rest.length = command.parameters.length then
          some (command, command.parameters.zip rest)
        else none

/-- The operands on a line. -/
def operands (commands : Command.Table) (line : Line) : List Operand :=
  ((line.command? commands).map (·.2)).getD []

end Line

theorem Line.operands_of_command? {commands : Command.Table} {line : Line} {command : Command}
    {operands : List Operand} (h : line.command? commands = some (command, operands)) :
    line.operands commands = operands := by
  rw [Line.operands, h]
  rfl

theorem Line.operands_of_none {commands : Command.Table} {line : Line}
    (h : line.command? commands = none) : line.operands commands = [] := by
  rw [Line.operands, h]
  rfl

/-- A line holds a command when its first token is no label definition and no directive but the
mnemonic of the command, and the operands are for the command's parameters and the other tokens. -/
theorem Line.command?_eq_some_iff {commands : Command.Table} {line : Line} {command : Command}
    {operands : List Operand} :
    line.command? commands = some (command, operands) ↔
      ∃ first rest, line.tokens = first :: rest ∧ Token.label? first = none ∧
        Token.isDirective first = false ∧ commands.get? first = some command ∧
        operands.map (·.1) = command.parameters ∧ operands.map (·.2) = rest := by
  unfold command?
  constructor
  · intro h
    split at h
    · cases h
    · next first rest htokens =>
      split at h
      · cases h
      · next hplain =>
        simp only [Bool.or_eq_true, not_or, Bool.not_eq_true, Option.isSome_eq_false_iff,
          Option.isNone_iff_eq_none] at hplain
        split at h
        · cases h
        · next known hknown =>
          split at h
          · next hcount =>
            obtain ⟨rfl, rfl⟩ := Prod.mk.inj (Option.some.inj h)
            exact ⟨first, rest, htokens, hplain.1, hplain.2, hknown,
              List.map_fst_zip (Nat.le_of_eq hcount.symm), List.map_snd_zip (Nat.le_of_eq hcount)⟩
          · cases h
  · rintro ⟨first, rest, htokens, hlabel, hdirective, hknown, hparameters, hrest⟩
    have hcount : rest.length = command.parameters.length := by
      rw [← hparameters, ← hrest, List.length_map, List.length_map]
    have hzip := List.zip_of_prod hparameters hrest
    simp only [htokens, hlabel, hdirective, hknown, Option.isSome_none, Bool.or_self,
      Bool.false_eq_true, if_false, if_pos hcount, ← hzip]

theorem Line.parameters_of_command? {commands : Command.Table} {line : Line} {command : Command}
    {operands : List Operand} (h : line.command? commands = some (command, operands)) :
    command ∈ commands.toList ∧ operands.map (·.1) = command.parameters := by
  obtain ⟨first, rest, -, -, -, hknown, hparameters, -⟩ := command?_eq_some_iff.mp h
  exact ⟨(Command.Table.get?_eq_some_iff.mp hknown).1, hparameters⟩

/-- The operands on all lines, in order. -/
def operandsOf (commands : Command.Table) (lines : List Line) : List Operand :=
  lines.flatMap (Line.operands commands)

@[simp] theorem operandsOf_nil (commands : Command.Table) : operandsOf commands [] = [] := rfl

theorem operandsOf_cons (commands : Command.Table) (line : Line) (rest : List Line) :
    operandsOf commands (line :: rest) = line.operands commands ++ operandsOf commands rest :=
  List.flatMap_cons

theorem operandsOf_append (commands : Command.Table) (lines more : List Line) :
    operandsOf commands (lines ++ more) = operandsOf commands lines ++ operandsOf commands more :=
  List.flatMap_append

theorem operandsOf_concat (commands : Command.Table) (lines : List Line) (line : Line) :
    operandsOf commands (lines ++ [line]) =
      operandsOf commands lines ++ line.operands commands := by
  rw [operandsOf_append, operandsOf, operandsOf, List.flatMap_singleton]

/-- An operand stands on a line of the program, and `before` are all operands in front of it. -/
def OccursOn (commands : Command.Table) (lines : List Line) (line : Line) (before : List Operand)
    (operand : Operand) : Prop :=
  ∃ earlier later front rest, lines = earlier ++ line :: later ∧
    line.operands commands = front ++ operand :: rest ∧
    before = operandsOf commands earlier ++ front

/-- The operands of a command stand on its line, after the operands of the lines before. -/
theorem occursOn_of_command? {commands : Command.Table} {line : Line} {command : Command}
    {operands front rest : List Operand} {operand : Operand} (earlier later : List Line)
    (hcommand : line.command? commands = some (command, operands))
    (hsplit : operands = front ++ operand :: rest) :
    OccursOn commands (earlier ++ line :: later) line (operandsOf commands earlier ++ front)
      operand :=
  ⟨earlier, later, front, rest, rfl, (Line.operands_of_command? hcommand).trans hsplit, rfl⟩

/-- The operands of a program are those that stand on one of its lines. -/
theorem exists_occursOn_iff {commands : Command.Table} {lines : List Line} {before : List Operand}
    {operand : Operand} :
    (∃ line, OccursOn commands lines line before operand) ↔
      ∃ after, operandsOf commands lines = before ++ operand :: after := by
  constructor
  · rintro ⟨line, earlier, later, front, rest, rfl, hoperands, rfl⟩
    refine ⟨rest ++ operandsOf commands later, ?_⟩
    rw [operandsOf_append, operandsOf_cons, hoperands]
    simp
  · rintro ⟨after, hsplit⟩
    induction lines generalizing before with
    | nil => simp at hsplit
    | cons line rest ih =>
      rw [operandsOf_cons] at hsplit
      rcases List.append_eq_append_iff.mp hsplit with ⟨front, rfl, hrest⟩ | ⟨back, hline, hback⟩
      · obtain ⟨found, earlier, later, inner, outer, rfl, hoperands, rfl⟩ := ih hrest
        refine ⟨found, line :: earlier, later, inner, outer, rfl, hoperands, ?_⟩
        rw [operandsOf_cons, List.append_assoc]
      · cases back with
        | nil =>
          rw [List.append_nil] at hline
          obtain ⟨found, earlier, later, inner, outer, rfl, hoperands, hnil⟩ :=
            @ih [] hback.symm
          refine ⟨found, line :: earlier, later, inner, outer, rfl, hoperands, ?_⟩
          rw [operandsOf_cons, List.append_assoc, ← hnil, hline, List.append_nil]
        | cons first back =>
          obtain ⟨rfl, rfl⟩ := List.cons.inj hback
          exact ⟨line, [], rest, before, back, rfl, hline, rfl⟩

/-- Where all operands have values, command lines whose operands are seen each after those before
it are command lines whose operands are seen among all names of the program. -/
theorem filterMap_values {commands : Command.Table} {γ : Type}
    (make : Command → List (Option Operand.Value) → γ) (earlier later : List Line)
    {names : List String}
    (hvalued : Operand.Valued (operandsOf commands earlier) (operandsOf commands later))
    (hnames : names = Operand.declared (operandsOf commands (earlier ++ later))) :
    (mapBefore (fun front line => (line.command? commands).map fun (command, operands) =>
        make command ((Operand.values (operandsOf commands front) operands).map some))
        earlier later).filterMap id =
      (later.filterMap (Line.command? commands)).map fun (command, operands) =>
        make command (operands.map (Operand.value? names)) := by
  induction later generalizing earlier with
  | nil => rfl
  | cons line rest ih =>
    rw [operandsOf_cons, Operand.valued_append, ← operandsOf_concat] at hvalued
    obtain ⟨hline, htail⟩ := hvalued
    have hrest := ih (earlier ++ [line]) htail (by rwa [List.append_cons] at hnames)
    rw [mapBefore, List.filterMap_cons, hrest, List.filterMap_cons]
    cases hcommand : line.command? commands with
    | none => rfl
    | some found =>
      obtain ⟨command, operands⟩ := found
      obtain ⟨more, hmore⟩ := Operand.exists_declared_append
        (operandsOf commands earlier ++ operands) (operandsOf commands rest)
      rw [operandsOf_append, operandsOf_cons, Line.operands_of_command? hcommand,
        ← List.append_assoc, hmore] at hnames
      rw [Line.operands_of_command? hcommand] at hline
      have hhead := Operand.map_value? hline hnames
      exact congrArg (make command · :: _) hhead.symm

/-! ### What a statement is read from -/

namespace Statement

variable {commands : Command.Table} {line : Line}

theorem ofTokens_of_label? (commands : Command.Table) {name : String}
    (h : line.label? = some name) :
    ofTokens commands line.tokens = .ok (.label name (line.tokens.length - 1)) ∧
      line.command? commands = none := by
  unfold Line.label? at h
  cases htokens : line.tokens with
  | nil => simp [htokens] at h
  | cons first rest =>
    have hfirst : Token.label? first = some name := by simpa [htokens] using h
    simp [Line.command?, htokens, ofTokens, hfirst]

theorem ofTokens_of_command? {command : Command} {operands : List Operand}
    (h : line.command? commands = some (command, operands)) :
    ofTokens commands line.tokens = .ok (.command command operands) ∧ line.label? = none := by
  obtain ⟨first, rest, htokens, hlabel, hdirective, hknown, hparameters, hrest⟩ :=
    Line.command?_eq_some_iff.mp h
  have hcount : rest.length = command.parameters.length := by
    rw [← hparameters, ← hrest, List.length_map, List.length_map]
  have hzip := List.zip_of_prod hparameters hrest
  simp [ofTokens, Line.label?, htokens, hlabel, hdirective, hknown, ofCommand, hcount, hzip]

/-- Any other line says nothing or is a problem. -/
theorem ofTokens_of_neither (hlabel : line.label? = none)
    (hcommand : line.command? commands = none) :
    ofTokens commands line.tokens = .ok .empty ∨
      (∃ token, ofTokens commands line.tokens = .ok (.directive token)) ∨
      ∃ problem, ofTokens commands line.tokens = .error problem := by
  unfold Line.label? at hlabel
  unfold Line.command? at hcommand
  cases htokens : line.tokens with
  | nil => exact .inl rfl
  | cons first rest =>
    have hfirst : Token.label? first = none := by simpa [htokens] using hlabel
    rw [ofTokens, hfirst]
    by_cases hdirective : Token.isDirective first = true
    · exact .inr (.inl ⟨first, by rw [if_pos hdirective]⟩)
    · rw [if_neg hdirective]
      simp only [htokens, hfirst, hdirective] at hcommand
      cases hknown : commands.get? first with
      | none => exact .inr (.inr ⟨_, rfl⟩)
      | some known =>
        rw [hknown] at hcommand
        refine .inr (.inr ⟨.argumentCount known.parameters.length rest.length, ?_⟩)
        by_cases hcount : rest.length = known.parameters.length
        · simp [hcount] at hcommand
        · simp [ofCommand, hcount]

/-- What keeps a line from saying something is its mnemonic or the number of its operands. -/
theorem kind_of_ofTokens {tokens : List String} {problem : Problem}
    (h : ofTokens commands tokens = .error problem) :
    problem.kind = .unknownCommand ∨ problem.kind = .argumentCount := by
  cases tokens with
  | nil => cases h
  | cons first rest =>
    rw [ofTokens] at h
    split at h
    · cases h
    · split at h
      · cases h
      · split at h
        · cases h
          exact .inl rfl
        · unfold ofCommand at h
          split at h
          · cases h
          · cases h
            exact .inr rfl

theorem severity_of_ofTokens {tokens : List String} {problem : Problem}
    (h : ofTokens commands tokens = .error problem) : problem.kind.severity = .error := by
  rcases kind_of_ofTokens h with hkind | hkind
  · rw [hkind]
    rfl
  · rw [hkind]
    rfl

end Statement

/-! ### A small program -/

/-- Commands for variables, talk and jumps. -/
def greetingCommands : Command.Table :=
  (((∅ : Command.Table).add ⟨"VAR", 1, [.declaration]⟩).add
    ⟨"SAY", 2, [.string, .number 1]⟩).add ⟨"JUMP", 3, [.label]⟩

/-- A program that says the same again and again. -/
def greeting : List Line :=
  [⟨1, "top:", ["top:"], none⟩, ⟨2, "var x", ["var", "x"], none⟩,
    ⟨3, "say \"hi\" x", ["say", "\"hi\"", "x"], none⟩, ⟨4, "jump top", ["jump", "top"], none⟩]

theorem fromSpecs_greetingCommands : greetingCommands.FromSpecs := by
  refine ((Command.Table.fromSpecs_empty.add ?_).add ?_).add ?_
  · intro parameter hmem
    obtain rfl := List.mem_singleton.mp hmem
    exact ⟨"d", by decide⟩
  · intro parameter hmem
    rcases List.mem_cons.mp hmem with rfl | hmem
    · exact ⟨"s", by decide⟩
    · obtain rfl := List.mem_singleton.mp hmem
      exact ⟨"#", by decide⟩
  · intro parameter hmem
    obtain rfl := List.mem_singleton.mp hmem
    exact ⟨"l", by decide⟩

end EventScript
