import EventScript.Proofs.Readdressing
import EventScript.Proofs.Reports
import EventScript.Proofs.TokenClass

/-!
What of a program matters. An assembly depends on the tokens of the lines and on their order;
directives are skipped, and the numbers and the texts of the lines only show up again in the
diagnostics. So two programs that say the same in other places, with other directives in between,
are assembled to the same bytes and tables, and report the same in the same words.
-/

namespace EventScript

/-! ### What programs say -/

/-- The line starts with a directive. -/
def Line.isDirective (line : Line) : Bool := line.tokens.head?.any Token.isDirective

/-- A line of which nothing is known but its tokens. -/
def Line.bare (tokens : List String) : Line := ⟨0, "", tokens, none⟩

/-- What a program says: the tokens of all lines that are no directives. -/
def wording (lines : List Line) : List (List String) :=
  (lines.filter fun line => !line.isDirective).map Line.tokens

/-- A diagnostic without the line that it belongs to. -/
def Diagnostic.words (diagnostic : Diagnostic) : Diagnostic.Kind × String :=
  (diagnostic.kind, diagnostic.message)

/-- A piece without the line that it belongs to. -/
def Piece.bare : Piece → Piece
  | .fixed bytes => .fixed bytes
  | .slot label _ _ => .slot label 0 ""

@[simp] theorem Piece.raw_bare (piece : Piece) : piece.bare.raw = piece.raw := by
  cases piece <;> rfl

@[simp] theorem Piece.filled_bare (address? : String → Option Nat) (piece : Piece) :
    piece.bare.filled address? = piece.filled address? := by
  cases piece <;> rfl

theorem Piece.words_diagnostics_bare (address? : String → Option Nat) (piece : Piece) :
    (piece.bare.diagnostics address?).map Diagnostic.words =
      (piece.diagnostics address?).map Diagnostic.words := by
  cases piece with
  | fixed bytes => rfl
  | slot label line source =>
    simp only [Piece.bare, Piece.diagnostics]
    split
    · rfl
    · split <;> rfl

theorem Operand.Value.bare_piece (value : Value) (line other : Line) :
    (value.piece line).bare = (value.piece other).bare := by
  cases value <;> rfl

/-- An operand reports the same words on whatever line it stands. -/
theorem Operand.words_diagnosticsAfter (line other : Line) (before : List Operand)
    (operand : Operand) :
    (diagnosticsAfter line before operand).map Diagnostic.words =
      (diagnosticsAfter other before operand).map Diagnostic.words := by
  rw [diagnosticsAfter, diagnosticsAfter, diagnostics, diagnostics]
  cases contribution (Variables.ofOperands before) operand.1 operand.2 with
  | ok contribution =>
    simp only [List.map_map]
    rfl
  | error problem => rfl

/-! ### Lines with the same tokens -/

namespace Line

variable {line other : Line}

theorem label?_of_tokens (h : line.tokens = other.tokens) : line.label? = other.label? := by
  rw [label?, h, label?]

theorem command?_of_tokens (h : line.tokens = other.tokens) (commands : Command.Table) :
    line.command? commands = other.command? commands := by
  rw [command?, h, command?]

theorem operands_of_tokens (h : line.tokens = other.tokens) (commands : Command.Table) :
    line.operands commands = other.operands commands := by
  rw [operands, command?_of_tokens h, operands]

theorem of_isDirective (h : line.isDirective = true) (commands : Command.Table) :
    line.label? = none ∧ line.command? commands = none ∧
      ∃ token, Statement.ofTokens commands line.tokens = .ok (.directive token) := by
  unfold isDirective at h
  unfold label? command?
  cases htokens : line.tokens with
  | nil => simp [htokens] at h
  | cons first rest =>
    have hdirective : Token.isDirective first = true := by simpa [htokens] using h
    have hlabel := Token.label?_of_isDirective hdirective
    simp [Statement.ofTokens, hlabel, hdirective]

end Line

/-! ### Programs that say the same -/

/-- Two programs say the same: they have the same labels at the same addresses, the same operands
and the same pieces of output, and they report the same in the same words. -/
structure SaysSame (commands : Command.Table) (lines other : List Line) : Prop where
  labels : Direct.labels commands lines = Direct.labels commands other
  operands : operandsOf commands lines = operandsOf commands other
  pieces : (piecesOf commands lines).map Piece.bare = (piecesOf commands other).map Piece.bare
  words : (diagnosticsOf commands lines).map Diagnostic.words =
    (diagnosticsOf commands other).map Diagnostic.words

namespace SaysSame

variable {commands : Command.Table} {lines other third : List Line} {line copy : Line}

theorem refl (commands : Command.Table) (lines : List Line) : SaysSame commands lines lines :=
  ⟨rfl, rfl, rfl, rfl⟩

theorem symm (h : SaysSame commands lines other) : SaysSame commands other lines :=
  ⟨h.labels.symm, h.operands.symm, h.pieces.symm, h.words.symm⟩

theorem trans (h : SaysSame commands lines other) (hnext : SaysSame commands other third) :
    SaysSame commands lines third :=
  ⟨h.labels.trans hnext.labels, h.operands.trans hnext.operands, h.pieces.trans hnext.pieces,
    h.words.trans hnext.words⟩

theorem address? (h : SaysSame commands lines other) :
    Direct.address? commands lines = Direct.address? commands other := by
  funext name
  rw [← Direct.lookup_labels, h.labels, Direct.lookup_labels]

theorem size (h : SaysSame commands lines other) :
    Direct.size commands lines = Direct.size commands other := by
  have hraw := congrArg (List.flatMap Piece.raw) h.pieces
  simp only [List.flatMap_map, Piece.raw_bare] at hraw
  rw [← length_piecesOf, hraw, length_piecesOf]

theorem mem_labels_iff (h : SaysSame commands lines other) (name : String) :
    name ∈ lines.filterMap Line.label? ↔ name ∈ other.filterMap Line.label? := by
  rw [← not_iff_not, ← @Direct.address?_eq_none_iff commands, h.address?,
    Direct.address?_eq_none_iff]

/-- A directive changes nothing of what is said. -/
theorem concat_directive (h : SaysSame commands lines other)
    (hdirective : line.isDirective = true) :
    SaysSame commands (lines ++ [line]) other := by
  obtain ⟨hlabel, hcommand, token, htokens⟩ := Line.of_isDirective hdirective commands
  have hpieces : linePieces commands lines line = [] := Draft.linePieces_of_none hcommand
  have hreports : lineDiagnostics commands lines line = [] := by rw [lineDiagnostics, htokens]
  exact {
    labels := by rw [Direct.labels_concat_of_old (by simp [hlabel]), h.labels]
    operands := by
      rw [operandsOf_concat, Line.operands_of_none hcommand, List.append_nil, h.operands]
    pieces := by rw [piecesOf_concat, hpieces, List.append_nil, h.pieces]
    words := by rw [diagnosticsOf_concat, hreports, List.append_nil, h.words] }

theorem labels_concat (h : SaysSame commands lines other) (htokens : line.tokens = copy.tokens) :
    Direct.labels commands (lines ++ [line]) = Direct.labels commands (other ++ [copy]) := by
  have hlabel := Line.label?_of_tokens htokens
  by_cases hold : ∀ name, line.label? = some name → name ∈ lines.filterMap Line.label?
  · have hold' : ∀ name, copy.label? = some name → name ∈ other.filterMap Line.label? :=
      fun name hname => (h.mem_labels_iff name).mp (hold name (hlabel.trans hname))
    rw [Direct.labels_concat_of_old hold, Direct.labels_concat_of_old hold', h.labels]
  · simp only [not_forall] at hold
    obtain ⟨name, hname, hnew⟩ := hold
    have hnew' := mt (h.mem_labels_iff name).mpr hnew
    rw [Direct.labels_concat_of_new hname hnew,
      Direct.labels_concat_of_new (hlabel.symm.trans hname) hnew', h.labels, h.size]

theorem pieces_concat (h : SaysSame commands lines other) (htokens : line.tokens = copy.tokens) :
    (linePieces commands lines line).map Piece.bare =
      (linePieces commands other copy).map Piece.bare := by
  rw [linePieces, linePieces, Direct.instruction?, Direct.instruction?,
    Line.command?_of_tokens htokens, h.operands]
  cases copy.command? commands with
  | none => rfl
  | some found =>
    simp only [Option.map_some, List.map_cons, List.map_map]
    congr 1
    exact List.map_congr_left fun value _ => value.bare_piece line copy

theorem words_concat (h : SaysSame commands lines other) (htokens : line.tokens = copy.tokens) :
    (lineDiagnostics commands lines line).map Diagnostic.words =
      (lineDiagnostics commands other copy).map Diagnostic.words := by
  rw [lineDiagnostics, lineDiagnostics, htokens, h.address?, h.operands]
  cases Statement.ofTokens commands copy.tokens with
  | error problem => rfl
  | ok statement =>
    cases statement with
    | empty => rfl
    | directive token => rfl
    | label name ignored =>
      dsimp only
      cases Direct.address? commands other name <;> rfl
    | command command operands =>
      simp only [List.map_flatten, map_mapBefore, Operand.words_diagnosticsAfter line copy]

theorem concat (h : SaysSame commands lines other) (htokens : line.tokens = copy.tokens) :
    SaysSame commands (lines ++ [line]) (other ++ [copy]) where
  labels := h.labels_concat htokens
  operands := by
    rw [operandsOf_concat, operandsOf_concat, h.operands, Line.operands_of_tokens htokens]
  pieces := by
    rw [piecesOf_concat, piecesOf_concat, List.map_append, List.map_append, h.pieces,
      h.pieces_concat htokens]
  words := by
    rw [diagnosticsOf_concat, diagnosticsOf_concat, List.map_append, List.map_append, h.words,
      h.words_concat htokens]

/-- A program says what its wording says. -/
theorem bare_wording (commands : Command.Table) (lines : List Line) :
    SaysSame commands lines ((wording lines).map Line.bare) := by
  induction lines using List.reverseRecOn with
  | nil => exact refl commands []
  | append_singleton lines line ih =>
    cases hdirective : line.isDirective with
    | true =>
      have hsame : wording (lines ++ [line]) = wording lines := by simp [wording, hdirective]
      rw [hsame]
      exact ih.concat_directive hdirective
    | false =>
      have hmore : wording (lines ++ [line]) = wording lines ++ [line.tokens] := by
        simp [wording, hdirective]
      rw [hmore, List.map_append]
      exact ih.concat rfl

theorem of_wording (h : wording lines = wording other) (commands : Command.Table) :
    SaysSame commands lines other := by
  have hother := (bare_wording commands other).symm
  rw [← h] at hother
  exact (bare_wording commands lines).trans hother

/-! ### Their assemblies -/

theorem output (h : SaysSame commands lines other) :
    (assemble commands lines).assembly.output.toList =
      (assemble commands other).assembly.output.toList := by
  have hfilled := congrArg (List.flatMap (Piece.filled (Direct.address? commands lines))) h.pieces
  simp only [List.flatMap_map, Piece.filled_bare] at hfilled
  rw [output_eq_filled, output_eq_filled, hfilled, h.address?]

theorem words_slotDiagnostics (h : SaysSame commands lines other) :
    (slotDiagnostics commands lines).map Diagnostic.words =
      (slotDiagnostics commands other).map Diagnostic.words := by
  have hslots := congrArg (List.flatMap fun piece =>
    (Piece.diagnostics (Direct.address? commands lines) piece).map Diagnostic.words) h.pieces
  simp only [List.flatMap_map, Piece.words_diagnostics_bare] at hslots
  rw [slotDiagnostics, List.map_flatMap, hslots, slotDiagnostics, List.map_flatMap, h.address?]

/-- Programs that say the same are assembled to the same bytes, labels and variables, and report
the same in the same words. -/
theorem assembly (h : SaysSame commands lines other) :
    let result := (assemble commands lines).assembly
    let result' := (assemble commands other).assembly
    result.output.toList = result'.output.toList ∧
      result.labels.toList = result'.labels.toList ∧
      result.vars.toList = result'.vars.toList ∧
      result.diagnostics.toList.map Diagnostic.words =
        result'.diagnostics.toList.map Diagnostic.words := by
  intro result result'
  have hlines := isDirect_assemble commands lines
  have hother := isDirect_assemble commands other
  refine ⟨h.output, ?_, ?_, ?_⟩
  · rw [hlines.labels, hother.labels, h.labels]
  · rw [hlines.vars, hother.vars, Direct.vars, Direct.vars, h.operands]
  · rw [hlines.toList_diagnostics, hother.toList_diagnostics, List.map_append, List.map_append,
      h.words, h.words_slotDiagnostics]

end SaysSame

end EventScript
