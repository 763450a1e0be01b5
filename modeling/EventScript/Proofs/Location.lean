import EventScript.Proofs.Truncation

/-!
Where diagnostics point. A diagnostic names a physical line of the source by its number and shows
that line; what the first pass reports is in the order of the lines, and so is what the second pass
reports after it. The line of a diagnostic of the second pass is not at hand any more when it is
reported: the reference has carried it along from the operand.

        source         statements     first pass       second pass
        1  jump far    1  jump far                     1  far is no label
        2  ; again
        3  jum top     3  jum top     3  jum unknown
-/

namespace EventScript

/-! ### Lines of a source -/

/-- The diagnostic names a physical line of the source, numbered from one, and shows its trimmed
text. -/
def Diagnostic.PointsInto (source : String) (diagnostic : Diagnostic) : Prop :=
  ∃ index raw, (Text.lines source)[index]? = some raw ∧ diagnostic.line = index + 1 ∧
    diagnostic.source = Text.trim raw

/-- The diagnostic is about the line. -/
def Diagnostic.IsOn (line : Line) (diagnostic : Diagnostic) : Prop :=
  diagnostic.line = line.number ∧ diagnostic.source = line.text

theorem Problem.isOn_diagnostic (problem : Problem) (line : Line) :
    (problem.diagnostic line.number line.text).IsOn line := ⟨rfl, rfl⟩

namespace Line

/-- A physical line is a statement exactly if it holds a token. -/
theorem ofPhysical?_eq_some_iff {raw : String} {number : Nat} {line : Line} :
    ofPhysical? raw number = some line ↔
      Token.tokenize raw ≠ [] ∧ line = ⟨number, Text.trim raw, Token.tokenize raw, none⟩ := by
  unfold ofPhysical?
  split
  · next hnone => simp [hnone]
  · next hsome =>
    rw [Option.some.injEq, eq_comm]
    exact (and_iff_right hsome).symm

theorem of_ofPhysical? {raw : String} {number : Nat} {line : Line}
    (h : ofPhysical? raw number = some line) :
    line.number = number ∧ line.text = Text.trim raw := by
  obtain ⟨-, rfl⟩ := ofPhysical?_eq_some_iff.mp h
  exact ⟨rfl, rfl⟩

theorem ofSource_of_lines {source raw : String} (h : Text.lines source = [raw]) :
    ofSource source = (ofPhysical? raw 1).toList := by
  rw [ofSource, h]
  cases hline : ofPhysical? raw 1 with
  | none => simp [hline]
  | some line => simp [hline]

/-- A diagnostic about a statement of a source points into the source. -/
theorem pointsInto_of_isOn {source : String} {line : Line} (h : line ∈ ofSource source)
    {diagnostic : Diagnostic} (hon : diagnostic.IsOn line) : diagnostic.PointsInto source := by
  obtain ⟨⟨raw, number⟩, hmem, hline⟩ := List.mem_filterMap.mp h
  obtain ⟨hnumber, htext⟩ := of_ofPhysical? hline
  obtain ⟨hle, hraw⟩ := List.mk_mem_zipIdx_iff_le_and_getElem?_sub.mp hmem
  obtain ⟨hon_line, hon_source⟩ := hon
  exact ⟨number - 1, raw, hraw, by omega, hon_source.trans htext⟩

theorem pairwise_number_ofSource (source : String) :
    (ofSource source).Pairwise fun line next => line.number < next.number := by
  have hnumbers : ((Text.lines source).zipIdx 1).Pairwise fun entry next => entry.2 < next.2 := by
    refine List.pairwise_map.mp ?_
    rw [List.zipIdx_map_snd]
    exact List.pairwise_lt_range'
  rw [ofSource, List.pairwise_filterMap]
  refine hnumbers.imp ?_
  rintro ⟨raw, number⟩ ⟨raw', number'⟩ hlt line hline next hnext
  rw [(of_ofPhysical? hline).1, (of_ofPhysical? hnext).1]
  exact hlt

end Line

/-! ### Reports in the order of the lines -/

/-- Diagnostics about lines that are numbered upwards are in the order of the numbers. -/
theorem pairwise_line_of_isOn {f : List Line → Line → List Diagnostic}
    (hon : ∀ earlier line, ∀ diagnostic ∈ f earlier line, diagnostic.IsOn line)
    {lines : List Line} (hlines : lines.Pairwise fun line next => line.number < next.number) :
    (mapBefore f [] lines).flatten.Pairwise fun diagnostic next =>
      diagnostic.line ≤ next.line := by
  refine pairwise_flatten_mapBefore (fun earlier line => ?_) ?_ [] hlines
  · refine List.pairwise_of_forall_mem_list fun diagnostic hmem next hnext => ?_
    rw [(hon _ _ _ hmem).1, (hon _ _ _ hnext).1]
  · intro earlier line earlier' line' hlt diagnostic hmem next hnext
    rw [(hon _ _ _ hmem).1, (hon _ _ _ hnext).1]
    exact Nat.le_of_lt hlt

/-! ### The first pass -/

section FirstPass
variable {line : Line} {diagnostic : Diagnostic}

theorem Operand.isOn_of_mem_diagnosticsAfter {before : List Operand} {operand : Operand}
    (h : diagnostic ∈ diagnosticsAfter line before operand) : diagnostic.IsOn line := by
  unfold diagnosticsAfter diagnostics at h
  split at h
  · obtain ⟨cut, -, rfl⟩ := List.mem_map.mp h
    exact Problem.isOn_diagnostic _ line
  · obtain rfl := List.mem_singleton.mp h
    exact Problem.isOn_diagnostic _ line

/-- What the first pass reports about a line is about that line. -/
theorem isOn_of_mem_lineDiagnostics {commands : Command.Table} {earlier : List Line}
    (h : diagnostic ∈ lineDiagnostics commands earlier line) : diagnostic.IsOn line := by
  unfold lineDiagnostics at h
  split at h
  · obtain rfl := List.mem_singleton.mp h
    exact Problem.isOn_diagnostic _ line
  · split at h
    · cases h
    · obtain rfl := List.mem_singleton.mp h
      exact Problem.isOn_diagnostic _ line
  · obtain ⟨reports, hreports, hmem⟩ := List.mem_flatten.mp h
    obtain ⟨front, operand, rest, -, rfl⟩ := (mem_mapBefore _).mp hreports
    exact Operand.isOn_of_mem_diagnosticsAfter hmem
  · cases h

theorem pointsInto_of_mem_diagnosticsOf {commands : Command.Table} {source : String}
    (h : diagnostic ∈ diagnosticsOf commands (Line.ofSource source)) :
    diagnostic.PointsInto source := by
  obtain ⟨earlier, line, later, hlines, hreport⟩ := mem_diagnosticsOf.mp h
  have hline : line ∈ Line.ofSource source := by rw [hlines]; simp
  exact Line.pointsInto_of_isOn hline (isOn_of_mem_lineDiagnostics hreport)

end FirstPass

/-! ### The second pass -/

/-- The label that an operand refers to. -/
def Operand.labelName? : Operand → Option String
  | (.label, token) => if Token.isName token then some token else none
  | _ => none

/-- The labels that the operands on a line refer to, from left to right. -/
def Line.labelNames (commands : Command.Table) (line : Line) : List String :=
  (line.operands commands).filterMap Operand.labelName?

/-- What is wrong with a reference to a label, where labels have these addresses: the label has
none, or one that is too large for a word. -/
def addressProblem? (address? : String → Option Nat) (label : String) : Option Problem :=
  match address? label with
  | none => some (.undefinedLabel label)
  | some address => if 0xFFFF < address then some (.wideAddress address label) else none

/-- What is wrong with the references to labels on a line, from left to right. -/
def Line.addressDiagnostics (commands : Command.Table) (address? : String → Option Nat)
    (line : Line) : List Diagnostic :=
  (line.labelNames commands).filterMap fun label =>
    (addressProblem? address? label).map fun problem => problem.diagnostic line.number line.text

section SecondPass
variable {commands : Command.Table} {address? : String → Option Nat} {line : Line}

/-- An operand reports in the second pass what is wrong with the label that it refers to. -/
theorem Operand.addressDiagnostics_eq_toList (operand : Operand) :
    operand.addressDiagnostics address? line =
      (operand.labelName?.bind fun label => (addressProblem? address? label).map fun problem =>
        problem.diagnostic line.number line.text).toList := by
  obtain ⟨parameter, token⟩ := operand
  cases parameter with
  | label =>
    rw [addressDiagnostics, labelName?]
    by_cases hname : Token.isName token = true
    · rw [if_pos hname, if_pos hname, Option.bind_some, Piece.diagnostics, addressProblem?]
      cases address? token with
      | none => rfl
      | some address =>
        by_cases hlarge : 0xFFFF < address
        · simp [Draft.maxAddress, hlarge]
        · simp [Draft.maxAddress, hlarge]
    · rw [if_neg hname, if_neg hname]
      rfl
  | number | string | either | declaration | «variable» => rfl

/-- The second pass reports line by line what is wrong with the references on the line. -/
theorem slotDiagnostics_eq_addressDiagnostics (commands : Command.Table) (lines : List Line) :
    slotDiagnostics commands lines =
      lines.flatMap (Line.addressDiagnostics commands (Direct.address? commands lines)) := by
  rw [slotDiagnostics_eq_flatMap]
  refine List.flatMap_congr fun line _ => ?_
  rw [Line.addressDiagnostics, Line.labelNames, List.filterMap_filterMap,
    List.filterMap_eq_flatMap_toList]
  exact List.flatMap_congr fun operand _ => Operand.addressDiagnostics_eq_toList operand

/-- What the second pass reports is about a label that an operand on the line refers to: it is not
defined, or its address is too large. -/
theorem exists_label_of_mem_addressDiagnostics {diagnostic : Diagnostic}
    (h : diagnostic ∈ line.addressDiagnostics commands address?) :
    ∃ label ∈ line.labelNames commands,
      (address? label = none ∧
        diagnostic = (Problem.undefinedLabel label).diagnostic line.number line.text) ∨
      ∃ address, address? label = some address ∧ 0xFFFF < address ∧
        diagnostic = (Problem.wideAddress address label).diagnostic line.number line.text := by
  obtain ⟨label, hlabel, hreport⟩ := List.mem_filterMap.mp h
  obtain ⟨problem, hproblem, rfl⟩ := Option.map_eq_some_iff.mp hreport
  unfold addressProblem? at hproblem
  split at hproblem
  · next hnone =>
    obtain rfl := Option.some.inj hproblem
    exact ⟨label, hlabel, .inl ⟨hnone, rfl⟩⟩
  · next address haddress =>
    split at hproblem
    · next hlarge =>
      obtain rfl := Option.some.inj hproblem
      exact ⟨label, hlabel, .inr ⟨address, haddress, hlarge, rfl⟩⟩
    · cases hproblem

theorem isOn_of_mem_addressDiagnostics {diagnostic : Diagnostic}
    (h : diagnostic ∈ line.addressDiagnostics commands address?) : diagnostic.IsOn line := by
  obtain ⟨label, -, ⟨-, rfl⟩ | ⟨address, -, -, rfl⟩⟩ := exists_label_of_mem_addressDiagnostics h
  · exact Problem.isOn_diagnostic _ line
  · exact Problem.isOn_diagnostic _ line

theorem pointsInto_of_mem_addressDiagnostics {source : String} {diagnostic : Diagnostic}
    (h : diagnostic ∈ (Line.ofSource source).flatMap
      (Line.addressDiagnostics commands address?)) : diagnostic.PointsInto source := by
  obtain ⟨line, hline, hreport⟩ := List.mem_flatMap.mp h
  exact Line.pointsInto_of_isOn hline (isOn_of_mem_addressDiagnostics hreport)

theorem pairwise_line_addressDiagnostics {lines : List Line}
    (hlines : lines.Pairwise fun line next => line.number < next.number) :
    (lines.flatMap (Line.addressDiagnostics commands address?)).Pairwise fun diagnostic next =>
      diagnostic.line ≤ next.line := by
  rw [← flatten_mapBefore (g := Line.addressDiagnostics commands address?) (fun _ _ => rfl) []]
  exact pairwise_line_of_isOn (fun _ _ _ => isOn_of_mem_addressDiagnostics) hlines

end SecondPass

/-! ### Both passes -/

section BothPasses
variable {commands : Command.Table} {lines : List Line} {diagnostic : Diagnostic}

/-- A diagnostic is what one of the lines reports in one of the passes. -/
theorem mem_diagnostics_assemble :
    diagnostic ∈ (assemble commands lines).assembly.diagnostics.toList ↔
      (∃ earlier line later, lines = earlier ++ line :: later ∧
        diagnostic ∈ lineDiagnostics commands earlier line) ∨
      ∃ line ∈ lines, diagnostic ∈ line.addressDiagnostics commands
        (Direct.address? commands lines) := by
  rw [(isDirect_assemble commands lines).toList_diagnostics, List.mem_append, mem_diagnosticsOf,
    slotDiagnostics_eq_addressDiagnostics, List.mem_flatMap]

theorem exists_isOn_of_mem_diagnostics
    (h : diagnostic ∈ (assemble commands lines).assembly.diagnostics.toList) :
    ∃ line ∈ lines, diagnostic.IsOn line := by
  rcases mem_diagnostics_assemble.mp h with ⟨earlier, line, later, rfl, hreport⟩ |
    ⟨line, hline, hreport⟩
  · exact ⟨line, by simp, isOn_of_mem_lineDiagnostics hreport⟩
  · exact ⟨line, hline, isOn_of_mem_addressDiagnostics hreport⟩

end BothPasses

/-- The diagnostics of a source are in order and point at the right lines. Those of the first pass
come first, those of each line after those of the lines before it, and no label is missed among
them; those of the second pass follow, one for each operand
that refers to a label without an address or with one that is too large, on the line of that
operand. In both parts the line numbers never decrease, every diagnostic shows the physical line of
the source that it names, and the counts are those of the errors and of the warnings among all of
them. -/
theorem diagnostics_located (commands : Command.Table) (source : String) :
    let lines := Line.ofSource source
    let assembly := (compile commands source).assembly
    let first := (firstPass commands lines).diagnostics.toList
    let second := lines.flatMap (Line.addressDiagnostics commands assembly.labels.offset?)
    assembly.diagnostics.toList = first ++ second ∧
      first = diagnosticsOf commands lines ∧
      (∀ diagnostic ∈ first, diagnostic.kind ≠ .undefinedLabel) ∧
      (∀ diagnostic ∈ second, ∃ line ∈ lines, ∃ label ∈ line.labelNames commands,
        (assembly.labels.offset? label = none ∧
          diagnostic = (Problem.undefinedLabel label).diagnostic line.number line.text) ∨
        ∃ address, assembly.labels.offset? label = some address ∧ 0xFFFF < address ∧
          diagnostic = (Problem.wideAddress address label).diagnostic line.number line.text) ∧
      (first.Pairwise fun diagnostic next => diagnostic.line ≤ next.line) ∧
      (second.Pairwise fun diagnostic next => diagnostic.line ≤ next.line) ∧
      (∀ diagnostic ∈ first ++ second, diagnostic.PointsInto source) ∧
      assembly.diagnostics.errors = (first ++ second).countP (·.severity = .error) ∧
      assembly.diagnostics.warnings = (first ++ second).countP (·.severity = .warning) := by
  intro lines assembly first second
  have hdirect : (compile commands source).IsDirect commands lines :=
    isDirect_assemble commands lines
  have hfirst : first = diagnosticsOf commands lines := toList_diagnostics_firstPass commands lines
  have hsecond : second = slotDiagnostics commands lines := by
    rw [slotDiagnostics_eq_addressDiagnostics, ← hdirect.offset?]
  have hreports : assembly.diagnostics = (∅ : Diagnostics).reportAll (first ++ second) := by
    rw [hfirst, hsecond]
    exact hdirect.diagnostics
  have hordered := Line.pairwise_number_ofSource source
  obtain ⟨herrors, hwarnings⟩ := Diagnostics.counts_reportAll ∅ (first ++ second)
  refine ⟨?_, hfirst, ?_, ?_, ?_, ?_, ?_, ?_, ?_⟩
  · rw [hfirst, hsecond]
    exact hdirect.toList_diagnostics
  · intro diagnostic hmem
    rw [hfirst] at hmem
    exact kind_ne_undefinedLabel hmem
  · intro diagnostic hmem
    obtain ⟨line, hline, hreport⟩ := List.mem_flatMap.mp hmem
    exact ⟨line, hline, exists_label_of_mem_addressDiagnostics hreport⟩
  · rw [hfirst]
    exact pairwise_line_of_isOn (fun _ _ _ => isOn_of_mem_lineDiagnostics) hordered
  · exact pairwise_line_addressDiagnostics hordered
  · intro diagnostic hmem
    rcases List.mem_append.mp hmem with hmem | hmem
    · rw [hfirst] at hmem
      exact pointsInto_of_mem_diagnosticsOf hmem
    · exact pointsInto_of_mem_addressDiagnostics hmem
  · rw [hreports, herrors]
    exact Nat.zero_add _
  · rw [hreports, hwarnings]
    exact Nat.zero_add _

end EventScript
