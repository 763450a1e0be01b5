import Mathlib.Data.List.Nodup
import EventScript.Proofs.Source
import EventScript.Proofs.WellFormed

/-!
What the bytes of an assembly tell about its source. A usable assembly without warnings has cut
nothing, so its bytes determine all that its operands say, but for the upper bits of variable
indices, of which nothing warns: variables are told apart as long as there are at most 65536 of
them, and the next one shares the word of the first.
-/

namespace EventScript

open Operand (Value)

/-! ### Assemblies without warnings -/

namespace Assembly

/-- The bytes of an operand in an assembly. -/
def encoding (assembly : Assembly) (operand : Operand) : List UInt8 :=
  ((assembly.value? operand).map (Value.bytes assembly.labels.offset?)).getD []

/-- What an operand of an assembly says in the source. -/
def source? (assembly : Assembly) (operand : Operand) : Option Source :=
  (assembly.value? operand).map (Value.source assembly.labels.offset?)

/-- The last two bytes of an operand: where it says a variable, the word of the index. -/
def indexWord (assembly : Assembly) (operand : Operand) : List UInt8 :=
  (assembly.encoding operand).drop ((assembly.encoding operand).length - 2)

end Assembly

variable {commands : Command.Table} {lines : List Line} {line : Line} {before : List Operand}
  {operand : Operand} {value : Value}

/-- Without warnings nothing is cut. -/
theorem cut?_eq_none (hwarnings : (assemble commands lines).assembly.diagnostics.warnings = 0)
    (h : OccursOn commands lines line before operand)
    (hvalue : Operand.valueAfter? before operand = some value) : value.cut? = none := by
  cases hcut : value.cut? with
  | none => rfl
  | some cut =>
    have hmem : (Problem.truncated cut).diagnostic line.number line.text ∈
        Operand.diagnosticsAfter line before operand := by
      rw [Operand.diagnosticsAfter_of_some hvalue, hcut]
      exact List.mem_singleton_self _
    exact absurd (severity_truncated cut line.number line.text)
      ((warnings_eq_zero_iff.mp hwarnings).1 _ (mem_diagnosticsOf_of_occursOn h hmem))

/-- Without warnings all bytes are exact. -/
theorem exact_of_warnings
    (hwarnings : (assemble commands lines).assembly.diagnostics.warnings = 0)
    (h : OccursOn commands lines line before operand)
    (hvalue : Operand.valueAfter? before operand = some value) :
    value.Exact (Direct.address? commands lines) := by
  have hcut := cut?_eq_none hwarnings h hvalue
  cases value with
  | immediate width given =>
    have hstored : given &&& widthMask width = given := by
      by_contra hne
      rw [Value.cut?, Operand.ofValue] at hcut
      simp [hne] at hcut
    have hlow := toNat_and_widthMask width given
    rw [hstored] at hlow
    rw [Value.Exact, hlow]
    exact Nat.mod_lt _ (Nat.pow_pos (by decide))
  | text content =>
    rw [Value.Exact]
    by_contra hlong
    rw [Value.cut?, Operand.ofContent] at hcut
    simp [hlong] at hcut
  | label name =>
    rw [Value.Exact]
    by_contra hwide
    rw [Nat.not_le] at hwide
    cases haddress : Direct.address? commands lines name with
    | none => simp [haddress] at hwide
    | some address =>
      rw [haddress, Option.getD_some] at hwide
      have hmem : (Problem.wideAddress address name).diagnostic line.number line.text ∈
          slotDiagnostics commands lines := by
        refine mem_slotDiagnostics.mpr ⟨line, before, operand, name, h, hvalue, ?_⟩
        rw [Piece.diagnostics, haddress]
        simp [hwide]
      exact (warnings_eq_zero_iff.mp hwarnings).2 _ hmem rfl
  | numberVariable index => trivial
  | stringVariable index => trivial
  | «variable» index => trivial

/-- An operand of a usable assembly has its value where it stands and in the whole program. -/
theorem exists_value_of_mem (husable : (assemble commands lines).assembly.isUsable = true)
    (hmem : operand ∈ operandsOf commands lines) :
    ∃ line before value, OccursOn commands lines line before operand ∧
      Operand.valueAfter? before operand = some value ∧
      (assemble commands lines).assembly.value? operand = some value := by
  obtain ⟨before, after, hoperands⟩ := List.append_of_mem hmem
  obtain ⟨line, hoccurs⟩ := exists_occursOn_iff.mpr ⟨after, hoperands⟩
  obtain ⟨value, hvalue⟩ := exists_valueAfter?_of_isUsable husable hoccurs
  exact ⟨line, before, value, hoccurs, hvalue, Assembly.value?_of_valueAfter? hoccurs hvalue⟩

/-- An operand of a usable assembly without warnings, with its value and that value's bytes. -/
theorem exists_exact_of_mem (husable : (assemble commands lines).assembly.isUsable = true)
    (hwarnings : (assemble commands lines).assembly.diagnostics.warnings = 0)
    (hmem : operand ∈ operandsOf commands lines) :
    ∃ value, (assemble commands lines).assembly.value? operand = some value ∧
      value.Exact (Direct.address? commands lines) ∧
      (assemble commands lines).assembly.encoding operand =
        value.bytes (Direct.address? commands lines) ∧
      (assemble commands lines).assembly.source? operand =
        some (value.source (Direct.address? commands lines)) := by
  obtain ⟨line, before, value, hoccurs, hvalue, hfinal⟩ := exists_value_of_mem husable hmem
  have haddress := (isDirect_assemble commands lines).offset?
  refine ⟨value, hfinal, exact_of_warnings hwarnings hoccurs hvalue, ?_, ?_⟩
  · rw [Assembly.encoding, hfinal, haddress]
    rfl
  · rw [Assembly.source?, hfinal, haddress]
    rfl

/-- The output of a usable assembly is the opcode of each command and the bytes of its operands. -/
theorem output_eq_encodings (husable : (assemble commands lines).assembly.isUsable = true) :
    (assemble commands lines).assembly.output.toList =
      (lines.filterMap (Line.command? commands)).flatMap fun (command, operands) =>
        command.opcode :: operands.flatMap (assemble commands lines).assembly.encoding := by
  have hdirect := isDirect_assemble commands lines
  have hvalues := filterMap_values (fun command values => command.opcode ::
    values.flatMap fun value =>
      (value.map (Value.bytes (Direct.address? commands lines))).getD [])
    [] lines (valued_of_isUsable husable) hdirect.names
  have hline : ∀ front line,
      (Direct.instruction? commands front line).map
          (Direct.Instruction.bytes (Direct.address? commands lines)) =
        (line.command? commands).map fun (command, operands) => command.opcode ::
          ((Operand.values (operandsOf commands front) operands).map some).flatMap fun value =>
            (value.map (Value.bytes (Direct.address? commands lines))).getD [] := by
    intro front line
    rw [Direct.instruction?]
    cases line.command? commands with
    | none => rfl
    | some found => simp [List.flatMap_map, Direct.Instruction.bytes]
  have hpush := map_mapBefore (Direct.instruction? commands)
    (Option.map (Direct.Instruction.bytes (Direct.address? commands lines))) [] lines
  simp only [hline] at hpush
  have hbytes : Direct.bytes commands lines =
      (((Direct.code commands lines).map
        (Option.map (Direct.Instruction.bytes (Direct.address? commands lines)))).filterMap
          id).flatten := by
    rw [flatten_filterMap_id, List.flatMap_map]
    rfl
  have hflat := congrArg List.flatten hvalues
  rw [hdirect.output, hbytes, Direct.code, hpush]
  refine hflat.trans ?_
  rw [List.flatMap_def]
  simp only [List.flatMap_map, ← hdirect.offset?]
  rfl

/-- An operand that says a variable is the name of that variable, and its bytes end with the word of
the index. -/
theorem indexWord_of_source? (husable : (assemble commands lines).assembly.isUsable = true)
    (hwarnings : (assemble commands lines).assembly.diagnostics.warnings = 0)
    (hmem : operand ∈ operandsOf commands lines) {index : Nat}
    (hsource : (assemble commands lines).assembly.source? operand = some (.variable index)) :
    (operand.2, index) ∈ (assemble commands lines).assembly.vars.toList ∧
      (assemble commands lines).assembly.indexWord operand = wordBytes index := by
  have hdirect := isDirect_assemble commands lines
  obtain ⟨value, hvalue, -, hencoding, hmeans⟩ := exists_exact_of_mem husable hwarnings hmem
  have hvariable := Option.some.inj (hmeans.symm.trans hsource)
  refine ⟨?_, ?_⟩
  · rw [Assembly.value?, hdirect.names] at hvalue
    have hdenotes := Operand.denotes_of_value? hvalue
    exact hdirect.mem_vars_iff.mpr (Operand.getElem?_of_denotes hdenotes hvariable)
  · rw [Assembly.indexWord, hencoding, Value.length_bytes]
    exact Operand.Value.drop_bytes hvariable

/-- In a usable assembly without warnings the output is made of the bytes of the operands, and these
determine what the operands say up to the upper bits of variable indices: operands of one kind have
the same bytes exactly when they say the same number, text or address, or variables whose indices
agree in their low 16 bits. Wherever two variables stand, their index words differ unless their
indices agree in these bits, so they always differ if there are at most 65536 variables. -/
theorem encodings_determine_sources (commands : Command.Table) (lines : List Line)
    (husable : (assemble commands lines).assembly.isUsable = true)
    (hwarnings : (assemble commands lines).assembly.diagnostics.warnings = 0) :
    let assembly := (assemble commands lines).assembly
    assembly.output.toList =
        (lines.filterMap (Line.command? commands)).flatMap (fun (command, operands) =>
          command.opcode :: operands.flatMap assembly.encoding) ∧
      (∀ operand ∈ operandsOf commands lines, ∀ other ∈ operandsOf commands lines,
        operand.1 = other.1 →
        ∃ source source', assembly.source? operand = some source ∧
          assembly.source? other = some source' ∧
          (assembly.encoding operand = assembly.encoding other ↔ source.Agrees source')) ∧
      (∀ operand ∈ operandsOf commands lines, ∀ other ∈ operandsOf commands lines,
        ∀ index index', assembly.source? operand = some (.variable index) →
        assembly.source? other = some (.variable index') →
        (operand.2, index) ∈ assembly.vars.toList ∧ (other.2, index') ∈ assembly.vars.toList ∧
          (assembly.indexWord operand = assembly.indexWord other ↔
            index % 0x10000 = index' % 0x10000) ∧
          (assembly.vars.size ≤ 0x10000 →
            assembly.indexWord operand = assembly.indexWord other → operand.2 = other.2)) := by
  intro assembly
  refine ⟨output_eq_encodings husable, ?_, ?_⟩
  · intro operand hmem other hother hsame
    obtain ⟨value, hvalue, hexact, hencoding, hmeans⟩ :=
      exists_exact_of_mem husable hwarnings hmem
    obtain ⟨value', hvalue', hexact', hencoding', hmeans'⟩ :=
      exists_exact_of_mem husable hwarnings hother
    have hdenotes := Operand.denotes_of_value? hvalue
    have hdenotes' := Operand.denotes_of_value? hvalue'
    rw [← hsame] at hdenotes'
    refine ⟨_, _, hmeans, hmeans', ?_⟩
    rw [hencoding, hencoding']
    exact Value.bytes_eq_iff hdenotes hdenotes' hexact hexact'
  · intro operand hmem other hother index index' hmeans hmeans'
    obtain ⟨hvar, hword⟩ := indexWord_of_source? husable hwarnings hmem hmeans
    obtain ⟨hvar', hword'⟩ := indexWord_of_source? husable hwarnings hother hmeans'
    refine ⟨hvar, hvar', ?_, ?_⟩
    · rw [hword, hword']
      exact wordBytes_eq_iff
    · intro hfew hwords
      rw [hword, hword', wordBytes_eq_iff] at hwords
      have hdirect := isDirect_assemble commands lines
      rw [hdirect.mem_vars_iff] at hvar hvar'
      rw [hdirect.size_vars] at hfew
      obtain ⟨hlt, -⟩ := List.getElem?_eq_some_iff.mp hvar
      obtain ⟨hlt', -⟩ := List.getElem?_eq_some_iff.mp hvar'
      rw [Nat.mod_eq_of_lt (Nat.lt_of_lt_of_le hlt hfew),
        Nat.mod_eq_of_lt (Nat.lt_of_lt_of_le hlt' hfew)] at hwords
      rw [hwords] at hvar
      exact Option.some.inj (hvar.symm.trans hvar')

/-- In the small program the number that `say` takes is the variable `x`, and it has the word that
the declaration has. -/
theorem encodings_determine_sources_greeting :
    let assembly := (assemble greetingCommands greeting).assembly
    assembly.isUsable = true ∧ assembly.diagnostics.warnings = 0 ∧
      assembly.output.toList =
        (greeting.filterMap (Line.command? greetingCommands)).flatMap (fun (command, operands) =>
          command.opcode :: operands.flatMap assembly.encoding) ∧
      ("x", 0) ∈ assembly.vars.toList ∧
      assembly.indexWord (.declaration, "x") = assembly.indexWord (.number 1, "x") := by
  have husable : (assemble greetingCommands greeting).assembly.isUsable = true := by
    decide +kernel
  have hwarnings : (assemble greetingCommands greeting).assembly.diagnostics.warnings = 0 := by
    decide +kernel
  obtain ⟨houtput, -, hwords⟩ :=
    encodings_determine_sources greetingCommands greeting husable hwarnings
  obtain ⟨hvar, -, hword, -⟩ := hwords (.declaration, "x") (by decide +kernel) (.number 1, "x")
    (by decide +kernel) 0 0 (by decide +kernel) (by decide +kernel)
  exact ⟨husable, hwarnings, houtput, hvar, hword.mpr rfl⟩

/-! ### More variables than words -/

/-- A table with one command, which declares a variable. -/
def declaring : Command.Table := (∅ : Command.Table).add ⟨"D", 1, [.declaration]⟩

/-- A line for each of the names, which declares it. -/
def declarations (names : List String) : List Line :=
  names.zipIdx.map fun (name, index) => ⟨index + 1, "D " ++ name, ["D", name], none⟩

section Declarations
variable {names : List String}

theorem command?_declaring {line : Line} {name : String} (h : line.tokens = ["D", name]) :
    line.command? declaring = some (⟨"D", 1, [.declaration]⟩, [(.declaration, name)]) := by
  have hplain : ((Token.label? "D").isSome || Token.isDirective "D") = false := by decide
  have hfound : declaring.get? "D" = some ⟨"D", 1, [.declaration]⟩ := by decide +kernel
  simp [Line.command?, h, hplain, hfound]

theorem operandsOf_declarations (names : List String) :
    operandsOf declaring (declarations names) = names.map fun name => (.declaration, name) := by
  have hfst := List.zipIdx_map_fst 0 names
  rw [operandsOf, declarations, List.flatMap_map]
  simp only [fun entry : String × Nat => Line.operands_of_command?
    (@command?_declaring ⟨entry.2 + 1, "D " ++ entry.1, ["D", entry.1], none⟩ entry.1 rfl)]
  rw [← List.map_eq_flatMap]
  have hmap := congrArg (List.map fun name => ((.declaration, name) : Operand)) hfst
  rwa [List.map_map] at hmap

theorem wellFormed_declarations (hnodup : names.Nodup)
    (hnames : ∀ name ∈ names, Token.isName name = true) :
    WellFormed declaring (declarations names) := by
  have hline : ∀ line ∈ declarations names, ∃ name, line.tokens = ["D", name] := by
    intro line hmem
    obtain ⟨entry, -, rfl⟩ := List.mem_map.mp hmem
    exact ⟨entry.1, rfl⟩
  refine ⟨?_, ?_, ?_⟩
  · have hnone : (declarations names).filterMap Line.label? = [] := by
      rw [List.filterMap_eq_nil_iff]
      intro line hmem
      obtain ⟨name, htokens⟩ := hline line hmem
      exact (Statement.ofTokens_of_command? (command?_declaring htokens)).2
    rw [hnone]
    exact List.nodup_nil
  · intro line hmem
    obtain ⟨name, htokens⟩ := hline line hmem
    rw [Line.inOrder_iff, (Statement.ofTokens_of_command? (command?_declaring htokens)).1]
    simp
  · intro before operand after hsplit
    rw [operandsOf_declarations] at hsplit
    obtain ⟨front, rest, rfl, rfl, hrest⟩ := List.map_eq_append_iff.mp hsplit
    obtain ⟨name, later, rfl, rfl, -⟩ := List.map_eq_cons_iff.mp hrest
    refine ⟨hnames name (by simp), fun hdeclared => ?_⟩
    obtain ⟨other, hother, hsame⟩ := List.mem_map.mp hdeclared.2
    obtain rfl := (Prod.mk.inj hsame).2
    exact (List.nodup_append.mp hnodup).2.2 other hother other List.mem_cons_self rfl

theorem warnings_declarations (names : List String) :
    (assemble declaring (declarations names)).assembly.diagnostics.warnings = 0 := by
  refine warnings_eq_zero_iff.mpr ⟨?_, ?_⟩
  · intro diagnostic hmem
    obtain ⟨earlier, line, later, hlines, hreport⟩ := mem_diagnosticsOf.mp hmem
    obtain ⟨entry, -, rfl⟩ := List.mem_map.mp (hlines ▸ List.mem_append_cons_self)
    obtain ⟨front, operand, rest, hsplit, hreport⟩ :=
      (mem_lineDiagnostics earlier (command?_declaring rfl)).mp hreport
    obtain rfl : operand = (.declaration, entry.1) := by
      have hmem : operand ∈ [((.declaration, entry.1) : Operand)] := by simp [hsplit]
      exact List.mem_singleton.mp hmem
    generalize operandsOf declaring earlier ++ front = before at hreport
    cases hvalue : Operand.valueAfter? before (.declaration, entry.1) with
    | none =>
      obtain ⟨problem, hseverity, hreports⟩ := Operand.diagnosticsAfter_of_none hvalue
        ⟨entry.2 + 1, "D " ++ entry.1, ["D", entry.1], none⟩
      rw [hreports, List.mem_singleton] at hreport
      subst hreport
      rw [Diagnostic.severity, Problem.diagnostic, hseverity]
      simp
    | some value =>
      rw [Operand.diagnosticsAfter_of_some hvalue] at hreport
      cases Operand.denotes_of_value? (Operand.value?_of_valueAfter? hvalue) with
      | declaration _ => simp [Value.cut?] at hreport
  · intro diagnostic hmem
    obtain ⟨line, before, operand, name, hoccurs, hvalue, -⟩ := mem_slotDiagnostics.mp hmem
    obtain ⟨after, hoperands⟩ := exists_occursOn_iff.mp ⟨line, hoccurs⟩
    obtain rfl := Operand.eq_of_valueAfter?_eq_label hvalue
    have hlabel : ((.label, name) : Operand) ∈ operandsOf declaring (declarations names) := by
      rw [hoperands]
      exact List.mem_append_cons_self
    simp [operandsOf_declarations] at hlabel

theorem declared_declarations (hnodup : names.Nodup)
    (hnames : ∀ name ∈ names, Token.isName name = true) :
    Operand.declared (operandsOf declaring (declarations names)) = names := by
  have hdeclares : (names.map fun name => ((.declaration, name) : Operand)).filterMap
      Operand.declares? = names := by
    rw [List.filterMap_map]
    have hsome : ∀ name ∈ names, (Operand.declares? ∘ fun name => (.declaration, name)) name =
        some name := by
      intro name hmem
      simp [Operand.declares?, hnames name hmem]
    rw [List.filterMap_congr hsome]
    exact List.filterMap_some
  rw [operandsOf_declarations, Operand.declared, hdeclares, eraseDups_of_nodup hnodup]

/-- Each name is declared at its place and encoded as the word of that place. -/
theorem encoding_declarations (hnodup : names.Nodup)
    (hnames : ∀ name ∈ names, Token.isName name = true) {name : String} {index : Nat}
    (hindex : names[index]? = some name) :
    (name, index) ∈ (assemble declaring (declarations names)).assembly.vars.toList ∧
      (assemble declaring (declarations names)).assembly.encoding (.declaration, name) =
        wordBytes index := by
  have hdirect := isDirect_assemble declaring (declarations names)
  have hdeclared := declared_declarations hnodup hnames
  have hplace : names.idxOf? name = some index := by
    obtain ⟨hlt, hname⟩ := List.getElem?_eq_some_iff.mp hindex
    refine List.idxOf?_eq_some_iff.mpr ⟨hlt, hname, fun other hother hsame => ?_⟩
    have hindices := hnodup.getElem_inj_iff.mp (hsame.trans hname.symm)
    omega
  refine ⟨?_, ?_⟩
  · rw [hdirect.mem_vars_iff, hdeclared]
    exact hindex
  · have hname := hnames name (List.mem_of_getElem? hindex)
    rw [Assembly.encoding, Assembly.value?, hdirect.names, hdeclared, Operand.value?,
      Operand.index?, if_pos hname, hplace]
    rfl

theorem output_declarations (hnodup : names.Nodup)
    (hnames : ∀ name ∈ names, Token.isName name = true) :
    (assemble declaring (declarations names)).assembly.output.toList =
      names.zipIdx.flatMap fun entry => 1 :: wordBytes entry.2 := by
  have husable := (wellFormed_declarations hnodup hnames).isUsable
  have hcommands : (declarations names).filterMap (Line.command? declaring) =
      names.zipIdx.map fun entry =>
        (⟨"D", 1, [.declaration]⟩, [(.declaration, entry.1)]) := by
    rw [declarations, List.filterMap_map]
    have hsome : ∀ entry ∈ names.zipIdx, (Line.command? declaring ∘ fun (name, index) =>
        (⟨index + 1, "D " ++ name, ["D", name], none⟩ : Line)) entry =
          some (⟨"D", 1, [.declaration]⟩, [(.declaration, entry.1)]) :=
      fun _ _ => command?_declaring rfl
    rw [List.filterMap_congr hsome, List.filterMap_eq_map']
  rw [output_eq_encodings husable, hcommands, List.flatMap_map]
  refine List.flatMap_congr fun entry hentry => ?_
  have hencoding := encoding_declarations hnodup hnames (List.mem_zipIdx_iff_getElem?.mp hentry)
  have hone := List.flatMap_singleton (assemble declaring (declarations names)).assembly.encoding
    (.declaration, entry.1)
  exact congrArg (1 :: ·) (hone.trans hencoding.2)

end Declarations

/-- The names `v0`, `v1` and so on. -/
def numbered (count : Nat) : List String :=
  (List.range count).map fun index => "v" ++ toString index

theorem toList_numbered (index : Nat) :
    ("v" ++ toString index).toList = 'v' :: Nat.toDigits 10 index := by
  rw [String.toList_append]
  exact congrArg _ Nat.toList_repr

theorem nodup_numbered (count : Nat) : (numbered count).Nodup := by
  refine List.Nodup.map ?_ List.nodup_range
  intro index other hsame
  have hdigits : Nat.toDigits 10 index = Nat.toDigits 10 other := by
    have hchars := congrArg String.toList hsame
    rw [toList_numbered, toList_numbered] at hchars
    exact (List.cons.inj hchars).2
  have hread := congrArg (Nat.ofDigitChars 10 · 0) hdigits
  rwa [Nat.ofDigitChars_toDigits (by decide) (by decide),
    Nat.ofDigitChars_toDigits (by decide) (by decide)] at hread

theorem isName_numbered {count : Nat} {name : String} (h : name ∈ numbered count) :
    Token.isName name = true := by
  obtain ⟨index, -, rfl⟩ := List.mem_map.mp h
  rw [Token.isName, toList_numbered, Token.isNameChars, Bool.and_eq_true, List.all_eq_true]
  refine ⟨by decide, fun c hc => ?_⟩
  have hdigit := Nat.isDigit_of_mem_toDigits (by decide) (by decide) hc
  simp [Token.continuesName, Char.isAlphanum, hdigit]

/-- However many variables are declared, the assembly is usable and nothing warns, and each variable
stands in the output as the word of its index. -/
theorem declare_numbered {count index : Nat} (h : index < count) :
    let assembly := (assemble declaring (declarations (numbered count))).assembly
    assembly.isUsable = true ∧ assembly.diagnostics.warnings = 0 ∧
      ("v" ++ toString index, index) ∈ assembly.vars.toList ∧
      assembly.encoding (.declaration, "v" ++ toString index) = wordBytes index ∧
      (assembly.output.toList.drop (3 * index)).take 3 = 1 :: wordBytes index := by
  have hnodup := nodup_numbered count
  have hnames : ∀ name ∈ numbered count, Token.isName name = true := fun _ => isName_numbered
  have hplace : (numbered count)[index]? = some ("v" ++ toString index) := by
    rw [numbered, List.getElem?_map, List.getElem?_range h]
    rfl
  have hentry : (numbered count).zipIdx[index]? = some ("v" ++ toString index, index) := by
    rw [List.getElem?_zipIdx, hplace, Option.map_some, Nat.zero_add]
  obtain ⟨hvar, hencoding⟩ := encoding_declarations hnodup hnames hplace
  refine ⟨(wellFormed_declarations hnodup hnames).isUsable, warnings_declarations _, hvar,
    hencoding, ?_⟩
  have hsize : ∀ entry : String × Nat, (1 :: wordBytes entry.2).length = 3 := fun _ => rfl
  rw [output_declarations hnodup hnames]
  exact take_drop_flatMap hsize hentry

/-- The variable `v65536` is the 65537th, and its declaration leaves the same bytes as that of `v0`,
although the assembly is usable and nothing warns. -/
theorem encoding_v65536_eq_v0 :
    let assembly := (assemble declaring (declarations (numbered 65537))).assembly
    assembly.isUsable = true ∧ assembly.diagnostics.warnings = 0 ∧
      ("v0", 0) ∈ assembly.vars.toList ∧ ("v65536", 65536) ∈ assembly.vars.toList ∧
      assembly.encoding (.declaration, "v65536") = assembly.encoding (.declaration, "v0") ∧
      (assembly.output.toList.drop 196608).take 3 = [1, 0, 0] ∧
      assembly.output.toList.take 3 = [1, 0, 0] := by
  have hfirst : "v" ++ toString 0 = "v0" := by decide +kernel
  have hlast : "v" ++ toString 65536 = "v65536" := by decide +kernel
  have hwords : wordBytes 65536 = wordBytes 0 := wordBytes_eq_iff.mpr (by decide)
  have hone : 0 < 65537 := by omega
  have hother : 65536 < 65537 := by omega
  obtain ⟨husable, hwarnings, hvar, hencoding, hbytes⟩ := declare_numbered hone
  obtain ⟨-, -, hvar', hencoding', hbytes'⟩ := declare_numbered hother
  rw [hfirst] at hvar hencoding
  rw [hlast] at hvar' hencoding'
  rw [hwords] at hencoding' hbytes'
  exact ⟨husable, hwarnings, hvar, hvar', hencoding'.trans hencoding.symm, hbytes', hbytes⟩

end EventScript
