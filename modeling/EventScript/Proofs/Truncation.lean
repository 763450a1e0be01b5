import EventScript.Proofs.Readdressing
import EventScript.Proofs.Reports
import EventScript.Proofs.TokenClass

/-!
What is cut, and what is said about it. An integer literal that its parameter is too narrow for, a
string literal that its length word cannot count and an address that its slot cannot hold are each
one warning, at the place of the operand; nothing else is. The operand is emitted nevertheless, with
as much of its value as there is room for.

        operand        too large from    what stands in the output
        ───────        ──────────────    ─────────────────────────
        number         256 ^ width       tag, the value modulo 256 ^ width
        string         65536 bytes       tag, length 65535, the first 65535 bytes
        label          65536             the address modulo 65536
-/

namespace EventScript

open Operand (Value valueAfter? diagnosticsAfter)

/-! ### Narrowings -/

/-- What becomes of an operand whose value is too large: the warning, and the bytes that the operand
has all the same. -/
structure Narrowing where
  problem : Problem
  bytes : List UInt8
  deriving DecidableEq, Repr

namespace Narrowing

/-- The warning about an operand on a numbered line with a text. -/
def diagnostic (narrowing : Narrowing) (line : Nat) (source : String) : Diagnostic :=
  narrowing.problem.diagnostic line source

/-- An integer where `width` bytes are given to it, if these cannot hold it. -/
def ofNumber? (width : Nat) (value : UInt32) : Option Narrowing :=
  if 256 ^ width ≤ value.toNat then
    let stored := value.toNat % 256 ^ width
    some ⟨.truncated (.value value (UInt32.ofNat stored) (UInt32.ofNat (256 ^ width - 1))),
      Operand.immediateTag :: littleEndian width stored⟩
  else none

/-- A text, if it has more bytes than a length word can count. -/
def ofText? (content : String) : Option Narrowing :=
  let payload := Operand.utf8 content
  if 65535 < payload.length then
    some ⟨.truncated (.string payload.length),
      Operand.stringTag :: (wordBytes 65535 ++ payload.take 65535)⟩
  else none

/-- The address of a label, if a word cannot hold it. -/
def ofAddress? (label : String) (address : Nat) : Option Narrowing :=
  if 0xFFFF < address then some ⟨.wideAddress address label, wordBytes (address % 0x10000)⟩
  else none

/-- An operand that is a literal, if it is too large for its parameter. -/
def ofLiteral? : Operand → Option Narrowing
  | (.number width, token) => (Token.integer? token).bind (ofNumber? width)
  | (.string, token) => (Token.string? token).bind ofText?
  | (.either, token) =>
    ((Token.integer? token).bind (ofNumber? 1)).or ((Token.string? token).bind ofText?)
  | _ => none

/-- An operand that is a label, if its address is too large where labels have these addresses. -/
def ofLabel? (address? : String → Option Nat) : Operand → Option Narrowing
  | (.label, token) => (address? token).bind (ofAddress? token)
  | _ => none

end Narrowing

/-- The warnings of a program about operands that are too large, in the order of its lines and of
the operands on each of them. -/
def narrowingsOf (commands : Command.Table) (lines : List Line)
    (narrowing? : Operand → Option Narrowing) : List Diagnostic :=
  lines.flatMap fun line => (line.operands commands).flatMap fun operand =>
    (narrowing? operand).toList.map (·.diagnostic line.number line.text)

/-! ### Literals -/

theorem lt_four_of_pow_le {width : Nat} {value : UInt32} (h : 256 ^ width ≤ value.toNat) :
    width < 4 := by
  by_contra hwide
  have hpow : 256 ^ 4 ≤ 256 ^ width := Nat.pow_le_pow_right (by decide) (Nat.not_lt.mp hwide)
  have hlt := value.toNat_lt
  omega

theorem widthMask_of_lt {width : Nat} (h : width < 4) :
    widthMask width = UInt32.ofNat (256 ^ width - 1) := by
  match width with
  | 0 | 1 | 2 | 3 => rfl

namespace Operand

/-- A number is cut if it needs more bytes than it is given. -/
theorem Value.cut?_immediate (width : Nat) (value : UInt32) :
    (Value.immediate width value).cut?.map Problem.truncated =
      (Narrowing.ofNumber? width value).map (·.problem) := by
  have hstored := toNat_and_widthMask width value
  rw [cut?, ofValue, Narrowing.ofNumber?]
  by_cases hlarge : 256 ^ width ≤ value.toNat
  · have hlt := lt_four_of_pow_le hlarge
    rw [Nat.min_eq_left (Nat.le_of_lt hlt)] at hstored
    have hmod : value.toNat % 256 ^ width < 256 ^ width := Nat.mod_lt _ (Nat.pow_pos (by decide))
    have hword : UInt32.ofNat (value.toNat % 256 ^ width) = value &&& widthMask width := by
      rw [← hstored, UInt32.ofNat_toNat]
    have hcut : value &&& widthMask width ≠ value := by
      intro heq
      rw [heq] at hstored
      omega
    simp only [if_pos hlarge, if_neg hcut, hword, ← widthMask_of_lt hlt, Option.map_some]
  · have hfits : value.toNat < 256 ^ min width 4 := by
      rcases Nat.le_total width 4 with hle | hle
      · rw [Nat.min_eq_left hle]
        omega
      · rw [Nat.min_eq_right hle]
        exact value.toNat_lt
    have hsame : value &&& widthMask width = value := by
      apply UInt32.toNat_inj.mp
      rw [hstored, Nat.mod_eq_of_lt hfits]
    simp only [if_neg hlarge, if_pos hsame, Option.map_none]

/-- One byte holds 255 and not 256; four bytes hold every number. -/
example : Narrowing.ofNumber? 1 255 = none ∧
    Narrowing.ofNumber? 1 256 = some ⟨.truncated (.value 256 0 255), [0, 0]⟩ ∧
    Narrowing.ofNumber? 4 0xFFFFFFFF = none := by decide

theorem Value.cut?_text (content : String) :
    (Value.text content).cut?.map Problem.truncated =
      (Narrowing.ofText? content).map (·.problem) := by
  unfold Value.cut? ofContent Narrowing.ofText?
  by_cases h : (utf8 content).length ≤ 65535
  · simp [maxStringLength, h]
  · simp [maxStringLength, h, Nat.lt_of_not_le h]

theorem Value.bytes_immediate {width : Nat} {value : UInt32} {narrowing : Narrowing}
    (h : Narrowing.ofNumber? width value = some narrowing) (address? : String → Option Nat) :
    (Value.immediate width value).bytes address? = narrowing.bytes := by
  unfold Narrowing.ofNumber? at h
  split at h
  · next hlarge =>
    obtain rfl := Option.some.inj h
    rw [bytes, Nat.min_eq_left (Nat.le_of_lt (lt_four_of_pow_le hlarge)), littleEndian_mod]
  · cases h

theorem Value.bytes_text {content : String} {narrowing : Narrowing}
    (h : Narrowing.ofText? content = some narrowing) (address? : String → Option Nat) :
    (Value.text content).bytes address? = narrowing.bytes := by
  simp only [Narrowing.ofText?] at h
  split at h
  · next hlong =>
    obtain rfl := Option.some.inj h
    rw [bytes, maxStringLength, Nat.min_eq_right (Nat.le_of_lt hlong)]
  · cases h

/-! ### One operand -/

/-- A literal that is too large has a value wherever it stands: its cut is the warning, and its
bytes are what is left. -/
theorem exists_value_of_ofLiteral? {operand : Operand} {narrowing : Narrowing}
    (h : Narrowing.ofLiteral? operand = some narrowing) (before : List Operand) :
    ∃ value, valueAfter? before operand = some value ∧
      value.cut?.map Problem.truncated = some narrowing.problem ∧
      ∀ address?, value.bytes address? = narrowing.bytes := by
  have hnumber : ∀ {width : Nat} {value : UInt32},
      Narrowing.ofNumber? width value = some narrowing →
      (Value.immediate width value).cut?.map Problem.truncated = some narrowing.problem := by
    intro width value hnarrowing
    rw [Value.cut?_immediate, hnarrowing, Option.map_some]
  have htext : ∀ {content : String}, Narrowing.ofText? content = some narrowing →
      (Value.text content).cut?.map Problem.truncated = some narrowing.problem := by
    intro content hnarrowing
    rw [Value.cut?_text, hnarrowing, Option.map_some]
  obtain ⟨parameter, token⟩ := operand
  cases parameter with
  | number width =>
    obtain ⟨value, hvalue, hnarrowing⟩ := Option.bind_eq_some_iff.mp h
    refine ⟨.immediate width value, ?_, hnumber hnarrowing, Value.bytes_immediate hnarrowing⟩
    rw [valueAfter?_of_ne (by simp), value?, hvalue]
    rfl
  | string =>
    obtain ⟨content, hcontent, hnarrowing⟩ := Option.bind_eq_some_iff.mp h
    exact ⟨.text content, valueAfter?_of_string? (.inl rfl) hcontent, htext hnarrowing,
      Value.bytes_text hnarrowing⟩
  | either =>
    rcases Option.or_eq_some_iff.mp h with hinteger | ⟨-, hstring⟩
    · obtain ⟨value, hvalue, hnarrowing⟩ := Option.bind_eq_some_iff.mp hinteger
      refine ⟨.immediate 1 value, ?_, hnumber hnarrowing, Value.bytes_immediate hnarrowing⟩
      rw [valueAfter?_of_ne (by simp), value?, hvalue]
      rfl
    · obtain ⟨content, hcontent, hnarrowing⟩ := Option.bind_eq_some_iff.mp hstring
      exact ⟨.text content, valueAfter?_of_string? (.inr rfl) hcontent, htext hnarrowing,
        Value.bytes_text hnarrowing⟩
  | label => cases h
  | declaration => cases h
  | «variable» => cases h

/-- Whatever else an operand stands for is not cut. -/
theorem cut?_eq_none_of_ofLiteral? {operand : Operand} {names : List String} {value : Value}
    (h : Narrowing.ofLiteral? operand = none) (hvalue : value? names operand = some value) :
    value.cut? = none := by
  have hnumber : ∀ {width : Nat} {value : UInt32}, Narrowing.ofNumber? width value = none →
      (Value.immediate width value).cut? = none := by
    intro width value hnone
    rw [← Option.map_eq_none_iff, Value.cut?_immediate, hnone, Option.map_none]
  have htext : ∀ {content : String}, Narrowing.ofText? content = none →
      (Value.text content).cut? = none := by
    intro content hnone
    rw [← Option.map_eq_none_iff, Value.cut?_text, hnone, Option.map_none]
  obtain ⟨parameter, token⟩ := operand
  cases denotes_of_value? hvalue with
  | number hinteger =>
    exact hnumber (by simpa only [Narrowing.ofLiteral?, hinteger, Option.bind_some] using h)
  | string hcontent =>
    exact htext (by simpa only [Narrowing.ofLiteral?, hcontent, Option.bind_some] using h)
  | eitherNumber hinteger =>
    rw [Narrowing.ofLiteral?, Option.or_eq_none_iff, hinteger, Option.bind_some] at h
    exact hnumber h.1
  | eitherString hcontent =>
    rw [Narrowing.ofLiteral?, Option.or_eq_none_iff, hcontent, Option.bind_some] at h
    exact htext h.2
  | numberVariable _ | stringVariable _ | eitherVariable _ | label _ | declaration _
  | «variable» _ => rfl

/-- Among what an operand reports in the first pass, the warning is that of a literal that is too
large. -/
theorem truncations_diagnosticsAfter (line : Line) (before : List Operand) (operand : Operand) :
    (diagnosticsAfter line before operand).filter (·.kind = .truncation) =
      (Narrowing.ofLiteral? operand).toList.map (·.diagnostic line.number line.text) := by
  cases hnarrowing : Narrowing.ofLiteral? operand with
  | some narrowing =>
    obtain ⟨value, hvalue, hcut, -⟩ := exists_value_of_ofLiteral? hnarrowing before
    obtain ⟨cut, hvalueCut, hproblem⟩ := Option.map_eq_some_iff.mp hcut
    rw [diagnosticsAfter_of_some hvalue, hvalueCut, Option.toList_some, List.map_singleton,
      hproblem]
    exact List.filter_eq_self.mpr (by simp [← hproblem, Problem.diagnostic, Problem.kind])
  | none =>
    cases hvalue : valueAfter? before operand with
    | some value =>
      have hcut := cut?_eq_none_of_ofLiteral? hnarrowing (value?_of_valueAfter? hvalue)
      rw [diagnosticsAfter_of_some hvalue, hcut]
      rfl
    | none =>
      obtain ⟨problem, hseverity, hreports⟩ := diagnosticsAfter_of_none hvalue line
      have hkind : problem.kind ≠ .truncation := by
        intro heq
        rw [heq] at hseverity
        cases hseverity
      rw [hreports, List.filter_eq_nil_iff.mpr (by simpa [Problem.diagnostic] using hkind)]
      rfl

end Operand

/-! ### The first pass -/

variable {commands : Command.Table} {lines : List Line}

theorem truncations_lineDiagnostics (commands : Command.Table) (earlier : List Line) (line : Line) :
    (lineDiagnostics commands earlier line).filter (·.kind = .truncation) =
      (line.operands commands).flatMap fun operand =>
        (Narrowing.ofLiteral? operand).toList.map (·.diagnostic line.number line.text) := by
  cases hcommand : line.command? commands with
  | some found =>
    obtain ⟨command, operands⟩ := found
    rw [lineDiagnostics, (Statement.ofTokens_of_command? hcommand).1,
      Line.operands_of_command? hcommand]
    simp only [List.filter_flatten, map_mapBefore]
    exact flatten_mapBefore
      (fun front operand => Operand.truncations_diagnosticsAfter line front operand) _ _
  | none =>
    rw [Line.operands_of_none hcommand, List.flatMap_nil, List.filter_eq_nil_iff]
    intro diagnostic hmem htruncation
    rw [decide_eq_true_eq] at htruncation
    rcases kind_of_mem_lineDiagnostics hcommand hmem with hkind | hkind | hkind
    · cases hkind.symm.trans htruncation
    · cases hkind.symm.trans htruncation
    · cases hkind.symm.trans htruncation

/-- The warnings of the first pass are those about literals. -/
theorem truncations_diagnosticsOf (commands : Command.Table) (lines : List Line) :
    (diagnosticsOf commands lines).filter (·.kind = .truncation) =
      narrowingsOf commands lines Narrowing.ofLiteral? := by
  rw [diagnosticsOf, List.filter_flatten, map_mapBefore]
  exact flatten_mapBefore
    (fun earlier line => truncations_lineDiagnostics commands earlier line) [] lines

/-! ### The second pass -/

/-- What an operand reports in the second pass, where labels have these addresses. -/
def Operand.addressDiagnostics (address? : String → Option Nat) (line : Line) :
    Operand → List Diagnostic
  | (.label, token) =>
    if Token.isName token then Piece.diagnostics address? (.slot token line.number line.text)
    else []
  | _ => []

/-- Only an operand that is a label leaves a piece that reports anything. -/
theorem Operand.diagnostics_piece (address? : String → Option Nat) (line : Line)
    (before : List Operand) (operand : Operand) :
    (valueAfter? before operand).toList.flatMap
        (fun value => (value.piece line).diagnostics address?) =
      operand.addressDiagnostics address? line := by
  obtain ⟨parameter, token⟩ := operand
  by_cases hlabel : parameter = .label
  · subst hlabel
    rw [valueAfter?_of_ne (by simp), value?, addressDiagnostics]
    split
    · exact List.flatMap_singleton ..
    · rfl
  · have hnone : addressDiagnostics address? line (parameter, token) = [] := by
      cases parameter with
      | label => exact absurd rfl hlabel
      | _ => rfl
    rw [hnone]
    cases hvalue : valueAfter? before (parameter, token) with
    | none => rfl
    | some value =>
      rw [Option.toList_some, List.flatMap_singleton]
      cases denotes_of_value? (value?_of_valueAfter? hvalue) with
      | label _ => exact absurd rfl hlabel
      | _ => rfl

theorem Operand.flatMap_values {γ : Type} {give : Value → List γ} {giveOf : Operand → List γ}
    (h : ∀ before operand, (valueAfter? before operand).toList.flatMap give = giveOf operand)
    (before operands : List Operand) :
    (values before operands).flatMap give = operands.flatMap giveOf := by
  induction operands generalizing before with
  | nil => rfl
  | cons operand rest ih => rw [values_cons, List.flatMap_append, h, ih, List.flatMap_cons]

/-- What the pieces of a line report is what its operands report. -/
theorem diagnostics_linePieces (address? : String → Option Nat) (earlier : List Line)
    (line : Line) :
    (linePieces commands earlier line).flatMap (Piece.diagnostics address?) =
      (line.operands commands).flatMap (Operand.addressDiagnostics address? line) := by
  rw [linePieces, Direct.instruction?]
  cases hcommand : line.command? commands with
  | none =>
    rw [Line.operands_of_none hcommand]
    rfl
  | some found =>
    obtain ⟨command, operands⟩ := found
    have hopcode : Piece.diagnostics address? (.fixed [command.opcode]) = [] := rfl
    rw [Line.operands_of_command? hcommand]
    simp only [Option.map_some, List.flatMap_cons, hopcode, List.nil_append, List.flatMap_map]
    exact Operand.flatMap_values (Operand.diagnostics_piece address? line) _ operands

theorem slotDiagnostics_eq_flatMap (commands : Command.Table) (lines : List Line) :
    slotDiagnostics commands lines = lines.flatMap fun line =>
      (line.operands commands).flatMap
        (Operand.addressDiagnostics (Direct.address? commands lines) line) := by
  rw [slotDiagnostics, piecesOf, List.flatten_eq_flatMap, List.flatMap_assoc, List.flatMap_def,
    map_mapBefore]
  exact flatten_mapBefore (fun earlier line => diagnostics_linePieces _ earlier line) [] lines

theorem Piece.truncations_diagnostics (address? : String → Option Nat) (label : String)
    (line : Nat) (source : String) :
    (Piece.diagnostics address? (.slot label line source)).filter (·.kind = .truncation) =
      (Narrowing.ofLabel? address? (.label, label)).toList.map (·.diagnostic line source) := by
  rw [Narrowing.ofLabel?, Piece.diagnostics]
  cases address? label with
  | none => rfl
  | some address =>
    rw [Option.bind_some, Narrowing.ofAddress?]
    by_cases hlarge : 0xFFFF < address
    · simp [Draft.maxAddress, hlarge, Narrowing.diagnostic, Problem.diagnostic, Problem.kind]
    · simp [Draft.maxAddress, hlarge]

/-- Among what an operand reports in the second pass, the warning is that of its label. -/
theorem Operand.truncations_addressDiagnostics {address? : String → Option Nat}
    (hnames : ∀ name address, address? name = some address → Token.isName name = true)
    (line : Line) (operand : Operand) :
    (operand.addressDiagnostics address? line).filter (·.kind = .truncation) =
      (Narrowing.ofLabel? address? operand).toList.map (·.diagnostic line.number line.text) := by
  obtain ⟨parameter, token⟩ := operand
  cases parameter with
  | label =>
    rw [addressDiagnostics]
    by_cases hname : Token.isName token = true
    · rw [if_pos hname, Piece.truncations_diagnostics]
    · have hnone : address? token = none := by
        rw [Option.eq_none_iff_forall_ne_some]
        intro address haddress
        exact hname (hnames token address haddress)
      rw [if_neg hname, Narrowing.ofLabel?, hnone]
      rfl
  | _ => rfl

/-- A label whose address is too large has a value wherever it stands, and its bytes are what is
left of the address. -/
theorem Operand.exists_value_of_ofLabel? {operand : Operand} {narrowing : Narrowing}
    (h : Narrowing.ofLabel? (Direct.address? commands lines) operand = some narrowing)
    (before : List Operand) :
    ∃ value, valueAfter? before operand = some value ∧
      value.bytes (Direct.address? commands lines) = narrowing.bytes := by
  obtain ⟨parameter, token⟩ := operand
  cases parameter with
  | label =>
    obtain ⟨address, haddress, hnarrowing⟩ := Option.bind_eq_some_iff.mp h
    refine ⟨.label token, ?_, ?_⟩
    · rw [valueAfter?_of_ne (by simp), value?, if_pos (Direct.isName_of_address? haddress)]
    · unfold Narrowing.ofAddress? at hnarrowing
      split at hnarrowing
      · obtain rfl := Option.some.inj hnarrowing
        rw [Value.bytes, haddress, Option.getD_some]
        exact (littleEndian_mod 2 address).symm
      · cases hnarrowing
  | number | string | either | declaration | «variable» => cases h

/-- The warnings of the second pass are those about addresses. -/
theorem truncations_slotDiagnostics (commands : Command.Table) (lines : List Line) :
    (slotDiagnostics commands lines).filter (·.kind = .truncation) =
      narrowingsOf commands lines (Narrowing.ofLabel? (Direct.address? commands lines)) := by
  simp only [slotDiagnostics_eq_flatMap, List.filter_flatMap, narrowingsOf,
    Operand.truncations_addressDiagnostics fun _ _ => Direct.isName_of_address?]

theorem Piece.flatMap_diagnostics (address? : String → Option Nat) (offset : Nat)
    (pieces : List Piece) :
    pieces.flatMap (Piece.diagnostics address?) =
      (references offset pieces).flatMap fun reference =>
        Piece.diagnostics address? (.slot reference.label reference.line reference.source) := by
  induction pieces generalizing offset with
  | nil => rfl
  | cons piece rest ih =>
    cases piece with
    | fixed bytes => exact ih _
    | slot label line source =>
      rw [references, List.flatMap_cons, List.flatMap_cons]
      exact congrArg _ (ih _)

/-! ### Bytes -/

theorem Operand.values_append (before operands more : List Operand) :
    values before (operands ++ more) =
      values before operands ++ values (before ++ operands) more := by
  rw [values, mapBefore_append, List.filterMap_append, values, values]

/-- An operand that has a value stands in the output after all lines before its own, the opcode and
the operands in front of it. -/
theorem exists_output_split {earlier later : List Line} {line : Line} {command : Command}
    {front rest : List Operand} {operand : Operand} {value : Value}
    (hcommand : line.command? commands = some (command, front ++ operand :: rest))
    (hvalue : valueAfter? (operandsOf commands earlier ++ front) operand = some value) :
    ∃ before after,
      (assemble commands (earlier ++ line :: later)).assembly.output.toList =
        before ++
          (value.bytes (Direct.address? commands (earlier ++ line :: later)) ++ after) ∧
      before.length = Direct.size commands earlier +
        Direct.Instruction.size
          ⟨command.opcode, Operand.values (operandsOf commands earlier) front⟩ := by
  rw [(isDirect_assemble commands _).output, Direct.bytes_eq_flatten]
  generalize Direct.address? commands (earlier ++ line :: later) = address?
  let head : Direct.Instruction :=
    ⟨command.opcode, Operand.values (operandsOf commands earlier) front⟩
  let tail := Operand.values (operandsOf commands earlier ++ front ++ [operand]) rest
  have hline : Direct.lineBytes commands address? earlier line =
      head.bytes address? ++ (value.bytes address? ++ tail.flatMap (Value.bytes address?)) := by
    rw [Direct.lineBytes, Direct.instruction?, hcommand, Option.map_some, Option.map_some,
      Option.getD_some]
    dsimp only
    rw [Operand.values_append, Operand.values_cons, hvalue]
    simp [Direct.Instruction.bytes, head, tail]
  refine ⟨(mapBefore (Direct.lineBytes commands address?) [] earlier).flatten ++
      head.bytes address?,
    tail.flatMap (Value.bytes address?) ++
      (mapBefore (Direct.lineBytes commands address?) (earlier ++ [line]) later).flatten, ?_, ?_⟩
  · rw [mapBefore_append, List.flatten_append, List.nil_append, mapBefore, List.flatten_cons, hline]
    simp only [List.append_assoc]
  · rw [List.length_append, Direct.length_flatten_lineBytes, Direct.Instruction.length_bytes]

/-! ### The whole program -/

/-- The truncation warnings are exact. In the first pass they are those about integer and string
literals that are too large for their operands, in the order of the operands; the second pass adds
those about labels whose address is more than a word, in the order of the references, which is that
of the operands as well. Each of these operands is emitted in full, at its place, with what is left
of its value. -/
theorem truncation_warnings_exact (commands : Command.Table) (lines : List Line) :
    let draft := firstPass commands lines
    let assembly := (assemble commands lines).assembly
    let ofLabel? := Narrowing.ofLabel? assembly.labels.offset?
    draft.diagnostics.toList.filter (·.kind = .truncation) =
      narrowingsOf commands lines Narrowing.ofLiteral? ∧
    assembly.diagnostics.toList.filter (·.kind = .truncation) =
      narrowingsOf commands lines Narrowing.ofLiteral? ++ narrowingsOf commands lines ofLabel? ∧
    narrowingsOf commands lines ofLabel? =
      (draft.references.toList.flatMap fun reference =>
        (ofLabel? (.label, reference.label)).toList.map
          (·.diagnostic reference.line reference.source)) ∧
    ∀ earlier line later command front operand rest narrowing,
      lines = earlier ++ line :: later →
      line.command? commands = some (command, front ++ operand :: rest) →
      Narrowing.ofLiteral? operand = some narrowing ∨ ofLabel? operand = some narrowing →
      ∃ before after, assembly.output.toList = before ++ (narrowing.bytes ++ after) ∧
        before.length = Direct.size commands earlier +
          Direct.Instruction.size
            ⟨command.opcode, Operand.values (operandsOf commands earlier) front⟩ := by
  have hdirect := isDirect_assemble commands lines
  intro draft assembly ofLabel?
  have hlabel : ofLabel? = Narrowing.ofLabel? (Direct.address? commands lines) :=
    congrArg Narrowing.ofLabel? hdirect.offset?
  refine ⟨?_, ?_, ?_, ?_⟩
  · rw [toList_diagnostics_firstPass, truncations_diagnosticsOf]
  · rw [hdirect.toList_diagnostics, List.filter_append, truncations_diagnosticsOf,
      truncations_slotDiagnostics, hlabel]
  · rw [hlabel, ← truncations_slotDiagnostics, slotDiagnostics, Piece.flatMap_diagnostics _ 0,
      (holds_firstPass commands lines).references, List.filter_flatMap]
    simp only [Piece.truncations_diagnostics]
  · intro earlier line later command front operand rest narrowing hlines hcommand hnarrowing
    subst hlines
    rcases hnarrowing with hliteral | haddress
    · obtain ⟨value, hvalue, -, hbytes⟩ := Operand.exists_value_of_ofLiteral? hliteral _
      rw [← hbytes]
      exact exists_output_split hcommand hvalue
    · rw [hlabel] at haddress
      obtain ⟨value, hvalue, hbytes⟩ := Operand.exists_value_of_ofLabel? haddress
        (operandsOf commands earlier ++ front)
      rw [← hbytes]
      exact exists_output_split hcommand hvalue

/-- A number that one byte does not hold: the one warning, and the two bytes after the opcode and
the text. -/
theorem truncation_warnings_exact_say :
    let lines : List Line := [⟨1, "say \"hi\" 300", ["say", "\"hi\"", "300"], none⟩]
    let assembly := (assemble greetingCommands lines).assembly
    assembly.diagnostics.toList.filter (·.kind = .truncation) =
        [(Problem.truncated (.value 300 44 255)).diagnostic 1 "say \"hi\" 300"] ∧
      ∃ before after, assembly.output.toList = before ++ ([0, 44] ++ after) ∧
        before.length = 6 := by
  intro lines assembly
  obtain ⟨-, hwarnings, -, hbytes⟩ := truncation_warnings_exact greetingCommands lines
  refine ⟨hwarnings.trans (by decide +kernel), ?_⟩
  exact hbytes [] ⟨1, "say \"hi\" 300", ["say", "\"hi\"", "300"], none⟩ []
    ⟨"SAY", 2, [.string, .number 1]⟩ [(.string, "\"hi\"")] (.number 1, "300") []
    ⟨.truncated (.value 300 44 255), [0, 44]⟩ rfl (by decide +kernel) (.inl (by decide +kernel))

end EventScript
