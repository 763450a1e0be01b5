import Mathlib.Data.List.Induction
import EventScript.Draft
import EventScript.Proofs.Direct
import EventScript.Proofs.Slots
import EventScript.Proofs.TokenClass
import EventScript.Proofs.Word

/-!
What an operand adds to a unit, against what it stands for. An operand that has a value contributes
just the piece of that value; one that has none is an error and contributes nothing. The variable
table in which an operand is looked up is the one that the operands before it have made.
-/

namespace EventScript

/-! ### Variables of the operands so far -/

namespace Variables

/-- The table after one more operand. -/
def after (vars : Variables) (operand : Operand) : Variables :=
  match Operand.declares? operand with
  | none => vars
  | some name =>
    match vars.declare name with
    | .ok declared => declared
    | .error _ => vars

/-- The table that operands make. -/
def ofOperands (operands : List Operand) : Variables := operands.foldl after ∅

theorem ofOperands_concat (operands : List Operand) (operand : Operand) :
    ofOperands (operands ++ [operand]) = (ofOperands operands).after operand := by
  rw [ofOperands, List.foldl_append]
  rfl

/-- In a list of names numbered from `k`, a look-up gives the place of the name. -/
theorem lookup_zipIdx (names : List String) (name : String) (k : Nat) :
    (names.zipIdx k).lookup name = (names.idxOf? name).map (· + k) := by
  induction names generalizing k with
  | nil => rfl
  | cons first rest ih =>
    rw [List.zipIdx_cons, List.lookup_cons, List.idxOf?_cons, ih]
    by_cases hname : name = first
    · subst hname
      simp
    · have hbeq : (name == first) = false := by simpa using hname
      have hbeq' : (first == name) = false := by simpa using Ne.symm hname
      cases rest.idxOf? name with
      | none => simp [hbeq, hbeq']
      | some index => simp [hbeq, hbeq']; omega

theorem get?_of_toList {vars : Variables} {names : List String} (h : vars.toList = names.zipIdx)
    (name : String) : vars.indices.get? name = names.idxOf? name := by
  have hlookup := lookup_zipIdx names name 0
  rw [Registry.get?_eq_lookup, ← Variables.toList, h, hlookup]
  simp

theorem size_of_toList {vars : Variables} {names : List String} (h : vars.toList = names.zipIdx) :
    vars.size = names.length := by
  rw [← length_toList, h, List.length_zipIdx]

theorem declare_of_mem {vars : Variables} {names : List String} (h : vars.toList = names.zipIdx)
    {name : String} (hold : name ∈ names) :
    ∃ kept, names.idxOf? name = some kept ∧
      vars.declare name = .error (.duplicateVariable name kept) := by
  obtain ⟨kept, hkept⟩ := Option.isSome_iff_exists.mp (List.isSome_idxOf?.mpr hold)
  exact ⟨kept, hkept, declare_of_get?_eq_some ((get?_of_toList h name).trans hkept)⟩

theorem declare_of_not_mem {vars : Variables} {names : List String}
    (h : vars.toList = names.zipIdx) {name : String} (hnew : name ∉ names) :
    ∃ declared, vars.declare name = .ok declared ∧
      declared.toList = (names ++ [name]).zipIdx := by
  have hnone : vars.indices.get? name = none :=
    (get?_of_toList h name).trans (List.idxOf?_eq_none_iff.mpr hnew)
  obtain ⟨declared, hdeclared⟩ := exists_declare_of_get?_eq_none hnone
  refine ⟨declared, hdeclared, ?_⟩
  rw [toList_of_declare hdeclared, h, size_of_toList h, List.zipIdx_append, Nat.zero_add]
  rfl

/-- The variables are the declared names, numbered from zero. -/
theorem toList_ofOperands (operands : List Operand) :
    (ofOperands operands).toList = (Operand.declared operands).zipIdx := by
  induction operands using List.reverseRecOn with
  | nil => rfl
  | append_singleton operands operand ih =>
    rw [ofOperands_concat, after]
    cases hdeclares : Operand.declares? operand with
    | none =>
      rw [Operand.declared_concat_of_old (by simp [hdeclares])]
      exact ih
    | some name =>
      by_cases hold : name ∈ Operand.declared operands
      · obtain ⟨kept, -, herror⟩ := declare_of_mem ih hold
        rw [Operand.declared_concat_of_old (by simpa [hdeclares] using hold)]
        simp only [herror]
        exact ih
      · obtain ⟨declared, hdeclared, htoList⟩ := declare_of_not_mem ih hold
        rw [Operand.declared_concat_of_new hdeclares hold]
        simp only [hdeclared]
        exact htoList

theorem size_ofOperands (operands : List Operand) :
    (ofOperands operands).size = (Operand.declared operands).length :=
  size_of_toList (toList_ofOperands operands)

theorem get?_ofOperands (operands : List Operand) (name : String) :
    (ofOperands operands).indices.get? name = (Operand.declared operands).idxOf? name :=
  get?_of_toList (toList_ofOperands operands) name

end Variables

namespace Operand

open Variables (ofOperands)

/-! ### Values as contributions -/

/-- The piece that a value leaves in the output on behalf of a line. -/
def Value.piece (line : Line) : Value → Piece
  | .label name => .slot name line.number line.text
  | value => .fixed (value.bytes fun _ => none)

/-- The cut that a value needs, if any. -/
def Value.cut? : Value → Option Truncation
  | .immediate width value => (ofValue width value).truncation
  | .text content => (ofContent content).truncation
  | _ => none

theorem Value.filled_piece (address? : String → Option Nat) (line : Line) (value : Value) :
    (value.piece line).filled address? = value.bytes address? := by
  cases value <;> rfl

theorem Value.length_raw_piece (line : Line) (value : Value) :
    (value.piece line).raw.length = value.size := by
  rw [← Piece.length_filled fun _ => none, filled_piece, length_bytes]

namespace Contribution

/-- The piece that a contribution leaves in the output on behalf of a line. -/
def piece (line : Line) : Contribution → Piece
  | .value encoding => .fixed encoding.bytes
  | .declaration _ index _ => .fixed (wordBytes index)
  | .slot label => .slot label line.number line.text

/-- The cut that a contribution needs, if any. -/
def cut? : Contribution → Option Truncation
  | .value encoding => encoding.truncation
  | _ => none

/-- The variable table with a contribution. -/
def varsAfter (vars : Variables) : Contribution → Variables
  | .declaration _ _ declared => declared
  | _ => vars

/-- A contribution is that of a value. -/
structure Carries (before : List Operand) (operand : Operand) (value : Value)
    (contribution : Contribution) : Prop where
  piece : ∀ line, contribution.piece line = value.piece line
  cut : contribution.cut? = value.cut?
  vars : contribution.varsAfter (ofOperands before) = (ofOperands before).after operand

end Contribution

theorem bytes_ofValue (width : Nat) (value : UInt32) :
    (ofValue width value).bytes = immediateTag :: littleEndian (min width 4) value.toNat := by
  have hmask := toNat_and_widthMask width value
  rw [ofValue, hmask, littleEndian_mod]

/-! ### What the encoders find -/

/-- An encoding is that of a value, or both are missing. -/
inductive Agrees : Except OperandError Encoding → Option Value → Prop where
  | value {encoding : Encoding} {value : Value}
      (piece : ∀ line, value.piece line = .fixed encoding.bytes)
      (cut : value.cut? = encoding.truncation) : Agrees (.ok encoding) (some value)
  | refusal (error : OperandError) : Agrees (.error error) none

section Encoders
variable (before : List Operand) (token : String)

/-- A declared variable is encoded as its index under the tag, any other token is refused. -/
theorem agrees_ofVariable (tag : UInt8) (otherwise : OperandError) {make : Nat → Value}
    (hpiece : ∀ index line, (make index).piece line = .fixed (tag :: wordBytes index))
    (hcut : ∀ index, (make index).cut? = none) :
    Agrees (ofVariable (ofOperands before) tag token otherwise)
      ((index? (declared before) token).map make) := by
  rw [ofVariable, index?]
  by_cases hname : Token.isName token = true
  · rw [if_pos hname, if_pos hname, Variables.index?, Variables.get?_ofOperands]
    cases (declared before).idxOf? token with
    | none => exact .refusal _
    | some index => exact .value (hpiece index) (hcut index)
  · rw [if_neg hname, if_neg hname]
    exact .refusal _

theorem agrees_encodeNumber (width : Nat) :
    Agrees (encodeNumber (ofOperands before) width token)
      (value? (declared before) (.number width, token)) := by
  rw [encodeNumber, value?]
  cases Token.integer? token with
  | none => exact agrees_ofVariable before token _ _ (fun _ _ => rfl) fun _ => rfl
  | some value =>
    refine .value (fun line => ?_) rfl
    rw [bytes_ofValue]
    rfl

theorem agrees_encodeString :
    Agrees (encodeString (ofOperands before) token)
      (value? (declared before) (.string, token)) := by
  rw [encodeString, value?]
  cases Token.string? token with
  | none => exact agrees_ofVariable before token _ _ (fun _ _ => rfl) fun _ => rfl
  | some content => exact .value (fun _ => rfl) rfl

/-- The two attempts of `encodeEither` never compete: a string literal is no variable. -/
theorem agrees_encodeEither :
    Agrees (encodeEither (ofOperands before) token)
      (value? (declared before) (.either, token)) := by
  have hnumber := agrees_encodeNumber before token eitherWidth
  have hstring := agrees_encodeString before token
  rw [encodeEither]
  rw [value?] at hnumber
  rw [value?] at hstring
  rw [value?]
  cases hinteger : Token.integer? token with
  | some value =>
    rw [hinteger] at hnumber
    generalize encodeNumber (ofOperands before) eitherWidth token = number at hnumber
    cases hnumber with
    | value hpiece hcut => exact .value hpiece hcut
  | none =>
    rw [hinteger] at hnumber
    cases hindex : index? (declared before) token with
    | some index =>
      have hname : Token.isName token = true := by
        unfold index? at hindex
        split at hindex
        · assumption
        · exact absurd hindex (by simp)
      rw [hindex] at hnumber
      rw [Token.string?_of_isName hname]
      generalize encodeNumber (ofOperands before) eitherWidth token = number at hnumber
      cases hnumber with
      | value hpiece hcut => exact .value hpiece hcut
    | none =>
      rw [hindex] at hnumber hstring
      generalize encodeNumber (ofOperands before) eitherWidth token = number at hnumber
      generalize encodeString (ofOperands before) token = string at hstring
      cases hnumber with
      | refusal error =>
        cases hliteral : Token.string? token with
        | some content =>
          rw [hliteral] at hstring
          cases hstring with
          | value hpiece hcut => exact .value hpiece hcut
        | none =>
          rw [hliteral] at hstring
          cases hstring with
          | refusal error => exact .refusal _

end Encoders

/-! ### Contributions -/

/-- What an operand adds is what its value asks for, and an operand without a value adds nothing. -/
inductive Fits (before : List Operand) (operand : Operand) :
    Except Problem Contribution → Option Value → Prop where
  | value {contribution : Contribution} {value : Value}
      (carries : contribution.Carries before operand value) :
      Fits before operand (.ok contribution) (some value)
  | problem {problem : Problem} (severity : problem.kind.severity = .error)
      (vars : (ofOperands before).after operand = ofOperands before) :
      Fits before operand (.error problem) none

section Contribution
variable {before : List Operand} {parameter : Parameter} {token : String}

theorem declares?_of_ne (h : parameter ≠ .declaration) : declares? (parameter, token) = none := by
  cases parameter with
  | declaration => exact absurd rfl h
  | _ => rfl

theorem after_of_ne (h : parameter ≠ .declaration) :
    (ofOperands before).after (parameter, token) = ofOperands before := by
  rw [Variables.after, declares?_of_ne h]

/-- Only a declaration changes the names in which it is looked up. -/
theorem valueAfter?_of_ne (h : parameter ≠ .declaration) :
    valueAfter? before (parameter, token) = value? (declared before) (parameter, token) := by
  have hdeclared : declared (before ++ [(parameter, token)]) = declared before :=
    declared_concat_of_old (by simp [declares?_of_ne h])
  rw [valueAfter?, if_neg (fun hboth => h hboth.1), hdeclared]

theorem value?_of_string? {names : List String} {content : String}
    (hparameter : parameter = .string ∨ parameter = .either)
    (h : Token.string? token = some content) :
    value? names (parameter, token) = some (.text content) := by
  rcases hparameter with rfl | rfl
  · rw [value?, h]
    rfl
  · rw [value?, Token.integer?_of_string? h, h]
    rfl

theorem valueAfter?_of_string? {content : String}
    (hparameter : parameter = .string ∨ parameter = .either)
    (h : Token.string? token = some content) :
    valueAfter? before (parameter, token) = some (.text content) := by
  have hne : parameter ≠ .declaration := by
    rcases hparameter with rfl | rfl <;> simp
  rw [valueAfter?_of_ne hne, value?_of_string? hparameter h]

/-- A declaration of a new name stands for the next index. -/
theorem valueAfter?_declaration :
    valueAfter? before (.declaration, token) =
      if Token.isName token = true ∧ token ∉ declared before then
        some (.variable (declared before).length)
      else none := by
  rw [valueAfter?]
  by_cases hname : Token.isName token = true
  · have hdeclares : declares? (.declaration, token) = some token := by simp [declares?, hname]
    by_cases hold : token ∈ declared before
    · rw [if_pos ⟨rfl, (mem_declared.mp hold).2⟩, if_neg (fun hboth => hboth.2 hold)]
    · have hnew : ((.declaration, token) : Operand) ∉ before :=
        fun hmem => hold (mem_declared.mpr ⟨hname, hmem⟩)
      have hidx : (declared before).idxOf? token = none := List.idxOf?_eq_none_iff.mpr hold
      rw [if_neg (fun hboth => hnew hboth.2), if_pos ⟨hname, hold⟩,
        declared_concat_of_new hdeclares hold, value?, index?, if_pos hname, List.idxOf?,
        List.findIdx?_append, ← List.idxOf?, hidx]
      simp
  · rw [if_neg (fun hboth : Token.isName token = true ∧ _ => hname hboth.1)]
    split
    · rfl
    · simp [value?, index?, hname]

/-- The contribution of an encoding fits the value that the encoding agrees with. -/
theorem fits_ofEncoding {encoding : Except OperandError Encoding} {value : Option Value}
    (hne : parameter ≠ .declaration) (h : Agrees encoding value) :
    Fits before (parameter, token) (ofEncoding encoding) value := by
  cases h with
  | value hpiece hcut =>
    exact .value ⟨fun line => (hpiece line).symm, hcut.symm, (after_of_ne hne).symm⟩
  | refusal error => exact .problem rfl (after_of_ne hne)

/-- An operand contributes exactly what its value asks for. -/
theorem fits_contribution (before : List Operand) (operand : Operand) :
    Fits before operand (contribution (ofOperands before) operand.1 operand.2)
      (valueAfter? before operand) := by
  obtain ⟨parameter, token⟩ := operand
  cases parameter with
  | number width =>
    rw [valueAfter?_of_ne (by simp), contribution]
    exact fits_ofEncoding (by simp) (agrees_encodeNumber before token width)
  | string =>
    rw [valueAfter?_of_ne (by simp), contribution]
    exact fits_ofEncoding (by simp) (agrees_encodeString before token)
  | either =>
    rw [valueAfter?_of_ne (by simp), contribution]
    exact fits_ofEncoding (by simp) (agrees_encodeEither before token)
  | label =>
    rw [valueAfter?_of_ne (by simp), contribution, named, value?]
    by_cases hname : Token.isName token = true
    · rw [if_pos hname, if_pos hname]
      exact .value ⟨fun _ => rfl, rfl, (after_of_ne (by simp)).symm⟩
    · rw [if_neg hname, if_neg hname]
      exact .problem rfl (after_of_ne (by simp))
  | declaration =>
    rw [valueAfter?_declaration, contribution, named]
    by_cases hname : Token.isName token = true
    · have hdeclares : declares? (.declaration, token) = some token := by simp [declares?, hname]
      rw [if_pos hname, declaration]
      have htoList := Variables.toList_ofOperands before
      by_cases hold : token ∈ declared before
      · obtain ⟨kept, -, herror⟩ := Variables.declare_of_mem htoList hold
        rw [if_neg (fun hboth => hboth.2 hold), herror]
        refine .problem rfl ?_
        rw [Variables.after, hdeclares]
        simp only [herror]
      · obtain ⟨table, htable, -⟩ := Variables.declare_of_not_mem htoList hold
        rw [if_pos ⟨hname, hold⟩, htable, ← Variables.size_ofOperands]
        refine .value ⟨fun _ => rfl, rfl, ?_⟩
        rw [Variables.after, hdeclares]
        simp only [htable]
        rfl
    · rw [if_neg hname, if_neg (fun hboth => hname hboth.1)]
      refine .problem rfl ?_
      rw [Variables.after, declares?, if_neg hname]
  | «variable» =>
    rw [valueAfter?_of_ne (by simp), contribution, named, value?, index?]
    by_cases hname : Token.isName token = true
    · rw [if_pos hname, if_pos hname, indexOf, Variables.index?, Variables.get?_ofOperands]
      cases (declared before).idxOf? token with
      | none => exact .problem rfl (after_of_ne (by simp))
      | some index => exact .value ⟨fun _ => rfl, rfl, (after_of_ne (by simp)).symm⟩
    · rw [if_neg hname, if_neg hname]
      exact .problem rfl (after_of_ne (by simp))

end Contribution

end Operand

end EventScript
