import EventScript.Assembly
import EventScript.Proofs.Direct
import EventScript.Proofs.Word

/-!
What the bytes of a value tell about its source. A number, a text and an address that fit their
bytes are known from them; a variable is known only by the low 16 bits of its index.
-/

namespace EventScript

open Operand (Value Denotes)

/-! ### Sources -/

/-- What an operand says in the source; a variable is known by its place in the variable table. -/
inductive Source where
  | immediate (value : UInt32)
  | text (content : String)
  | variable (index : Nat)
  | address (offset : Nat)
  deriving DecidableEq, Repr

/-- Two sources are the same up to the upper bits of variable indices. -/
def Source.Agrees : Source → Source → Prop
  | .variable index, .variable other => index % 0x10000 = other % 0x10000
  | source, other => source = other

namespace Operand.Value

variable (address? : String → Option Nat)

/-- What a value says where labels have these addresses. -/
def source : Value → Source
  | .immediate _ value => .immediate value
  | .text content => .text content
  | .numberVariable index | .stringVariable index | .variable index => .variable index
  | .label name => .address ((address? name).getD 0)

/-- The bytes of a value hold all of it, variable indices apart. -/
def Exact : Value → Prop
  | .immediate width value => value.toNat < 256 ^ min width 4
  | .text content => (utf8 content).length ≤ maxStringLength
  | .label name => (address? name).getD 0 ≤ Draft.maxAddress
  | .numberVariable _ | .stringVariable _ | .variable _ => True

end Operand.Value

/-! ### Bytes -/

theorem utf8_inj {content other : String} :
    Operand.utf8 content = Operand.utf8 other ↔ content = other := by
  constructor
  · intro h
    have hbytes : content.toList.utf8Encode = other.toList.utf8Encode := congrArg List.toByteArray h
    rw [← String.toByteArray_ofList, ← String.toByteArray_ofList, String.toByteArray_inj,
      String.ofList_toList, String.ofList_toList] at hbytes
    exact hbytes
  · rintro rfl
    rfl

namespace Operand

variable {address? : String → Option Nat}

/-- Numbers of one width that are not cut are told apart by their bytes. -/
theorem Value.bytes_immediate_eq_iff {width : Nat} {given other : UInt32}
    (h : (Value.immediate width given).Exact address?)
    (hother : (Value.immediate width other).Exact address?) :
    (Value.immediate width given).bytes address? = (Value.immediate width other).bytes address? ↔
      given = other := by
  rw [bytes, bytes, List.cons_eq_cons, littleEndian_inj h hother, UInt32.toNat_inj]
  simp

theorem Value.bytes_text_eq_iff {content other : String}
    (h : (Value.text content).Exact address?) (hother : (Value.text other).Exact address?) :
    (Value.text content).bytes address? = (Value.text other).bytes address? ↔ content = other := by
  constructor
  · intro hbytes
    rw [bytes, bytes, List.take_of_length_le h, List.take_of_length_le hother] at hbytes
    have hrest := (List.cons.inj hbytes).2
    exact utf8_inj.mp (List.append_inj_right hrest (by simp))
  · rintro rfl
    rfl

theorem Value.bytes_label_eq_iff {name other : String} (h : (Value.label name).Exact address?)
    (hother : (Value.label other).Exact address?) :
    (Value.label name).bytes address? = (Value.label other).bytes address? ↔
      (address? name).getD 0 = (address? other).getD 0 :=
  littleEndian_inj (Nat.lt_succ_of_le h) (Nat.lt_succ_of_le hother)

/-- Values of one parameter that are not cut have the same bytes exactly when their sources are the
same up to the upper bits of variable indices. -/
theorem Value.bytes_eq_iff {names : List String} {parameter : Parameter} {token token' : String}
    {value other : Value} (hdenotes : Denotes names parameter token value)
    (hdenotes' : Denotes names parameter token' other)
    (h : value.Exact address?) (hother : other.Exact address?) :
    value.bytes address? = other.bytes address? ↔
      (value.source address?).Agrees (other.source address?) := by
  cases hdenotes with
  | number _ =>
    cases hdenotes' with
    | number _ => simpa [source, Source.Agrees] using bytes_immediate_eq_iff h hother
    | numberVariable _ => simp [bytes, source, Source.Agrees, immediateTag, numberVariableTag]
  | numberVariable _ =>
    cases hdenotes' with
    | number _ => simp [bytes, source, Source.Agrees, immediateTag, numberVariableTag]
    | numberVariable _ => simp [bytes, source, Source.Agrees, wordBytes_eq_iff]
  | string _ =>
    cases hdenotes' with
    | string _ => simpa [source, Source.Agrees] using bytes_text_eq_iff h hother
    | stringVariable _ => simp [bytes, source, Source.Agrees, stringTag, stringVariableTag]
  | stringVariable _ =>
    cases hdenotes' with
    | string _ => simp [bytes, source, Source.Agrees, stringTag, stringVariableTag]
    | stringVariable _ => simp [bytes, source, Source.Agrees, wordBytes_eq_iff]
  | eitherNumber _ =>
    cases hdenotes' with
    | eitherNumber _ => simpa [source, Source.Agrees] using bytes_immediate_eq_iff h hother
    | eitherString _ => simp [bytes, source, Source.Agrees, immediateTag, stringTag]
    | eitherVariable _ => simp [bytes, source, Source.Agrees, immediateTag, numberVariableTag]
  | eitherString _ =>
    cases hdenotes' with
    | eitherNumber _ => simp [bytes, source, Source.Agrees, immediateTag, stringTag]
    | eitherString _ => simpa [source, Source.Agrees] using bytes_text_eq_iff h hother
    | eitherVariable _ => simp [bytes, source, Source.Agrees, stringTag, numberVariableTag]
  | eitherVariable _ =>
    cases hdenotes' with
    | eitherNumber _ => simp [bytes, source, Source.Agrees, immediateTag, numberVariableTag]
    | eitherString _ => simp [bytes, source, Source.Agrees, stringTag, numberVariableTag]
    | eitherVariable _ => simp [bytes, source, Source.Agrees, wordBytes_eq_iff]
  | label _ =>
    cases hdenotes' with
    | label _ => simpa [source, Source.Agrees] using bytes_label_eq_iff h hother
  | declaration _ =>
    cases hdenotes' with
    | declaration _ => simp [bytes, source, Source.Agrees, wordBytes_eq_iff]
  | «variable» _ =>
    cases hdenotes' with
    | «variable» _ => simp [bytes, source, Source.Agrees, wordBytes_eq_iff]

theorem getElem?_of_denotes {names : List String} {parameter : Parameter} {token : String}
    {value : Value} {index : Nat} (h : Denotes names parameter token value)
    (hsource : value.source address? = .variable index) : names[index]? = some token := by
  cases h with
  | number _ => cases hsource
  | string _ => cases hsource
  | eitherNumber _ => cases hsource
  | eitherString _ => cases hsource
  | label _ => cases hsource
  | numberVariable hindex | stringVariable hindex | eitherVariable hindex | declaration hindex
  | «variable» hindex =>
    obtain rfl := Source.variable.inj hsource
    exact getElem?_of_index? hindex

/-- The bytes of a variable end with the word of its index. -/
theorem Value.drop_bytes {value : Value} {index : Nat}
    (hsource : value.source address? = .variable index) :
    (value.bytes address?).drop (value.size - 2) = wordBytes index := by
  cases value with
  | immediate width given => cases hsource
  | text content => cases hsource
  | label name => cases hsource
  | numberVariable other =>
    obtain rfl := Source.variable.inj hsource
    rfl
  | stringVariable other =>
    obtain rfl := Source.variable.inj hsource
    rfl
  | «variable» other =>
    obtain rfl := Source.variable.inj hsource
    rfl

end Operand

end EventScript
