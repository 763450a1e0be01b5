import EventScript.Command.Table
import EventScript.Operand.Encoding
import EventScript.Proofs.Sequence

/-!
What operands stand for. A literal stands for itself and a name for its place among the names that
are declared; an operand sees the names that the operands before it declare, and a declaration sees
its own as well. Names declared later change nothing, so what an operand stands for at its place it
stands for in the whole program.
-/

namespace EventScript

/-- An operand with the parameter that it is for. -/
abbrev Operand := Parameter × String

namespace Operand

/-- What an operand stands for; a variable is known by its index. -/
inductive Value where
  | immediate (width : Nat) (value : UInt32)
  | text (content : String)
  | numberVariable (index : Nat)
  | stringVariable (index : Nat)
  | variable (index : Nat)
  | label (name : String)
  deriving DecidableEq, Repr

/-- The index of a variable among the names that are declared. -/
def index? (names : List String) (token : String) : Option Nat :=
  if Token.isName token then names.idxOf? token else none

/-- What an operand stands for where `names` are declared, if it fits its parameter. -/
def value? (names : List String) : Operand → Option Value
  | (.number width, token) =>
    ((Token.integer? token).map (.immediate width)).or
      ((index? names token).map .numberVariable)
  | (.string, token) =>
    ((Token.string? token).map .text).or ((index? names token).map .stringVariable)
  | (.either, token) =>
    (((Token.integer? token).map (.immediate eitherWidth)).or
      ((Token.string? token).map .text)).or ((index? names token).map .numberVariable)
  | (.label, token) => if Token.isName token then some (.label token) else none
  | (.declaration, token) | (.variable, token) => (index? names token).map .variable

theorem getElem?_of_index? {names : List String} {token : String} {index : Nat}
    (h : index? names token = some index) : names[index]? = some token := by
  unfold index? at h
  split at h
  · obtain ⟨hlt, hname, -⟩ := List.idxOf?_eq_some_iff.mp h
    rw [List.getElem?_eq_getElem hlt, hname]
  · cases h

/-- A token under a parameter denotes a value where `names` are declared. -/
inductive Denotes (names : List String) : Parameter → String → Value → Prop where
  | number {width : Nat} {token : String} {value : UInt32} (h : Token.integer? token = some value) :
      Denotes names (.number width) token (.immediate width value)
  | numberVariable {width : Nat} {token : String} {index : Nat}
      (h : index? names token = some index) :
      Denotes names (.number width) token (.numberVariable index)
  | string {token content : String} (h : Token.string? token = some content) :
      Denotes names .string token (.text content)
  | stringVariable {token : String} {index : Nat} (h : index? names token = some index) :
      Denotes names .string token (.stringVariable index)
  | eitherNumber {token : String} {value : UInt32} (h : Token.integer? token = some value) :
      Denotes names .either token (.immediate eitherWidth value)
  | eitherString {token content : String} (h : Token.string? token = some content) :
      Denotes names .either token (.text content)
  | eitherVariable {token : String} {index : Nat} (h : index? names token = some index) :
      Denotes names .either token (.numberVariable index)
  | label {token : String} (h : Token.isName token = true) :
      Denotes names .label token (.label token)
  | declaration {token : String} {index : Nat} (h : index? names token = some index) :
      Denotes names .declaration token (.variable index)
  | variable {token : String} {index : Nat} (h : index? names token = some index) :
      Denotes names .variable token (.variable index)

/-- What an operand stands for its token denotes. -/
theorem denotes_of_value? {names : List String} {operand : Operand} {value : Value}
    (h : value? names operand = some value) : Denotes names operand.1 operand.2 value := by
  obtain ⟨parameter, token⟩ := operand
  cases parameter with
  | number width =>
    rw [value?, Option.or_eq_some_iff] at h
    simp only [Option.map_eq_some_iff] at h
    rcases h with ⟨given, hgiven, rfl⟩ | ⟨-, index, hindex, rfl⟩
    · exact .number hgiven
    · exact .numberVariable hindex
  | string =>
    rw [value?, Option.or_eq_some_iff] at h
    simp only [Option.map_eq_some_iff] at h
    rcases h with ⟨content, hcontent, rfl⟩ | ⟨-, index, hindex, rfl⟩
    · exact .string hcontent
    · exact .stringVariable hindex
  | either =>
    rw [value?, Option.or_eq_some_iff, Option.or_eq_some_iff] at h
    simp only [Option.map_eq_some_iff] at h
    rcases h with (⟨given, hgiven, rfl⟩ | ⟨-, content, hcontent, rfl⟩) | ⟨-, index, hindex, rfl⟩
    · exact .eitherNumber hgiven
    · exact .eitherString hcontent
    · exact .eitherVariable hindex
  | label =>
    rw [value?] at h
    split at h
    · next hname =>
      obtain rfl := Option.some.inj h
      exact .label hname
    · cases h
  | declaration =>
    obtain ⟨index, hindex, rfl⟩ := Option.map_eq_some_iff.mp h
    exact .declaration hindex
  | «variable» =>
    obtain ⟨index, hindex, rfl⟩ := Option.map_eq_some_iff.mp h
    exact .variable hindex

/-- The name that an operand declares. -/
def declares? : Operand → Option String
  | (.declaration, token) => if Token.isName token then some token else none
  | _ => none

/-- The names that operands declare, each once, in the order of their first declarations. -/
def declared (operands : List Operand) : List String :=
  (operands.filterMap declares?).eraseDups

/-- What an operand stands for after others: its names are looked up among those declared up to and
with it, and a declaration that stands before it already is no declaration any more. -/
def valueAfter? (before : List Operand) (operand : Operand) : Option Value :=
  if operand.1 = .declaration ∧ operand ∈ before then none
  else value? (declared (before ++ [operand])) operand

/-- The values of operands that stand after others; an operand that has none leaves nothing. -/
def values (before operands : List Operand) : List Value :=
  (mapBefore valueAfter? before operands).filterMap id

@[simp] theorem declared_nil : declared [] = [] := rfl

@[simp] theorem values_nil (before : List Operand) : values before [] = [] := rfl

theorem values_cons (before : List Operand) (operand : Operand) (rest : List Operand) :
    values before (operand :: rest) =
      (valueAfter? before operand).toList ++ values (before ++ [operand]) rest := by
  rw [values, mapBefore, List.filterMap_cons, values]
  cases valueAfter? before operand <;> rfl

/-- Names are declared by declarations of symbolic names and by nothing else. -/
theorem mem_declared {operands : List Operand} {name : String} :
    name ∈ declared operands ↔ Token.isName name = true ∧ (.declaration, name) ∈ operands := by
  rw [declared, List.mem_eraseDups, List.mem_filterMap]
  constructor
  · rintro ⟨⟨parameter, token⟩, hmem, hdeclares⟩
    unfold declares? at hdeclares
    split at hdeclares
    · next heq =>
      obtain ⟨rfl, rfl⟩ := Prod.mk.inj heq
      split at hdeclares
      · next hname =>
        obtain rfl := Option.some.inj hdeclares
        exact ⟨hname, hmem⟩
      · exact absurd hdeclares (by simp)
    · exact absurd hdeclares (by simp)
  · rintro ⟨hname, hmem⟩
    exact ⟨_, hmem, by simp [declares?, hname]⟩

theorem declared_concat_of_old {before : List Operand} {operand : Operand}
    (h : ∀ name, declares? operand = some name → name ∈ declared before) :
    declared (before ++ [operand]) = declared before := by
  rw [declared, List.filterMap_append, declared]
  cases hdeclares : declares? operand with
  | none => simp [hdeclares]
  | some name =>
    have hsingle : [operand].filterMap declares? = [name] := by simp [hdeclares]
    have hold : name ∈ before.filterMap declares? := List.mem_eraseDups.mp (h name hdeclares)
    rw [hsingle, eraseDups_concat, if_pos hold]

theorem declared_concat_of_new {before : List Operand} {operand : Operand} {name : String}
    (hdeclares : declares? operand = some name) (hnew : name ∉ declared before) :
    declared (before ++ [operand]) = declared before ++ [name] := by
  have hsingle : [operand].filterMap declares? = [name] := by simp [hdeclares]
  have hnew' : name ∉ before.filterMap declares? := fun h => hnew (List.mem_eraseDups.mpr h)
  rw [declared, List.filterMap_append, hsingle, eraseDups_concat, if_neg hnew', declared]

theorem exists_declared_append (before after : List Operand) :
    ∃ more, declared (before ++ after) = declared before ++ more := by
  refine ⟨((after.filterMap declares?).removeAll (before.filterMap declares?)).eraseDups, ?_⟩
  rw [declared, List.filterMap_append, List.eraseDups_append, declared]

theorem index?_append {names : List String} {token : String} {index : Nat}
    (h : index? names token = some index) (more : List String) :
    index? (names ++ more) token = some index := by
  unfold index? at h ⊢
  split at h
  · next hname =>
    rw [if_pos hname, List.idxOf?, List.findIdx?_append, ← List.idxOf?, h]
    rfl
  · exact absurd h (by simp)

/-- What an operand stands for after others is what it stands for among the names up to it. -/
theorem value?_of_valueAfter? {before : List Operand} {operand : Operand} {value : Value}
    (h : valueAfter? before operand = some value) :
    value? (declared (before ++ [operand])) operand = some value := by
  unfold valueAfter? at h
  split at h
  · cases h
  · exact h

/-- An operand keeps its value when more names are declared. -/
theorem value?_append {names : List String} {operand : Operand} {value : Value}
    (h : value? names operand = some value) (more : List String) :
    value? (names ++ more) operand = some value := by
  obtain ⟨parameter, token⟩ := operand
  have hmap : ∀ make : Nat → Value, (index? names token).map make = some value →
      (index? (names ++ more) token).map make = some value := by
    intro make hmake
    obtain ⟨index, hindex, rfl⟩ := Option.map_eq_some_iff.mp hmake
    rw [index?_append hindex, Option.map_some]
  cases parameter with
  | label => exact h
  | declaration => exact hmap _ h
  | «variable» => exact hmap _ h
  | _ =>
    rw [value?, Option.or_eq_some_iff] at h ⊢
    rcases h with hliteral | ⟨hnone, hindex⟩
    · exact .inl hliteral
    · exact .inr ⟨hnone, hmap _ hindex⟩

/-! ### Operands that all have values -/

/-- All operands have values where they stand. -/
def Valued (before operands : List Operand) : Prop :=
  ∀ value ∈ mapBefore valueAfter? before operands, value ≠ none

theorem valued_cons {before rest : List Operand} {operand : Operand} :
    Valued before (operand :: rest) ↔
      valueAfter? before operand ≠ none ∧ Valued (before ++ [operand]) rest :=
  List.forall_mem_cons

theorem valued_append {before operands more : List Operand} :
    Valued before (operands ++ more) ↔
      Valued before operands ∧ Valued (before ++ operands) more := by
  rw [Valued, mapBefore_append, List.forall_mem_append, Valued, Valued]

theorem valued_iff {before operands : List Operand} :
    Valued before operands ↔ ∀ front operand rest, operands = front ++ operand :: rest →
      ∃ value, valueAfter? (before ++ front) operand = some value := by
  simp only [Valued, mem_mapBefore, ← Option.ne_none_iff_exists']
  constructor
  · intro h front operand rest hsplit
    exact h _ ⟨front, operand, rest, hsplit, rfl⟩
  · rintro h _ ⟨front, operand, rest, hsplit, rfl⟩
    exact h front operand rest hsplit

/-- When all operands have values, these are what the operands stand for among all names. -/
theorem map_value? {before operands : List Operand} {names more : List String}
    (hvalued : Valued before operands) (hnames : names = declared (before ++ operands) ++ more) :
    operands.map (value? names) = (values before operands).map some := by
  induction operands generalizing before with
  | nil => rfl
  | cons operand operands ih =>
    obtain ⟨hhead, htail⟩ := valued_cons.mp hvalued
    obtain ⟨value, hvalue⟩ := Option.ne_none_iff_exists'.mp hhead
    rw [List.append_cons] at hnames
    obtain ⟨later, hlater⟩ := exists_declared_append (before ++ [operand]) operands
    have hfinal : value? names operand = some value := by
      rw [hnames, hlater, List.append_assoc]
      exact value?_append (value?_of_valueAfter? hvalue) _
    rw [values_cons, hvalue, List.map_cons, hfinal, ih htail hnames]
    rfl

end Operand

end EventScript
