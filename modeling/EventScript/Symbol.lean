import EventScript.Registry

/-!
Symbol tables. Labels have code offsets and variables have indices; the two tables share nothing, so
one name may stand in both. The first definition of a label and the first declaration of a variable
stay; later ones are refused with what was kept. Variables are numbered from zero in the order of
their declarations.
-/

namespace EventScript

/-- Why a symbol table refuses. -/
inductive SymbolError where
  | duplicateLabel (name : String) (offset : Nat)
  | duplicateVariable (name : String) (index : Nat)
  | unknownVariable (name : String)
  deriving DecidableEq, Repr

/-- The wording of a refusal. -/
def SymbolError.message : SymbolError → String
  | .duplicateLabel name _ => s!"Redefinition of label '{name}'."
  | .duplicateVariable name _ => s!"Redefinition of variable '{name}'."
  | .unknownVariable name => s!"Unknown variable '{name}'."

/-! ### Labels -/

/-- Label names with their code offsets, in order of definition. -/
structure Labels where
  offsets : Registry Nat

namespace Labels

/-- No labels. -/
def empty : Labels := ⟨∅⟩

instance : EmptyCollection Labels := ⟨empty⟩

/-- The offset at which a label is defined. -/
def offset? (labels : Labels) (name : String) : Option Nat := labels.offsets.get? name

/-- Define a label at an offset, unless it has one. -/
def define (labels : Labels) (name : String) (offset : Nat) : Except SymbolError Labels :=
  match labels.offset? name with
  | some kept => .error (.duplicateLabel name kept)
  | none => .ok ⟨labels.offsets.add name offset⟩

/-- The number of labels. -/
def size (labels : Labels) : Nat := labels.offsets.size

/-- There is no label. -/
def isEmpty (labels : Labels) : Bool := labels.offsets.isEmpty

/-- Names and offsets in order of definition. -/
def toList (labels : Labels) : List (String × Nat) := labels.offsets.toList

theorem ext_toList {labels others : Labels} (h : labels.toList = others.toList) :
    labels = others :=
  congrArg Labels.mk (Registry.ext_toList h)

theorem offset?_eq_lookup (labels : Labels) (name : String) :
    labels.offset? name = labels.toList.lookup name :=
  labels.offsets.get?_eq_lookup name

/-- A definition is refused exactly when the label has an offset, and the refusal names it. -/
theorem define_eq_error_iff {labels : Labels} {name : String} {offset : Nat} {e : SymbolError} :
    labels.define name offset = .error e ↔
      ∃ kept, labels.offset? name = some kept ∧ e = .duplicateLabel name kept := by
  unfold define
  cases h : labels.offset? name with
  | none => simp
  | some kept => simp [eq_comm]

theorem offset?_of_define {labels defined : Labels} {name : String} {offset : Nat}
    (h : labels.define name offset = .ok defined) : labels.offset? name = none := by
  unfold define at h
  split at h
  · exact absurd h (by simp)
  · assumption

/-- A definition that is accepted stands at the end. -/
theorem toList_of_define {labels defined : Labels} {name : String} {offset : Nat}
    (h : labels.define name offset = .ok defined) :
    defined.toList = labels.toList ++ [(name, offset)] := by
  unfold define at h
  split at h
  · exact absurd h (by simp)
  · next hnone =>
    obtain rfl := Except.ok.inj h
    exact Registry.toList_add_of_get?_eq_none hnone offset

end Labels

/-! ### Variables -/

/-- Variable names with their indices, in order of declaration. -/
structure Variables where
  indices : Registry Nat

namespace Variables

/-- No variables. -/
def empty : Variables := ⟨∅⟩

instance : EmptyCollection Variables := ⟨empty⟩

/-- The number of variables. -/
def size (vars : Variables) : Nat := vars.indices.size

/-- There is no variable. -/
def isEmpty (vars : Variables) : Bool := vars.indices.isEmpty

/-- The index of a declared variable. -/
def index? (vars : Variables) (name : String) : Except SymbolError Nat :=
  match vars.indices.get? name with
  | some index => .ok index
  | none => .error (.unknownVariable name)

/-- The table with a variable declared next; its index is the size before. -/
def declare (vars : Variables) (name : String) : Except SymbolError Variables :=
  match vars.indices.get? name with
  | some kept => .error (.duplicateVariable name kept)
  | none => .ok ⟨vars.indices.add name vars.size⟩

/-- Names and indices in order of declaration. -/
def toList (vars : Variables) : List (String × Nat) := vars.indices.toList

theorem ext_toList {vars others : Variables} (h : vars.toList = others.toList) : vars = others :=
  congrArg Variables.mk (Registry.ext_toList h)

@[simp] theorem length_toList (vars : Variables) : vars.toList.length = vars.size :=
  vars.indices.length_toList

theorem index?_eq_ok_iff {vars : Variables} {name : String} {index : Nat} :
    vars.index? name = .ok index ↔ vars.toList.lookup name = some index := by
  unfold index?
  rw [toList, ← Registry.get?_eq_lookup]
  cases vars.indices.get? name <;> simp

theorem declare_of_get?_eq_some {vars : Variables} {name : String} {kept : Nat}
    (h : vars.indices.get? name = some kept) :
    vars.declare name = .error (.duplicateVariable name kept) := by
  rw [declare, h]

theorem exists_declare_of_get?_eq_none {vars : Variables} {name : String}
    (h : vars.indices.get? name = none) : ∃ declared, vars.declare name = .ok declared :=
  ⟨_, by rw [declare, h]⟩

/-- A declaration that is accepted stands at the end, numbered by the size before. -/
theorem toList_of_declare {vars declared : Variables} {name : String}
    (h : vars.declare name = .ok declared) :
    declared.toList = vars.toList ++ [(name, vars.size)] := by
  unfold declare at h
  split at h
  · exact absurd h (by simp)
  · next hnone =>
    obtain rfl := Except.ok.inj h
    exact Registry.toList_add_of_get?_eq_none hnone vars.size

end Variables

end EventScript
