/-!
Parameters of a command: how each operand is encoded. A parameter is written as a short spec, one to
four number signs for a number of that many bytes or one of the letters `s`, `e`, `l`, `d` and `v`.
Reading a spec and writing it back gives the same spec.
-/

namespace EventScript

/-- How one operand is encoded. -/
inductive Parameter where
  | number (width : Nat)
  | string
  | either
  | label
  | declaration
  | variable
  deriving DecidableEq, Repr

namespace Parameter

/-- The widest number that a spec can ask for, in bytes. -/
def maxWidth : Nat := 4

/-- The parameter that the characters of a spec stand for. -/
def ofSpecChars? : List Char → Option Parameter
  | ['s'] => some .string
  | ['e'] => some .either
  | ['l'] => some .label
  | ['d'] => some .declaration
  | ['v'] => some .variable
  | chars =>
    if chars ≠ [] ∧ chars.length ≤ maxWidth ∧ chars.all (· == '#') then
      some (.number chars.length)
    else none

/-- The parameter that a spec stands for. -/
def ofSpec? (spec : String) : Option Parameter := ofSpecChars? spec.toList

/-- The characters of a parameter's spec. -/
def specChars : Parameter → List Char
  | .number width => List.replicate width '#'
  | .string => ['s']
  | .either => ['e']
  | .label => ['l']
  | .declaration => ['d']
  | .variable => ['v']

/-- The spec of a parameter. -/
def spec (parameter : Parameter) : String := String.ofList parameter.specChars

/-- A spec that is read is written back as it was. -/
theorem specChars_of_ofSpecChars? {chars : List Char} {parameter : Parameter}
    (h : ofSpecChars? chars = some parameter) : parameter.specChars = chars := by
  unfold ofSpecChars? at h
  split at h
  case h_6 =>
    split at h
    · next hc =>
      obtain ⟨_, _, hall⟩ := hc
      obtain rfl := Option.some.inj h
      rw [specChars, eq_comm, List.eq_replicate_iff]
      exact ⟨rfl, by simpa using hall⟩
    · exact absurd h (by simp)
  all_goals obtain rfl := Option.some.inj h; rfl

/-- A number that a spec asks for has at least one byte and at most four. -/
theorem width_of_ofSpec? {spec : String} {width : Nat} (h : ofSpec? spec = some (.number width)) :
    1 ≤ width ∧ width ≤ maxWidth := by
  unfold ofSpec? ofSpecChars? at h
  split at h
  case h_6 =>
    split at h
    · next hc =>
      obtain ⟨hne, hle, _⟩ := hc
      obtain rfl := Parameter.number.inj (Option.some.inj h)
      exact ⟨List.length_pos_iff.mpr hne, hle⟩
    · exact absurd h (by simp)
  all_goals exact absurd h (by simp)

end Parameter

end EventScript
