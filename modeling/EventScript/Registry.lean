import Std.Data.ExtTreeMap.Lemmas

/-!
Registries: named entries in the order in which they were added. The first entry of a name stays;
adding the name again changes nothing. A search tree beside the list answers look-ups, and two
registries with the same entries in the same order are equal.

The view is `toList`; `get?_eq_lookup` says that looking up a name reads the view.
-/

namespace EventScript

/-- Entries by name, in order of addition. -/
structure Registry (α : Type) where
  newestFirst : List (String × α)
  index : Std.ExtTreeMap String α
  nodup : (newestFirst.map (·.1)).Nodup
  index_eq : ∀ name : String, index[name]? = newestFirst.lookup name
  size_eq : index.size = newestFirst.length

namespace Registry

variable {α : Type}

/-- No entries. -/
def empty : Registry α := ⟨[], ∅, by simp, by simp, by simp⟩

instance : EmptyCollection (Registry α) := ⟨empty⟩

instance : Inhabited (Registry α) := ⟨empty⟩

/-- The entry of a name. -/
def get? (r : Registry α) (name : String) : Option α := r.index[name]?

/-- The number of entries. -/
def size (r : Registry α) : Nat := r.index.size

/-- There is no entry. -/
def isEmpty (r : Registry α) : Bool := r.size == 0

/-- All entries, oldest first. -/
def toList (r : Registry α) : List (String × α) := r.newestFirst.reverse

/-- All names, oldest first. -/
def names (r : Registry α) : List String := r.toList.map (·.1)

theorem not_mem_of_lookup {entries : List (String × α)} {name : String}
    (h : entries.lookup name = none) : name ∉ entries.map (·.1) := by
  induction entries with
  | nil => simp
  | cons entry rest ih =>
    obtain ⟨key, value⟩ := entry
    rw [List.lookup_cons] at h
    split at h
    · exact absurd h (by simp)
    · next hne =>
      have hkey : name ≠ key := by simpa using hne
      simpa [hkey] using ih h

/-- The registry with one more entry at the end, unless the name has one. -/
def add (r : Registry α) (name : String) (value : α) : Registry α :=
  if h : r.index.contains name then r
  else
    { newestFirst := (name, value) :: r.newestFirst
      index := r.index.insert name value
      nodup := by
        have hnone : r.newestFirst.lookup name = none := by
          rw [← r.index_eq]; simpa using h
        simpa using ⟨by simpa using not_mem_of_lookup hnone, r.nodup⟩
      index_eq := fun other => by
        rw [Std.ExtTreeMap.getElem?_insert, List.lookup_cons, r.index_eq]
        by_cases hname : other = name
        · subst hname; simp
        · have hbeq : (other == name) = false := by simpa using hname
          simp [hbeq, Ne.symm hname]
      size_eq := by
        rw [Std.ExtTreeMap.size_insert, if_neg (by simpa using h), r.size_eq, List.length_cons] }

/-! ### The view -/

theorem ext_toList {r s : Registry α} (h : r.toList = s.toList) : r = s := by
  obtain ⟨entries, index, _, hr, _⟩ := r
  obtain ⟨entries', index', _, hs, _⟩ := s
  obtain rfl : entries = entries' := List.reverse_inj.mp h
  obtain rfl : index = index' := Std.ExtTreeMap.ext_getElem? fun name => by rw [hr, hs]
  rfl

@[simp] theorem toList_empty : (∅ : Registry α).toList = [] := rfl

@[simp] theorem length_toList (r : Registry α) : r.toList.length = r.size := by
  simp [toList, size, r.size_eq]

theorem nodup_names (r : Registry α) : r.names.Nodup := by
  rw [names, toList, List.map_reverse]
  exact List.pairwise_reverse.mpr (r.nodup.imp Ne.symm)

/-- In a list with one entry a name, reading from either end finds the same entry. -/
theorem lookup_reverse {entries : List (String × α)} (h : (entries.map (·.1)).Nodup)
    (name : String) : entries.reverse.lookup name = entries.lookup name := by
  induction entries with
  | nil => rfl
  | cons entry rest ih =>
    obtain ⟨key, value⟩ := entry
    simp only [List.map_cons, List.nodup_cons] at h
    obtain ⟨hkey, hrest⟩ := h
    rw [List.reverse_cons, List.lookup_append, ih hrest, List.lookup_cons]
    by_cases hname : name = key
    · subst hname
      have hnone : rest.lookup name = none := by
        rw [List.lookup_eq_none_iff]
        intro other hother
        have : name ≠ other.1 := fun heq => hkey (List.mem_map.mpr ⟨other, hother, heq.symm⟩)
        simpa using this
      simp [hnone]
    · have hbeq : (name == key) = false := by simpa using hname
      simp [hbeq, List.lookup_cons]

/-- In a list with one entry a name, a look-up finds the value that the name stands beside. -/
theorem lookup_eq_some_iff_mem {entries : List (String × α)} (h : (entries.map (·.1)).Nodup)
    {name : String} {value : α} : entries.lookup name = some value ↔ (name, value) ∈ entries := by
  induction entries with
  | nil => simp
  | cons entry rest ih =>
    obtain ⟨key, kept⟩ := entry
    rw [List.map_cons, List.nodup_cons] at h
    obtain ⟨hkey, hrest⟩ := h
    rw [List.lookup_cons, List.mem_cons]
    by_cases hname : name = key
    · subst hname
      have hmem : (name, value) ∉ rest := fun hin => hkey (List.mem_map.mpr ⟨_, hin, rfl⟩)
      simp [hmem, eq_comm]
    · have hbeq : (name == key) = false := by simpa using hname
      simp [hbeq, hname, ih hrest]

theorem get?_eq_lookup (r : Registry α) (name : String) : r.get? name = r.toList.lookup name := by
  rw [get?, r.index_eq, toList, lookup_reverse r.nodup]

theorem add_of_get?_eq_some {r : Registry α} {name : String} {kept : α}
    (h : r.get? name = some kept) (value : α) : r.add name value = r := by
  have hmem : r.index.contains name = true := by
    rw [Std.ExtTreeMap.contains_eq_isSome_getElem?, ← get?, h]; rfl
  simp [add, hmem]

theorem toList_add_of_get?_eq_none {r : Registry α} {name : String} (h : r.get? name = none)
    (value : α) : (r.add name value).toList = r.toList ++ [(name, value)] := by
  have hmem : r.index.contains name = false := by
    rw [Std.ExtTreeMap.contains_eq_isSome_getElem?, ← get?, h]; rfl
  simp [add, hmem, toList]

theorem get?_eq_some_iff {r : Registry α} {name : String} {value : α} :
    r.get? name = some value ↔ (name, value) ∈ r.toList := by
  rw [get?_eq_lookup]
  exact lookup_eq_some_iff_mem r.nodup_names

/-- After an addition an entry is an old one or the new one. -/
theorem mem_toList_add {r : Registry α} {name : String} {value : α} {entry : String × α}
    (h : entry ∈ (r.add name value).toList) : entry ∈ r.toList ∨ entry = (name, value) := by
  cases hget : r.get? name with
  | some kept =>
    rw [add_of_get?_eq_some hget] at h
    exact .inl h
  | none =>
    rw [toList_add_of_get?_eq_none hget, List.mem_append, List.mem_singleton] at h
    exact h

/-- What a name looks up to after an addition: the entry it had, else the new one. -/
theorem get?_add (r : Registry α) (name other : String) (value : α) :
    (r.add name value).get? other =
      (r.get? other).or (if name = other then some value else none) := by
  cases h : r.get? name with
  | some kept =>
    rw [add_of_get?_eq_some h]
    by_cases hname : name = other
    · subst hname; simp [h]
    · simp [hname]
  | none =>
    rw [get?_eq_lookup, toList_add_of_get?_eq_none h, List.lookup_append, ← get?_eq_lookup]
    by_cases hname : name = other
    · subst hname; simp
    · have hbeq : (other == name) = false := by simpa using Ne.symm hname
      simp [List.lookup_cons, hname, hbeq]

end Registry

end EventScript
