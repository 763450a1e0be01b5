import Mathlib.Data.List.Basic
import Mathlib.Data.List.Induction

/-!
Lists read from the front: what an item gives in view of all that stands before it, which items are
the first of their kind, and where the parts of a list put together from parts stand.
-/

namespace EventScript

/-! ### Items in view of those before them -/

section MapBefore
variable {α β : Type} (f : List α → α → β)

/-- What each item gives in view of all that stands before it. -/
def mapBefore (before : List α) : List α → List β
  | [] => []
  | item :: rest => f before item :: mapBefore (before ++ [item]) rest

@[simp] theorem length_mapBefore (before items : List α) :
    (mapBefore f before items).length = items.length := by
  induction items generalizing before with
  | nil => rfl
  | cons item rest ih => rw [mapBefore, List.length_cons, ih, List.length_cons]

theorem mapBefore_append (before items more : List α) :
    mapBefore f before (items ++ more) =
      mapBefore f before items ++ mapBefore f (before ++ items) more := by
  induction items generalizing before with
  | nil => rw [List.nil_append, List.append_nil, mapBefore, List.nil_append]
  | cons item rest ih =>
    rw [List.cons_append, mapBefore, mapBefore, ih, List.cons_append, List.append_assoc,
      List.singleton_append]

theorem mapBefore_concat (items : List α) (item : α) :
    mapBefore f [] (items ++ [item]) = mapBefore f [] items ++ [f items item] := by
  rw [mapBefore_append, List.nil_append]
  rfl

theorem map_mapBefore {γ : Type} (g : β → γ) (before items : List α) :
    (mapBefore f before items).map g =
      mapBefore (fun front item => g (f front item)) before items := by
  induction items generalizing before with
  | nil => rfl
  | cons item rest ih => rw [mapBefore, List.map_cons, ih, mapBefore]

theorem flatten_mapBefore {γ : Type} {f : List α → α → List γ} {g : α → List γ}
    (h : ∀ front item, f front item = g item) (before items : List α) :
    (mapBefore f before items).flatten = items.flatMap g := by
  induction items generalizing before with
  | nil => rfl
  | cons item rest ih => rw [mapBefore, List.flatten_cons, h, ih, List.flatMap_cons]

theorem mem_mapBefore {before items : List α} {result : β} :
    result ∈ mapBefore f before items ↔
      ∃ front item rest, items = front ++ item :: rest ∧ result = f (before ++ front) item := by
  induction items generalizing before with
  | nil => simp [mapBefore]
  | cons head tail ih =>
    rw [mapBefore, List.mem_cons, ih]
    constructor
    · rintro (rfl | ⟨front, item, rest, rfl, rfl⟩)
      · exact ⟨[], head, tail, rfl, by rw [List.append_nil]⟩
      · exact ⟨head :: front, item, rest, rfl, by rw [List.append_assoc, List.singleton_append]⟩
    · rintro ⟨front, item, rest, hitems, rfl⟩
      cases front with
      | nil =>
        obtain ⟨rfl, rfl⟩ := List.cons.inj hitems
        exact .inl (by rw [List.append_nil])
      | cons first front =>
        obtain ⟨rfl, rfl⟩ := List.cons.inj hitems
        exact .inr ⟨front, item, rest, rfl, by rw [List.append_assoc, List.singleton_append]⟩

/-- What items give that are in order is in order, if what each item gives is. -/
theorem pairwise_flatten_mapBefore {γ : Type} {R : α → α → Prop} {S : γ → γ → Prop}
    {f : List α → α → List γ} (hone : ∀ front item, (f front item).Pairwise S)
    (htwo : ∀ front item front' item', R item item' →
      ∀ given ∈ f front item, ∀ given' ∈ f front' item', S given given')
    (before : List α) {items : List α} (hitems : items.Pairwise R) :
    (mapBefore f before items).flatten.Pairwise S := by
  induction hitems generalizing before with
  | nil => exact .nil
  | @cons item rest hitem _ ih =>
    rw [mapBefore, List.flatten_cons, List.pairwise_append]
    refine ⟨hone before item, ih _, ?_⟩
    intro given hgiven given' hgiven'
    obtain ⟨later_given, hlater, hmem⟩ := List.mem_flatten.mp hgiven'
    obtain ⟨front, later, back, rfl, rfl⟩ := (mem_mapBefore f).mp hlater
    exact htwo before item _ later (hitem later (by simp)) given hgiven given' hmem

/-- Two ways of which the results belong together for each item go together for all of them. -/
theorem forall₂_mapBefore {γ : Type} {R : β → γ → Prop} {g : List α → α → γ}
    (h : ∀ front item, R (f front item) (g front item)) (before items : List α) :
    List.Forall₂ R (mapBefore f before items) (mapBefore g before items) := by
  induction items generalizing before with
  | nil => exact .nil
  | cons item rest ih => exact .cons (h before item) (ih _)

/-- Two ways that give the same for each item in view of those before it give the same. -/
theorem mapBefore_congr {g : List α → α → β} {before items : List α}
    (h : ∀ front item rest, items = front ++ item :: rest →
      f (before ++ front) item = g (before ++ front) item) :
    mapBefore f before items = mapBefore g before items := by
  induction items generalizing before with
  | nil => rfl
  | cons item rest ih =>
    have hitem := h [] item rest rfl
    rw [List.append_nil] at hitem
    rw [mapBefore, mapBefore, hitem]
    congr 1
    refine ih fun front later back hsplit => ?_
    have hlater := h (item :: front) later back (by rw [hsplit, List.cons_append])
    rwa [List.append_cons] at hlater

/-- An item in front that makes no difference to the items after it can be left out. -/
theorem mapBefore_insert {before : List α} {item : α}
    (h : ∀ front later, f (before ++ item :: front) later = f (before ++ front) later)
    (front items : List α) :
    mapBefore f (before ++ item :: front) items = mapBefore f (before ++ front) items := by
  induction items generalizing front with
  | nil => rfl
  | cons later rest ih =>
    have hrest := ih (front ++ [later])
    rw [mapBefore, mapBefore, h, List.append_assoc, List.append_assoc, List.cons_append, hrest]

theorem mapBefore_map {γ : Type} (change : γ → α) (before items : List γ) :
    mapBefore f (before.map change) (items.map change) =
      mapBefore (fun front item => f (front.map change) (change item)) before items := by
  induction items generalizing before with
  | nil => rfl
  | cons item rest ih =>
    have hrest := ih (before ++ [item])
    rw [List.map_append, List.map_singleton] at hrest
    rw [List.map_cons, mapBefore, mapBefore, hrest]

theorem mapBefore_nil_map {γ : Type} (change : γ → α) (items : List γ) :
    mapBefore f [] (items.map change) =
      mapBefore (fun front item => f (front.map change) (change item)) [] items :=
  mapBefore_map f change [] items

/-- Items that pass a test, where each of them minds only those before it that pass it too. -/
theorem filter_mapBefore (keep : α → Bool)
    (h : ∀ front item, keep item = true → f (front.filter keep) item = f front item)
    (before items : List α) :
    (mapBefore (fun front item => (item, f front item)) before items).filter (keep ·.1) =
      mapBefore (fun front item => (item, f front item)) (before.filter keep)
        (items.filter keep) := by
  induction items generalizing before with
  | nil => rfl
  | cons item rest ih =>
    have hrest := ih (before ++ [item])
    rw [List.filter_append, List.filter_singleton] at hrest
    rw [mapBefore, List.filter_cons, List.filter_cons, hrest]
    cases hkeep : keep item with
    | true => simp only [if_true, cond_true, mapBefore, h before item hkeep]
    | false => simp only [Bool.false_eq_true, if_false, cond_false, List.append_nil]

end MapBefore

/-- What grows with each item is a prefix of what it has grown to after more of them. -/
theorem prefix_append_of_concat {α β : Type} {f : List α → List β}
    (h : ∀ items item, f items <+: f (items ++ [item])) (items more : List α) :
    f items <+: f (items ++ more) := by
  induction more using List.reverseRecOn with
  | nil => simp
  | append_singleton more item ih =>
    rw [← List.append_assoc]
    exact ih.trans (h _ item)

/-! ### First occurrences -/

/-- Once duplicates are dropped, one more item counts only if it is new. -/
theorem eraseDups_concat {α : Type} [DecidableEq α] (items : List α) (item : α) :
    (items ++ [item]).eraseDups =
      if item ∈ items then items.eraseDups else items.eraseDups ++ [item] := by
  rw [List.eraseDups_append]
  by_cases hmem : item ∈ items
  · simp [List.removeAll, hmem]
  · simp [List.removeAll, hmem, List.eraseDups_cons]

theorem eraseDups_of_nodup {α : Type} [DecidableEq α] {items : List α} (h : items.Nodup) :
    items.eraseDups = items := by
  induction items using List.reverseRecOn with
  | nil => rfl
  | append_singleton items item ih =>
    obtain ⟨hitems, -, hnew⟩ := List.nodup_append.mp h
    have hmem : item ∉ items := fun hmem => hnew item hmem item List.mem_cons_self rfl
    rw [eraseDups_concat, if_neg hmem, ih hitems]

/-- Changing items one by one, different ones to different ones, changes what is left of them. -/
theorem eraseDups_map {α β : Type} [DecidableEq α] [DecidableEq β] {change : α → β}
    (h : Function.Injective change) (items : List α) :
    (items.map change).eraseDups = items.eraseDups.map change := by
  induction items using List.reverseRecOn with
  | nil => rfl
  | append_singleton items item ih =>
    have hiff : change item ∈ items.map change ↔ item ∈ items := List.mem_map_of_injective h
    rw [List.map_append, List.map_singleton, eraseDups_concat, eraseDups_concat, ih]
    by_cases hmem : item ∈ items
    · rw [if_pos hmem, if_pos (hiff.mpr hmem)]
    · rw [if_neg hmem, if_neg (fun hchanged => hmem (hiff.mp hchanged)), List.map_append,
        List.map_singleton]

/-- Items have different names when each item's name is new at its place. -/
theorem nodup_filterMap_iff {α β : Type} {name? : α → Option β} {items : List α} :
    (items.filterMap name?).Nodup ↔
      ∀ earlier item later name, items = earlier ++ item :: later → name? item = some name →
        name ∉ earlier.filterMap name? := by
  constructor
  · rintro hnodup earlier item later name rfl hname hmem
    rw [List.filterMap_append, List.filterMap_cons_some hname, List.nodup_append] at hnodup
    exact hnodup.2.2 name hmem name List.mem_cons_self rfl
  · intro h
    induction items using List.reverseRecOn with
    | nil => exact List.nodup_nil
    | append_singleton items item ih =>
      have hitems := ih fun earlier other later name hsplit =>
        h earlier other (later ++ [item]) name (by rw [hsplit]; simp)
      rw [List.filterMap_append]
      cases hname : name? item with
      | none => simpa [hname] using hitems
      | some name =>
        have hnew := h items item [] name rfl hname
        have hsingle : [item].filterMap name? = [name] := by simp [hname]
        rw [hsingle, List.nodup_append]
        refine ⟨hitems, List.nodup_cons.mpr ⟨List.not_mem_nil, List.nodup_nil⟩, ?_⟩
        rintro other hother _ hlast rfl
        rw [List.mem_singleton] at hlast
        exact hnew (hlast ▸ hother)

/-! ### Parts -/

theorem flatten_filterMap_id {α : Type} (lists : List (Option (List α))) :
    (lists.filterMap id).flatten = lists.flatMap (·.getD []) := by
  induction lists with
  | nil => rfl
  | cons list rest ih =>
    rw [List.filterMap_cons, List.flatMap_cons, ← ih]
    cases list <;> rfl

/-- Where all parts have one size, each of them stands at a multiple of it. -/
theorem take_drop_flatMap {α β : Type} {part : α → List β} {size : Nat}
    (hsize : ∀ item, (part item).length = size) {items : List α} {index : Nat} {item : α}
    (h : items[index]? = some item) :
    ((items.flatMap part).drop (size * index)).take size = part item := by
  induction items generalizing index with
  | nil => simp at h
  | cons first rest ih =>
    rw [List.flatMap_cons]
    cases index with
    | zero =>
      obtain rfl := Option.some.inj h
      rw [Nat.mul_zero, List.drop_zero, ← hsize first, List.take_left]
    | succ index =>
      have hskip : size * (index + 1) = (part first).length + size * index := by
        rw [hsize, Nat.mul_succ, Nat.add_comm]
      rw [hskip, ← List.drop_drop, List.drop_left]
      exact ih h

end EventScript
