import Mathlib.Data.List.Perm.Basic
import EventScript.Proofs.Readdressing
import EventScript.Proofs.Reports

/-!
The second pass in any order. The first pass leaves slots that lie inside the output, one after the
other and without a byte in common, and each of them holds zero. So a reference never finds its slot
missing, and what is written for one of them is neither read nor overwritten for another: the log
may be gone through in whatever order, the output is the same, and the same is reported.

        first pass    10   00 00   2c 01   00 00
        log                A @ 1           B @ 5
        A, then B     10   a₀ a₁   2c 01   b₀ b₁
        B, then A     10   a₀ a₁   2c 01   b₀ b₁
-/

namespace EventScript

/-! ### Slots as the first pass leaves them -/

/-- The word at a place in the output. -/
def Output.wordAt (output : Output) (location : Nat) : List UInt8 :=
  (output.toList.drop location).take 2

/-- The logged slots are words inside the output that hold zero, and each of them ends before the
next one starts. -/
structure Draft.SlotsInPlace (draft : Draft) : Prop where
  inside : ∀ reference ∈ draft.references.toList, reference.location + 2 ≤ draft.offset
  apart : draft.references.toList.Pairwise fun earlier later =>
    earlier.location + 2 ≤ later.location
  blank : ∀ reference ∈ draft.references.toList,
    draft.output.wordAt reference.location = [0, 0]

namespace Piece

/-- A reference is to one of the slots, at the place where the pieces in front of it end. -/
theorem exists_split_of_mem_references {offset : Nat} {pieces : List Piece} {reference : Reference}
    (h : reference ∈ references offset pieces) :
    ∃ front back,
      pieces = front ++ .slot reference.label reference.line reference.source :: back ∧
        reference.location = offset + (front.flatMap raw).length := by
  induction pieces generalizing offset with
  | nil => simp [references] at h
  | cons piece rest ih =>
    cases piece with
    | fixed bytes =>
      obtain ⟨front, back, rfl, hlocation⟩ := ih h
      refine ⟨.fixed bytes :: front, back, rfl, ?_⟩
      rw [hlocation, List.flatMap_cons, List.length_append, Nat.add_assoc]
      rfl
    | slot label line source =>
      rcases List.mem_cons.mp h with rfl | hrest
      · exact ⟨[], rest, rfl, rfl⟩
      · obtain ⟨front, back, rfl, hlocation⟩ := ih hrest
        refine ⟨.slot label line source :: front, back, rfl, ?_⟩
        rw [hlocation, List.flatMap_cons, List.length_append, Nat.add_assoc]
        rfl

/-- Slots follow one another and have no byte in common. -/
theorem pairwise_references (offset : Nat) (pieces : List Piece) :
    (references offset pieces).Pairwise fun earlier later =>
      earlier.location + 2 ≤ later.location := by
  induction pieces generalizing offset with
  | nil => exact List.Pairwise.nil
  | cons piece rest ih =>
    cases piece with
    | fixed bytes => exact ih _
    | slot label line source =>
      refine List.Pairwise.cons ?_ (ih _)
      intro later hlater
      obtain ⟨front, back, -, hlocation⟩ := exists_split_of_mem_references hlater
      dsimp only
      omega

end Piece

/-- What the first pass leaves are slots in their places. -/
theorem slotsInPlace_firstPass (commands : Command.Table) (lines : List Line) :
    (firstPass commands lines).SlotsInPlace := by
  have hholds := holds_firstPass commands lines
  have hsplit : ∀ reference ∈ (firstPass commands lines).references.toList,
      ∃ before after, (firstPass commands lines).output.toList =
          before ++ (Output.placeholder ++ after) ∧ reference.location = before.length := by
    intro reference hmem
    rw [hholds.references] at hmem
    obtain ⟨front, back, hpieces, hlocation⟩ := Piece.exists_split_of_mem_references hmem
    refine ⟨front.flatMap Piece.raw, back.flatMap Piece.raw, ?_, by rw [hlocation, Nat.zero_add]⟩
    rw [hholds.output, hpieces, List.flatMap_append, List.flatMap_cons]
    rfl
  refine ⟨?_, ?_, ?_⟩
  · intro reference hmem
    obtain ⟨before, after, houtput, hlocation⟩ := hsplit reference hmem
    have hlength := congrArg List.length houtput
    have hword : Output.placeholder.length = 2 := length_wordBytes 0
    rw [Output.length_toList, List.length_append, List.length_append, hword] at hlength
    rw [Draft.offset, hlength, hlocation]
    omega
  · rw [hholds.references]
    exact Piece.pairwise_references 0 _
  · intro reference hmem
    obtain ⟨before, after, houtput, hlocation⟩ := hsplit reference hmem
    rw [Output.wordAt, houtput, hlocation, List.drop_left]
    rfl

/-! ### Any log -/

namespace Reference

/-- The slot that a reference is to. -/
def slot (reference : Reference) : Piece :=
  .slot reference.label reference.line reference.source

/-- What is recorded on the way when a reference is resolved where labels have these addresses. -/
def events (address? : String → Option Nat) (reference : Reference) : List Event :=
  (reference.slot.diagnostics address?).map .reported ++
    ((address? reference.label).map
      (.slotPatched reference.location reference.label)).toList

end Reference

namespace Output

@[simp] theorem offset_readdress (address? : String → Option Nat) (references : List Reference)
    (output : Output) : (output.readdress address? references).offset = output.offset := by
  induction references generalizing output with
  | nil => rfl
  | cons reference rest ih =>
    rw [readdress_cons, ih]
    cases address? reference.label with
    | none => rfl
    | some address => exact offset_patch ..

theorem readdress_append (address? : String → Option Nat) (references more : List Reference)
    (output : Output) :
    output.readdress address? (references ++ more) =
      (output.readdress address? references).readdress address? more :=
  List.foldl_append

theorem hasSlot_of_le {output : Output} {location : Nat} (h : location + 2 ≤ output.offset) :
    output.hasSlot location = true :=
  decide_eq_true h

/-- Words with no byte in common can be written in either order. -/
theorem patch_comm {first second : Nat} (h : first + 2 ≤ second) (output : Output)
    (value other : Nat) :
    (output.patch first value).patch second other =
      (output.patch second other).patch first value := by
  have hslot : ∀ (location value place : Nat),
      (output.patch location value).hasSlot place = output.hasSlot place := by
    intro location value place
    have hsize : (output.patch location value).bytes.size = output.bytes.size :=
      offset_patch output location value
    rw [hasSlot, hsize, hasSlot]
  rw [patch.eq_1 (output.patch first value), hslot, patch.eq_1 (output.patch second other), hslot]
  unfold patch
  by_cases hfirst : output.hasSlot first = true <;> by_cases hsecond : output.hasSlot second = true
  · simp only [if_pos hfirst, if_pos hsecond]
    refine congrArg mk ?_
    -- each byte of the one word moves past both bytes of the other
    rw [Array.setIfInBounds_comm (i := first + 1) (j := second) _ _ (by omega),
      Array.setIfInBounds_comm (i := first + 1) (j := second + 1) _ _ (by omega),
      Array.setIfInBounds_comm (i := first) (j := second) _ _ (by omega),
      Array.setIfInBounds_comm (i := first) (j := second + 1) _ _ (by omega)]
  · simp only [if_pos hfirst, if_neg hsecond]
  · simp only [if_neg hfirst, if_pos hsecond]
  · simp only [if_neg hfirst, if_neg hsecond]

/-- Slots with no byte in common can be filled in any order. -/
theorem readdress_perm {references order : List Reference} (hperm : order.Perm references)
    (happart : references.Pairwise fun earlier later => earlier.location + 2 ≤ later.location)
    (address? : String → Option Nat) (output : Output) :
    output.readdress address? order = output.readdress address? references := by
  have hsame : ∀ first ∈ references, ∀ second ∈ references,
      first = second ∨ first.location + 2 ≤ second.location ∨
        second.location + 2 ≤ first.location := by
    refine List.Pairwise.forall_of_forall_of_flip (fun _ _ => .inl rfl) ?_ ?_
    · exact happart.imp fun hlt => .inr (.inl hlt)
    · exact happart.imp fun hlt => .inr (.inr hlt)
  refine hperm.foldl_eq' ?_ output
  intro first hfirst second hsecond current
  rcases hsame first (hperm.mem_iff.mp hfirst) second (hperm.mem_iff.mp hsecond) with
    rfl | hlt | hlt
  · rfl
  · cases address? first.label <;> cases address? second.label <;> simp [patch_comm hlt]
  · cases address? first.label <;> cases address? second.label <;> simp [patch_comm hlt]

end Output

namespace Draft

/-- What going through references makes of a draft: the slots of labels that have an address are
filled, the other references are reported, and all of it is recorded. -/
structure Applies (references : List Reference) (draft after : Draft) : Prop where
  labels : after.labels = draft.labels
  vars : after.vars = draft.vars
  output : after.output = draft.output.readdress draft.labels.offset? references
  diagnostics : after.diagnostics = draft.diagnostics.reportAll
    (references.flatMap fun reference => reference.slot.diagnostics draft.labels.offset?)
  events : after.events.toList =
    draft.events.toList ++ references.flatMap (Reference.events draft.labels.offset?)

theorem Applies.trans {references more : List Reference} {draft next after : Draft}
    (h : Applies references draft next) (hnext : Applies more next after) :
    Applies (references ++ more) draft after where
  labels := hnext.labels.trans h.labels
  vars := hnext.vars.trans h.vars
  output := by rw [hnext.output, h.labels, h.output, Output.readdress_append]
  diagnostics := by
    rw [hnext.diagnostics, h.labels, h.diagnostics, List.flatMap_append,
      Diagnostics.reportAll_append]
  events := by
    rw [hnext.events, h.labels, h.events, List.flatMap_append, List.append_assoc]

/-- One reference whose slot is inside the output. -/
theorem applies_resolve {draft : Draft} {reference : Reference}
    (h : draft.output.hasSlot reference.location = true) (patched : Nat) :
    Applies [reference] draft (resolve (draft, patched) reference).1 ∧
      (resolve (draft, patched) reference).2 =
        patched + if (draft.labels.offset? reference.label).isSome then 1 else 0 := by
  rw [resolve]
  cases haddress : draft.labels.offset? reference.label with
  | none =>
    refine ⟨⟨rfl, rfl, ?_, ?_, ?_⟩, rfl⟩
    · simp [Output.readdress_cons, haddress, reportAt, report]
    · simp [Reference.slot, Piece.diagnostics, haddress, reportAt, report]
    · simp [Reference.events, Reference.slot, Piece.diagnostics, haddress, reportAt, report]
  | some address =>
    by_cases hwide : maxAddress < address
    · have hslot : (draft.reportAt reference
          (.wideAddress address reference.label)).output.hasSlot reference.location = true := h
      simp only [checkAddress, if_pos hwide, hslot, if_true]
      refine ⟨⟨rfl, rfl, ?_, ?_, ?_⟩, rfl⟩
      · simp [Output.readdress_cons, haddress, reportAt, report, record, patch]
      · simp [Reference.slot, Piece.diagnostics, haddress, hwide, reportAt, report, record, patch]
      · simp [Reference.events, Reference.slot, Piece.diagnostics, haddress, hwide, reportAt,
          report, record, patch]
    · simp only [checkAddress, if_neg hwide, h, if_true]
      refine ⟨⟨rfl, rfl, ?_, ?_, ?_⟩, rfl⟩
      · simp [Output.readdress_cons, haddress, record, patch]
      · simp [Reference.slot, Piece.diagnostics, haddress, hwide, record, patch]
      · simp [Reference.events, Reference.slot, Piece.diagnostics, haddress, hwide, record, patch]

/-- Any references to slots inside the output, in the order in which they are given. -/
theorem applies_foldl (references : List Reference) {draft : Draft}
    (h : ∀ reference ∈ references, reference.location + 2 ≤ draft.offset) (patched : Nat) :
    Applies references draft (references.foldl resolve (draft, patched)).1 ∧
      (references.foldl resolve (draft, patched)).2 =
        patched + references.countP fun reference =>
          (draft.labels.offset? reference.label).isSome := by
  induction references generalizing draft patched with
  | nil => exact ⟨⟨rfl, rfl, rfl, rfl, by simp⟩, rfl⟩
  | cons reference rest ih =>
    have hslot := Output.hasSlot_of_le (h reference List.mem_cons_self)
    obtain ⟨hone, hcount⟩ := applies_resolve hslot patched
    have hoffset : (resolve (draft, patched) reference).1.offset = draft.offset := by
      rw [offset, hone.output, Output.offset_readdress]
      rfl
    have hrest : ∀ other ∈ rest,
        other.location + 2 ≤ (resolve (draft, patched) reference).1.offset := by
      intro other hmem
      rw [hoffset]
      exact h other (List.mem_cons_of_mem _ hmem)
    obtain ⟨hall, htotal⟩ := ih hrest (resolve (draft, patched) reference).2
    rw [List.foldl_cons]
    refine ⟨hone.trans hall, ?_⟩
    rw [htotal, hcount, hone.labels, List.countP_cons]
    omega

/-- A reference finds its slot inside the output, whatever was written for others before it. -/
theorem hasSlot_foldl {references : List Reference} {draft : Draft}
    (h : ∀ reference ∈ references, reference.location + 2 ≤ draft.offset)
    {front rest : List Reference} {reference : Reference}
    (hsplit : references = front ++ reference :: rest) :
    (front.foldl resolve (draft, 0)).1.output.hasSlot reference.location = true := by
  have hfront : ∀ other ∈ front, other.location + 2 ≤ draft.offset := by
    intro other hmem
    exact h other (hsplit ▸ List.mem_append_left _ hmem)
  obtain ⟨happlies, -⟩ := applies_foldl front hfront 0
  have hinside := h reference (hsplit ▸ List.mem_append_cons_self)
  apply Output.hasSlot_of_le
  rw [happlies.output, Output.offset_readdress]
  exact hinside

/-! ### The whole second pass -/

theorem toList_events_record (draft : Draft) (event : Event) :
    (draft.record event).events.toList = draft.events.toList ++ [event] :=
  Array.toList_push

/-- The draft with its references in another order. -/
def reorder (draft : Draft) (order : List Reference) : Draft :=
  { draft with references := order.toArray }

theorem reorder_self (draft : Draft) : draft.reorder draft.references.toList = draft := by
  rw [reorder, Array.toArray_toList]

/-- What the second pass makes of a draft when it goes through references in an order. -/
structure ResolvesIn (order : List Reference) (draft after : Draft) : Prop where
  labels : after.labels = draft.labels
  vars : after.vars = draft.vars
  output : after.output = draft.output.readdress draft.labels.offset? order
  diagnostics : after.diagnostics = draft.diagnostics.reportAll
    (order.flatMap fun reference => reference.slot.diagnostics draft.labels.offset?)
  events : after.events.toList =
    draft.events.toList ++ [.resolving order.length draft.labels.size] ++
      order.flatMap (Reference.events draft.labels.offset?) ++
        [.resolved (order.countP fun reference => (draft.labels.offset? reference.label).isSome)
          order.length]

theorem resolvesIn_resolveAll {draft : Draft} {order : List Reference}
    (h : ∀ reference ∈ order, reference.location + 2 ≤ draft.offset) :
    ResolvesIn order draft (draft.reorder order).resolveAll := by
  obtain ⟨happlies, hcount⟩ := @applies_foldl order
    ((draft.reorder order).record (.resolving order.length draft.labels.size)) h 0
  rw [Nat.zero_add] at hcount
  have hafter : (draft.reorder order).resolveAll =
      (order.foldl resolve
        ((draft.reorder order).record (.resolving order.length draft.labels.size), 0)).1.record
          (.resolved (order.countP fun reference =>
            (draft.labels.offset? reference.label).isSome) order.length) := by
    rw [resolveAll, ← Array.foldl_toList]
    exact congrArg (fun count => record _ (.resolved count order.length)) hcount
  rw [hafter]
  refine ⟨happlies.labels, happlies.vars, happlies.output, happlies.diagnostics, ?_⟩
  rw [toList_events_record, happlies.events, toList_events_record]
  rfl

end Draft

/-- An event that says that a slot was missing. -/
def Event.IsSlotOutside (event : Event) : Prop :=
  ∃ location label, event = .slotOutside location label

theorem Reference.not_isSlotOutside {address? : String → Option Nat} {reference : Reference}
    {event : Event} (h : event ∈ reference.events address?) : ¬ event.IsSlotOutside := by
  rintro ⟨location, label, rfl⟩
  simp [Reference.events] at h

theorem countP_undefinedLabel (address? : String → Option Nat) (references : List Reference) :
    (references.flatMap fun reference => reference.slot.diagnostics address?).countP
        (·.kind = .undefinedLabel) =
      references.countP fun reference => ¬ (address? reference.label).isSome := by
  induction references with
  | nil => rfl
  | cons reference rest ih =>
    rw [List.flatMap_cons, List.countP_append, ih, List.countP_cons, Nat.add_comm]
    congr 1
    rw [Reference.slot, Piece.diagnostics]
    cases address? reference.label with
    | none => rfl
    | some address =>
      dsimp only
      split <;> rfl

namespace Draft.ResolvesIn

variable {order : List Reference} {draft after : Draft}

theorem mem_events (h : ResolvesIn order draft after) {event : Event} (hmem : event ∈ after.events)
    (houtside : event.IsSlotOutside) : event ∈ draft.events := by
  rw [← Array.mem_toList_iff, h.events] at hmem
  simp only [List.mem_append, List.mem_singleton, List.mem_flatMap] at hmem
  rcases hmem with ((hold | rfl) | ⟨reference, -, hnew⟩) | rfl
  · exact Array.mem_toList_iff.mp hold
  · obtain ⟨location, label, heq⟩ := houtside
    cases heq
  · exact absurd houtside (Reference.not_isSlotOutside hnew)
  · obtain ⟨location, label, heq⟩ := houtside
    cases heq

/-- Every reference is to a slot that is filled or to a label that is reported as undefined. -/
theorem exists_patched (h : ResolvesIn order draft after)
    (hnone : ∀ diagnostic ∈ draft.diagnostics.toList, diagnostic.kind ≠ .undefinedLabel) :
    ∃ patched, after.events.back? = some (.resolved patched order.length) ∧
      patched + after.diagnostics.count .undefinedLabel = order.length := by
  have hbefore : draft.diagnostics.toList.countP (·.kind = .undefinedLabel) = 0 := by
    rw [List.countP_eq_zero]
    intro diagnostic hmem
    simpa using hnone diagnostic hmem
  refine ⟨order.countP fun reference => (draft.labels.offset? reference.label).isSome, ?_, ?_⟩
  · rw [← Array.getLast?_toList, h.events, List.getLast?_concat]
  · rw [Diagnostics.count, h.diagnostics, Diagnostics.toList_reportAll, List.countP_append,
      hbefore, Nat.zero_add, countP_undefinedLabel]
    exact (List.length_eq_countP_add_countP _).symm

end Draft.ResolvesIn

/-- The second pass is safe and does not depend on the order of the log. At the end of the first
pass the logged slots lie inside the output, apart from each other and in order, and hold zero. So,
in whatever order the log is gone through, no reference finds its slot missing, the output keeps its
size and all bytes outside of the slots, every reference is either patched or reported as one to an
undefined label, and the result is that of the assembly, with the diagnostics in some order. -/
theorem resolveAll_in_any_order (commands : Command.Table) (lines : List Line) :
    let draft := firstPass commands lines
    let assembly := (assemble commands lines).assembly
    draft.SlotsInPlace ∧
      ∀ order : List Reference, order.Perm draft.references.toList →
        let after := (draft.reorder order).resolveAll
        (∀ front reference rest, order = front ++ reference :: rest →
          (front.foldl Draft.resolve (draft, 0)).1.output.hasSlot reference.location = true) ∧
        (∀ event ∈ after.events, event.IsSlotOutside → event ∈ draft.events) ∧
        after.offset = draft.offset ∧
        (∀ index, (∀ reference ∈ draft.references.toList, ¬ reference.Covers index) →
          after.output.toList[index]? = draft.output.toList[index]?) ∧
        (∃ patched, after.events.back? = some (.resolved patched draft.references.size) ∧
          patched + after.diagnostics.count .undefinedLabel = draft.references.size) ∧
        after.output = assembly.output ∧ after.labels = assembly.labels ∧
        after.vars = assembly.vars ∧
        after.diagnostics.toList.Perm assembly.diagnostics.toList := by
  intro draft assembly
  have hslots : draft.SlotsInPlace := slotsInPlace_firstPass commands lines
  refine ⟨hslots, fun order hperm => ?_⟩
  intro after
  have hinside : ∀ reference ∈ order, reference.location + 2 ≤ draft.offset :=
    fun reference hmem => hslots.inside reference (hperm.mem_iff.mp hmem)
  have hlength : order.length = draft.references.size := by
    rw [hperm.length_eq, Array.length_toList]
  have hresolves : Draft.ResolvesIn order draft after := Draft.resolvesIn_resolveAll hinside
  have hown := Draft.resolvesIn_resolveAll hslots.inside
  rw [Draft.reorder_self] at hown
  have hassembly : assembly = draft.resolveAll.assembly := assembly_assemble commands lines
  have hreordered := Output.readdress_perm hperm hslots.apart draft.labels.offset? draft.output
  refine ⟨?_, ?_, ?_, ?_, ?_, ?_, ?_, ?_, ?_⟩
  · intro front reference rest hsplit
    exact Draft.hasSlot_foldl hinside hsplit
  · intro event hmem houtside
    exact hresolves.mem_events hmem houtside
  · rw [Draft.offset, hresolves.output, Output.offset_readdress]
    rfl
  · intro index hindex
    rw [hresolves.output]
    exact Output.getElem?_readdress draft.output fun reference hmem _ =>
      hindex reference (hperm.mem_iff.mp hmem)
  · rw [← hlength]
    refine hresolves.exists_patched fun diagnostic hmem => ?_
    rw [toList_diagnostics_firstPass] at hmem
    exact kind_ne_undefinedLabel hmem
  · rw [hassembly, hresolves.output, hreordered]
    exact hown.output.symm
  · rw [hassembly]
    exact hresolves.labels.trans hown.labels.symm
  · rw [hassembly]
    exact hresolves.vars.trans hown.vars.symm
  · rw [hassembly, Draft.assembly, hresolves.diagnostics, hown.diagnostics,
      Diagnostics.toList_reportAll, Diagnostics.toList_reportAll]
    exact (hperm.flatMap_right _).append_left _

/-- Two jumps that cross, one forward and one back. -/
def crossing : List Line :=
  [⟨1, "jump b", ["jump", "b"], none⟩, ⟨2, "a:", ["a:"], none⟩,
    ⟨3, "jump a", ["jump", "a"], none⟩, ⟨4, "b:", ["b:"], none⟩]

/-- With the second jump resolved before the first both still go where they should. -/
theorem resolveAll_crossing_reversed :
    let draft := firstPass greetingCommands crossing
    let reversed := draft.references.toList.reverse
    reversed.Perm draft.references.toList ∧ draft.output.toList = [3, 0, 0, 3, 0, 0] ∧
      (draft.reorder reversed).resolveAll.output.toList = [3, 6, 0, 3, 3, 0] := by
  intro draft reversed
  have hperm : reversed.Perm draft.references.toList := List.reverse_perm _
  obtain ⟨-, hall⟩ := resolveAll_in_any_order greetingCommands crossing
  obtain ⟨-, -, -, -, -, houtput, -, -, -⟩ := hall reversed hperm
  refine ⟨hperm, by decide +kernel, ?_⟩
  rw [houtput]
  decide +kernel

end EventScript
