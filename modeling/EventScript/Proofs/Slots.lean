import Mathlib.Data.List.Basic
import EventScript.Assembly

/-!
The second pass. What the first pass leaves is a sequence of pieces, each of them bytes in their
final form or a slot for a label's address, and the references are the slots with their places in
that sequence. Writing the addresses in the order of the references then fills every slot and
touches nothing else.

        pieces       fixed   slot A   fixed   slot B
        first pass   10      00 00    2c 01   00 00
        references           A @ 1            B @ 5
        second pass  10      a₀ a₁    2c 01   b₀ b₁
-/

namespace EventScript

/-! ### Reports -/

namespace Diagnostics

/-- Report diagnostics one after the other. -/
def reportAll (diagnostics : Diagnostics) (more : List Diagnostic) : Diagnostics :=
  more.foldl report diagnostics

@[simp] theorem reportAll_nil (diagnostics : Diagnostics) :
    diagnostics.reportAll [] = diagnostics := rfl

@[simp] theorem reportAll_singleton (diagnostics : Diagnostics) (diagnostic : Diagnostic) :
    diagnostics.reportAll [diagnostic] = diagnostics.report diagnostic := rfl

theorem reportAll_append (diagnostics : Diagnostics) (more later : List Diagnostic) :
    diagnostics.reportAll (more ++ later) = (diagnostics.reportAll more).reportAll later :=
  List.foldl_append

theorem toList_reportAll (diagnostics : Diagnostics) (more : List Diagnostic) :
    (diagnostics.reportAll more).toList = diagnostics.toList ++ more := by
  induction more generalizing diagnostics with
  | nil => rw [reportAll_nil, List.append_nil]
  | cons diagnostic rest ih =>
    rw [reportAll, List.foldl_cons, ← reportAll, ih, toList_report, List.append_assoc,
      List.singleton_append]

theorem counts_reportAll (diagnostics : Diagnostics) (more : List Diagnostic) :
    (diagnostics.reportAll more).errors =
        diagnostics.errors + more.countP (·.severity = .error) ∧
      (diagnostics.reportAll more).warnings =
        diagnostics.warnings + more.countP (·.severity = .warning) := by
  induction more generalizing diagnostics with
  | nil => exact ⟨rfl, rfl⟩
  | cons diagnostic rest ih =>
    obtain ⟨herrors, hwarnings⟩ := ih (diagnostics.report diagnostic)
    rw [reportAll, List.foldl_cons, ← reportAll, herrors, hwarnings, List.countP_cons,
      List.countP_cons]
    cases h : diagnostic.severity with
    | warning => simp [report, h]; omega
    | error => simp [report, h]; omega

end Diagnostics

/-! ### Pieces -/

/-- A part of the output as the first pass leaves it: bytes in their final form, or a slot that a
numbered line with a text wants filled. -/
inductive Piece where
  | fixed (bytes : List UInt8)
  | slot (label : String) (line : Nat) (source : String)
  deriving DecidableEq, Repr

namespace Piece

/-- The bytes of a piece after the first pass. -/
def raw : Piece → List UInt8
  | .fixed bytes => bytes
  | .slot .. => Output.placeholder

/-- The bytes of a piece where labels have these addresses; a slot whose label has none stays. -/
def filled (address? : String → Option Nat) : Piece → List UInt8
  | .fixed bytes => bytes
  | .slot label .. => wordBytes ((address? label).getD 0)

theorem length_filled (address? : String → Option Nat) (piece : Piece) :
    (piece.filled address?).length = piece.raw.length := by
  cases piece with
  | fixed bytes => rfl
  | slot label line source => rfl

/-- What is wrong with a slot where labels have these addresses. -/
def diagnostics (address? : String → Option Nat) : Piece → List Diagnostic
  | .fixed _ => []
  | .slot label line source =>
    match address? label with
    | none => [(Problem.undefinedLabel label).diagnostic line source]
    | some address =>
      if Draft.maxAddress < address then
        [(Problem.wideAddress address label).diagnostic line source]
      else []

/-- The references to the slots among pieces that start at an offset. -/
def references (offset : Nat) : List Piece → List Reference
  | [] => []
  | .fixed bytes :: rest => references (offset + bytes.length) rest
  | .slot label line source :: rest =>
    ⟨offset, label, line, source⟩ :: references (offset + 2) rest

theorem references_append (offset : Nat) (pieces more : List Piece) :
    references offset (pieces ++ more) =
      references offset pieces ++ references (offset + (pieces.flatMap raw).length) more := by
  induction pieces generalizing offset with
  | nil => rfl
  | cons piece rest ih =>
    cases piece with
    | fixed bytes => simp [references, raw, ih, Nat.add_assoc]
    | slot label line source =>
      simp [references, raw, ih, Output.placeholder, Nat.add_assoc]

end Piece

/-! ### One slot -/

/-- Overwriting a word of the output leaves all that stands before and after it. -/
theorem Output.toList_patch {output : Output} {before word after : List UInt8}
    (h : output.toList = before ++ (word ++ after)) (hword : word.length = 2) (value : Nat) :
    (output.patch before.length value).toList = before ++ (wordBytes value ++ after) := by
  obtain ⟨low, high, rfl⟩ := List.length_eq_two.mp hword
  have hbytes : output.bytes.toList = before ++ low :: high :: after := h
  have hslot : output.hasSlot before.length = true := by
    have hsize := congrArg List.length hbytes
    simp only [List.length_append, List.length_cons, Array.length_toList] at hsize
    simp only [hasSlot, decide_eq_true_eq]
    omega
  rw [patch, if_pos hslot, toList, Array.toList_setIfInBounds, Array.toList_setIfInBounds, hbytes]
  simp [wordBytes, littleEndian]

namespace Draft

/-- What becomes of a draft whose pieces stand after `before` once the second pass is through. -/
structure Resolved (address? : String → Option Nat) (before : List UInt8) (pieces : List Piece)
    (draft after : Draft) : Prop where
  labels : after.labels = draft.labels
  vars : after.vars = draft.vars
  output : after.output.toList = before ++ pieces.flatMap (Piece.filled address?)
  diagnostics :
    after.diagnostics = draft.diagnostics.reportAll (pieces.flatMap (Piece.diagnostics address?))

/-- Resolving a reference to a slot fills that slot, if the label has an address. -/
theorem resolved_resolve {draft : Draft} {before after : List UInt8} (label : String) (line : Nat)
    (source : String) (patched : Nat)
    (h : draft.output.toList = before ++ (Output.placeholder ++ after)) :
    Resolved draft.labels.offset? before [.slot label line source, .fixed after] draft
      (resolve (draft, patched) ⟨before.length, label, line, source⟩).1 := by
  have hslot : draft.output.hasSlot before.length = true := by
    have hsize := congrArg List.length h
    rw [Output.length_toList, List.length_append, List.length_append] at hsize
    have hword : Output.placeholder.length = 2 := length_wordBytes 0
    have hoffset : draft.output.offset = draft.output.bytes.size := rfl
    simp only [Output.hasSlot, decide_eq_true_eq]
    omega
  unfold resolve
  cases haddress : draft.labels.offset? label with
  | none =>
    exact {
      labels := by simp [haddress, reportAt, report]
      vars := by simp [haddress, reportAt, report]
      output := by simp [haddress, reportAt, report, h, Piece.filled, Output.placeholder]
      diagnostics := by simp [haddress, reportAt, report, Piece.diagnostics] }
  | some address =>
    have hcheck : (draft.checkAddress ⟨before.length, label, line, source⟩ address).output =
        draft.output := by
      unfold checkAddress
      split <;> rfl
    have hpatch := Output.toList_patch h (length_wordBytes 0) address
    simp only [haddress, hcheck, hslot, if_true]
    exact {
      labels := by
        unfold checkAddress
        split <;> rfl
      vars := by
        unfold checkAddress
        split <;> rfl
      output := by simp [record, patch, hcheck, hpatch, Piece.filled, haddress]
      diagnostics := by
        simp only [List.flatMap_cons, List.flatMap_nil, Piece.diagnostics, haddress,
          List.append_nil]
        unfold checkAddress
        split <;> rfl }

/-! ### All slots -/

/-- Resolving the references to the slots among pieces fills all of them. -/
theorem resolved_foldl (pieces : List Piece) (draft : Draft) (before : List UInt8) (patched : Nat)
    (h : draft.output.toList = before ++ pieces.flatMap Piece.raw) :
    Resolved draft.labels.offset? before pieces draft
      ((Piece.references before.length pieces).foldl resolve (draft, patched)).1 := by
  -- `before` holds what is final already, so the induction moves each piece over to it
  induction pieces generalizing draft before patched with
  | nil => exact ⟨rfl, rfl, h, rfl⟩
  | cons piece rest ih =>
    cases piece with
    | fixed bytes =>
      have hraw : Piece.raw (.fixed bytes) = bytes := rfl
      rw [List.flatMap_cons, ← List.append_assoc, hraw] at h
      have hrest := ih draft (before ++ bytes) patched h
      rw [List.length_append] at hrest
      exact {
        labels := hrest.labels
        vars := hrest.vars
        output := by
          rw [Piece.references, hrest.output, List.flatMap_cons, List.append_assoc]
          rfl
        diagnostics := by
          rw [Piece.references, hrest.diagnostics]
          rfl }
    | slot label line source =>
      have hone := resolved_resolve label line source patched h
      generalize hstep :
        resolve (draft, patched) ⟨before.length, label, line, source⟩ = step at hone
      obtain ⟨next, count⟩ := step
      have houtput : next.output.toList =
          before ++ wordBytes ((draft.labels.offset? label).getD 0) ++ rest.flatMap Piece.raw := by
        rw [hone.output, List.flatMap_cons, List.flatMap_singleton, ← List.append_assoc]
        rfl
      have hrest := ih next _ count houtput
      rw [List.length_append, length_wordBytes, hone.labels] at hrest
      rw [Piece.references, List.foldl_cons, hstep]
      exact {
        labels := hrest.labels.trans hone.labels
        vars := hrest.vars.trans hone.vars
        output := by
          rw [hrest.output, List.flatMap_cons, List.append_assoc]
          rfl
        diagnostics := by
          rw [hrest.diagnostics, hone.diagnostics, ← Diagnostics.reportAll_append]
          simp [Piece.diagnostics] }

/-- Finishing a draft that holds pieces fills all their slots. -/
theorem resolved_finish {draft : Draft} {pieces : List Piece}
    (houtput : draft.output.toList = pieces.flatMap Piece.raw)
    (hreferences : draft.references.toList = Piece.references 0 pieces) :
    Resolved draft.labels.offset? [] pieces draft draft.finish := by
  have hfold := resolved_foldl pieces
    (draft.record (.resolving draft.references.size draft.labels.size)) [] 0 houtput
  rw [List.length_nil, ← hreferences, Array.foldl_toList] at hfold
  exact ⟨hfold.labels, hfold.vars, hfold.output, hfold.diagnostics⟩

end Draft

end EventScript
