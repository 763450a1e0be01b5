import EventScript.Proofs.BackPatching

/-!
Writing other addresses into the slots of an output. The references of the first pass say where the
slots are; the bytes of the slots whose labels are given an address become that address, and all
other bytes stay what they are.

        output       10   a₀ a₁   2c 01   b₀ b₁
        references        A @ 1           B @ 5
        B := b'      10   a₀ a₁   2c 01   b'₀ b'₁
-/

namespace EventScript

/-! ### The first pass -/

/-- What the first pass makes of lines. -/
def firstPass (commands : Command.Table) (lines : List Line) : Draft :=
  (emitLines commands ((∅ : Draft).record (.compiling lines.length)) lines).1

theorem holds_firstPass (commands : Command.Table) (lines : List Line) :
    Draft.Holds commands lines (firstPass commands lines) :=
  (Draft.holds_emitLines commands (.compiling lines.length) lines).1

theorem assembly_assemble (commands : Command.Table) (lines : List Line) :
    (assemble commands lines).assembly = (firstPass commands lines).finish.assembly := rfl

theorem toList_diagnostics_firstPass (commands : Command.Table) (lines : List Line) :
    (firstPass commands lines).diagnostics.toList = diagnosticsOf commands lines := by
  rw [(holds_firstPass commands lines).diagnostics, Diagnostics.toList_reportAll]
  rfl

theorem Piece.mem_of_mem_references {offset : Nat} {pieces : List Piece} {reference : Reference}
    (h : reference ∈ Piece.references offset pieces) :
    .slot reference.label reference.line reference.source ∈ pieces := by
  induction pieces generalizing offset with
  | nil => simp [references] at h
  | cons piece rest ih =>
    cases piece with
    | fixed bytes => exact List.mem_cons_of_mem _ (ih h)
    | slot label line source =>
      rcases List.mem_cons.mp h with rfl | hrest
      · exact List.mem_cons_self
      · exact List.mem_cons_of_mem _ (ih hrest)

/-! ### Other addresses -/

/-- A reference's slot covers a place in the output. -/
def Reference.Covers (reference : Reference) (index : Nat) : Prop :=
  reference.location ≤ index ∧ index < reference.location + 2

namespace Output

/-- The output with addresses written into the slots of the labels that have one. -/
def readdress (address? : String → Option Nat) (references : List Reference) (output : Output) :
    Output :=
  references.foldl
    (fun output reference =>
      match address? reference.label with
      | none => output
      | some address => output.patch reference.location address)
    output

@[simp] theorem readdress_nil (address? : String → Option Nat) (output : Output) :
    output.readdress address? [] = output := rfl

theorem readdress_cons (address? : String → Option Nat) (reference : Reference)
    (rest : List Reference) (output : Output) :
    output.readdress address? (reference :: rest) =
      (match address? reference.label with
        | none => output
        | some address => output.patch reference.location address).readdress address? rest :=
  List.foldl_cons ..

/-- Writing a word changes no byte outside of it. -/
theorem getElem?_patch {output : Output} {location index : Nat} (value : Nat)
    (h : ¬ (location ≤ index ∧ index < location + 2)) :
    (output.patch location value).toList[index]? = output.toList[index]? := by
  unfold patch
  split
  · have hlow : location ≠ index := by omega
    have hhigh : location + 1 ≠ index := by omega
    simp [toList, hlow, hhigh]
  · rfl

/-- Without an address for any of them the slots stay what they are. -/
theorem readdress_of_none {address? : String → Option Nat} {references : List Reference}
    (h : ∀ reference ∈ references, address? reference.label = none) (output : Output) :
    output.readdress address? references = output := by
  induction references with
  | nil => rfl
  | cons reference rest ih =>
    rw [readdress_cons, h reference List.mem_cons_self]
    exact ih fun other hmem => h other (List.mem_cons_of_mem _ hmem)

/-- Bytes outside of the slots that are given an address stay what they are. -/
theorem getElem?_readdress {address? : String → Option Nat} {references : List Reference}
    (output : Output) {index : Nat}
    (h : ∀ reference ∈ references, (address? reference.label).isSome = true →
      ¬ reference.Covers index) :
    (output.readdress address? references).toList[index]? = output.toList[index]? := by
  induction references generalizing output with
  | nil => rfl
  | cons reference rest ih =>
    have hrest := fun output => ih output fun other hmem => h other (List.mem_cons_of_mem _ hmem)
    rw [readdress_cons, hrest]
    cases haddress : address? reference.label with
    | none => rfl
    | some address =>
      exact getElem?_patch address (h reference List.mem_cons_self (by rw [haddress]; rfl))

/-- Slots that are filled in already are filled in anew where their labels are given an address. -/
theorem toList_readdress (given? address? : String → Option Nat) (pieces : List Piece)
    {before : List UInt8} {output : Output}
    (h : output.toList = before ++ pieces.flatMap (Piece.filled address?)) :
    (output.readdress given? (Piece.references before.length pieces)).toList =
      before ++ pieces.flatMap (Piece.filled fun name => (given? name).or (address? name)) := by
  -- `before` holds what is final already, so the induction moves each piece over to it
  induction pieces generalizing before output with
  | nil => exact h
  | cons piece rest ih =>
    rw [List.flatMap_cons, ← List.append_assoc] at h ⊢
    cases piece with
    | fixed bytes =>
      have hrest := ih h
      rw [List.length_append] at hrest
      exact hrest
    | slot label line source =>
      rw [Piece.references, readdress_cons]
      cases hgiven : given? label with
      | none =>
        have hrest := ih h
        rw [List.length_append, Piece.filled, length_wordBytes] at hrest
        simpa [Piece.filled, hgiven] using hrest
      | some address =>
        rw [List.append_assoc] at h
        have hpatched := toList_patch h (length_wordBytes _) address
        rw [← List.append_assoc] at hpatched
        have hrest := ih hpatched
        rw [List.length_append, length_wordBytes] at hrest
        simpa [Piece.filled, hgiven] using hrest

end Output

/-! ### Assemblies -/

/-- The output is the pieces of the lines with their slots filled in. -/
theorem output_eq_filled (commands : Command.Table) (lines : List Line) :
    (assemble commands lines).assembly.output.toList =
      (piecesOf commands lines).flatMap (Piece.filled (Direct.address? commands lines)) := by
  rw [(isDirect_assemble commands lines).output, filled_piecesOf]
  rfl

theorem length_filled_piecesOf (commands : Command.Table) (address? : String → Option Nat)
    (lines : List Line) :
    ((piecesOf commands lines).flatMap (Piece.filled address?)).length =
      Direct.size commands lines := by
  rw [← length_piecesOf, List.length_flatMap, List.length_flatMap]
  simp only [Piece.length_filled]

/-- An output with other addresses is the pieces of the lines with these addresses filled in. -/
theorem readdress_output (given? : String → Option Nat) (commands : Command.Table)
    (lines : List Line) :
    ((assemble commands lines).assembly.output.readdress given?
        (firstPass commands lines).references.toList).toList =
      (piecesOf commands lines).flatMap
        (Piece.filled fun name => (given? name).or (Direct.address? commands lines name)) := by
  rw [(holds_firstPass commands lines).references]
  exact @Output.toList_readdress given? _ (piecesOf commands lines) [] _
    (output_eq_filled commands lines)

end EventScript
