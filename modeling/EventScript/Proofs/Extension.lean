import EventScript.Proofs.Readdressing
import EventScript.Proofs.Reports

/-!
More lines at the end. What lines are assembled to depends on the lines before them and, for the
words of their labels, on all labels of the program; labels and variables keep what they were given
first. So lines that follow leave everything in place but the words of labels that were missing.
-/

namespace EventScript

variable {commands : Command.Table}

/-! ### What only grows -/

theorem piecesOf_append (lines more : List Line) :
    piecesOf commands (lines ++ more) =
      piecesOf commands lines ++ (mapBefore (linePieces commands) lines more).flatten := by
  rw [piecesOf, mapBefore_append, List.flatten_append, List.nil_append, piecesOf]

theorem diagnosticsOf_prefix_append (lines more : List Line) :
    diagnosticsOf commands lines <+: diagnosticsOf commands (lines ++ more) := by
  refine prefix_append_of_concat (fun lines line => ?_) lines more
  rw [diagnosticsOf_concat]
  exact List.prefix_append _ _

namespace Direct

theorem placed_prefix_append (lines more : List Line) :
    placed commands lines <+: placed commands (lines ++ more) := by
  refine prefix_append_of_concat (fun lines line => ?_) lines more
  rw [placed_concat]
  exact List.prefix_append _ _

theorem labels_prefix_append (lines more : List Line) :
    labels commands lines <+: labels commands (lines ++ more) := by
  refine prefix_append_of_concat (fun lines line => ?_) lines more
  by_cases hold : ∀ name, line.label? = some name → name ∈ lines.filterMap Line.label?
  · simp [labels_concat_of_old hold]
  · simp only [not_forall] at hold
    obtain ⟨name, hname, hnew⟩ := hold
    rw [labels_concat_of_new hname hnew]
    exact List.prefix_append _ _

theorem size_le_append (lines more : List Line) :
    size commands lines ≤ size commands (lines ++ more) := by
  simp [size, sizes, code_append]

theorem size_concat_le (earlier : List Line) (line : Line) (later : List Line) :
    size commands (earlier ++ [line]) ≤ size commands (earlier ++ line :: later) := by
  have hle : size commands (earlier ++ [line]) ≤ size commands (earlier ++ [line] ++ later) :=
    size_le_append _ later
  rwa [List.append_assoc, List.singleton_append] at hle

theorem vars_prefix_append (lines more : List Line) :
    vars commands lines <+: vars commands (lines ++ more) := by
  obtain ⟨names, hnames⟩ :=
    Operand.exists_declared_append (operandsOf commands lines) (operandsOf commands more)
  rw [vars, vars, operandsOf_append, hnames, List.zipIdx_append]
  exact List.prefix_append _ _

end Direct

/-! ### Output -/

/-- The addresses in `more` of the labels that have none in `labels`. -/
def Labels.added? (labels more : Labels) (name : String) : Option Nat :=
  if labels.offset? name = none then more.offset? name else none

theorem Labels.added?_of_some {labels : Labels} {name : String}
    (h : labels.offset? name ≠ none) (more : Labels) : labels.added? more name = none :=
  if_neg h

theorem Labels.offset?_of_isSome_added? {labels more : Labels} {name : String}
    (h : (labels.added? more name).isSome = true) : labels.offset? name = none := by
  by_contra hdefined
  simp [Labels.added?_of_some hdefined] at h

/-- Lines that follow change the output of the lines before them only by the addresses of labels
that these do not define. -/
theorem take_output_append (commands : Command.Table) (lines more : List Line) :
    (assemble commands (lines ++ more)).assembly.output.toList.take
        (assemble commands lines).assembly.output.offset =
      ((assemble commands lines).assembly.output.readdress
        ((assemble commands lines).assembly.labels.added?
          (assemble commands (lines ++ more)).assembly.labels)
        (firstPass commands lines).references.toList).toList := by
  have hbefore := isDirect_assemble commands lines
  have hafter := isDirect_assemble commands (lines ++ more)
  have haddress : ∀ name, (((assemble commands lines).assembly.labels.added?
      (assemble commands (lines ++ more)).assembly.labels name).or
        (Direct.address? commands lines name)) = Direct.address? commands (lines ++ more) name := by
    intro name
    rw [Labels.added?, hbefore.offset?, hafter.offset?]
    cases hname : Direct.address? commands lines name with
    | none => rw [if_pos rfl, Option.or_none]
    | some address => rw [if_neg (by simp), Option.none_or, Direct.address?_append hname]
  rw [readdress_output, funext haddress, output_eq_filled, piecesOf_append, List.flatMap_append,
    hbefore.offset, ← length_filled_piecesOf commands (Direct.address? commands (lines ++ more)),
    List.take_left]

/-- In a usable assembly every slot is for a label that is defined. -/
theorem offset?_ne_none_of_isUsable {lines : List Line}
    (husable : (assemble commands lines).assembly.isUsable = true) :
    ∀ reference ∈ (firstPass commands lines).references.toList,
      (assemble commands lines).assembly.labels.offset? reference.label ≠ none := by
  intro reference hmem hnone
  rw [(isDirect_assemble commands lines).offset?] at hnone
  rw [(holds_firstPass commands lines).references] at hmem
  obtain ⟨diagnostic, hreport, hseverity⟩ :=
    (Piece.exists_error_iff _ _ reference.line reference.source).mpr hnone
  exact (isUsable_iff.mp husable).2 diagnostic
    (List.mem_flatMap.mpr ⟨_, Piece.mem_of_mem_references hmem, hreport⟩) hseverity

/-- Lines that follow change nothing of what the lines before them are assembled to, whatever they
define or declare again: these lines keep their code offsets, the symbol tables and the diagnostics
of the first pass only grow, and only slots whose labels were missing can hold other bytes. If the
assembly was usable, its output only grows. -/
theorem assemble_append (commands : Command.Table) (lines more : List Line) :
    let before := assemble commands lines
    let after := assemble commands (lines ++ more)
    before.lines <+: after.lines ∧
      before.assembly.labels.toList <+: after.assembly.labels.toList ∧
      before.assembly.vars.toList <+: after.assembly.vars.toList ∧
      (firstPass commands lines).diagnostics.toList <+: after.assembly.diagnostics.toList ∧
      before.assembly.output.offset ≤ after.assembly.output.offset ∧
      (∀ index < before.assembly.output.offset,
        (∀ reference ∈ (firstPass commands lines).references.toList,
          before.assembly.labels.offset? reference.label = none → ¬ reference.Covers index) →
        after.assembly.output.toList[index]? = before.assembly.output.toList[index]?) ∧
      (before.assembly.isUsable = true →
        before.assembly.output.toList <+: after.assembly.output.toList) := by
  intro before after
  have hbefore := isDirect_assemble commands lines
  have hafter := isDirect_assemble commands (lines ++ more)
  have htake := take_output_append commands lines more
  refine ⟨?_, ?_, ?_, ?_, ?_, ?_, ?_⟩
  · rw [hbefore.lines, hafter.lines]
    exact Direct.placed_prefix_append lines more
  · rw [hbefore.labels, hafter.labels]
    exact Direct.labels_prefix_append lines more
  · rw [hbefore.vars, hafter.vars]
    exact Direct.vars_prefix_append lines more
  · rw [toList_diagnostics_firstPass, hafter.toList_diagnostics]
    exact (diagnosticsOf_prefix_append lines more).trans (List.prefix_append _ _)
  · rw [hbefore.offset, hafter.offset]
    exact Direct.size_le_append lines more
  · intro index hindex hslots
    rw [← List.getElem?_take_of_lt hindex, htake]
    exact Output.getElem?_readdress _ fun reference hmem hgiven =>
      hslots reference hmem (Labels.offset?_of_isSome_added? hgiven)
  · intro husable
    have hdefined := offset?_ne_none_of_isUsable husable
    rw [Output.readdress_of_none fun reference hmem =>
      Labels.added?_of_some (hdefined reference hmem) _] at htake
    rw [← htake]
    exact List.take_prefix _ _

/-- The slot of a missing label gets its address from a line that follows. -/
example :
    let lines : List Line := [⟨1, "jump end", ["jump", "end"], none⟩]
    let more : List Line := [⟨2, "end:", ["end:"], none⟩]
    (assemble greetingCommands lines).assembly.output.toList = [3, 0, 0] ∧
      (assemble greetingCommands (lines ++ more)).assembly.output.toList = [3, 3, 0] := by
  decide +kernel

end EventScript
