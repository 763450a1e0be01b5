import Mathlib.Data.List.SplitBy
import EventScript.Proofs.Extension
import EventScript.Proofs.ListingText
import EventScript.Proofs.Readdressing

/-!
What a listing says about an output. The rows of a line show the bytes from where the line starts up
to where the next one does. Starts never decrease and the last line ends where the output ends, so
all rows together show the output once, in order, and every address is the number of bytes shown
above it.

        line   start   rows
        ────   ─────   ────────────────────────
        top:     0     0000
        say …    0     0000  8 bytes
                       0008  3 bytes
        end     11     000B  1 byte
-/

namespace EventScript.Listing

/-! ### Rows as data -/

namespace Row

/-- The address of a row. -/
def address : Row → Nat
  | .first address .. | .further address _ => address

/-- The bytes on a row. -/
def bytes : Row → List UInt8
  | .first _ bytes .. | .further _ bytes => bytes

/-- The row continues a line. -/
def isFurther : Row → Bool
  | .first .. => false
  | .further .. => true

/-- What a first row says of its line: code offset, number and text. -/
def heading? : Row → Option (Option Nat × Nat × String)
  | .first address _ number text => some (some address, number, text)
  | .further .. => none

end Row

/-- The rows of each line: a first row starts the next line. -/
def groups (rows : List Row) : List (List Row) := rows.splitBy fun _ row => row.isFurther

/-- Each row has the address at which the bytes of the rows before it end. -/
def Addressed : (address : Nat) → List Row → Prop
  | _, [] => True
  | address, row :: rest => row.address = address ∧ Addressed (address + row.bytes.length) rest

theorem addressed_append {address : Nat} {rows more : List Row} :
    Addressed address (rows ++ more) ↔
      Addressed address rows ∧ Addressed (address + (rows.flatMap Row.bytes).length) more := by
  induction rows generalizing address with
  | nil => simp [Addressed]
  | cons row rest ih =>
    rw [List.cons_append, Addressed, Addressed, ih, List.flatMap_cons, List.length_append,
      Nat.add_assoc, and_assoc]

theorem Addressed.eq_length {rows front back : List Row} {row : Row} (h : Addressed 0 rows)
    (hsplit : rows = front ++ row :: back) : row.address = (front.flatMap Row.bytes).length := by
  rw [hsplit, addressed_append, Addressed, Nat.zero_add] at h
  exact h.2.1

/-! ### The rows of one line -/

section OneLine
variable {output : Array UInt8} {start stop : Nat}

/-- The first row of a line and some of the further ones. -/
def leadingRows (output : Array UInt8) (line : Line) (start stop count : Nat) : List Row :=
  .first start (chunk output start stop 0) line.number line.text ::
    (List.range count).map fun index =>
      .further (start + (index + 1) * rowBytes) (chunk output start stop (index + 1))

theorem leadingRows_succ (line : Line) (count : Nat) :
    leadingRows output line start stop (count + 1) = leadingRows output line start stop count ++
      [.further (start + (count + 1) * rowBytes) (chunk output start stop (count + 1))] := by
  rw [leadingRows, List.range_succ, List.map_append, leadingRows]
  rfl

/-- Rows that do not reach beyond the end of the line are at the right addresses, and their bytes
are those of the line up to there. -/
theorem addressed_leadingRows (line : Line) (hstop : stop ≤ output.size) {count : Nat}
    (hcount : count = 0 ∨ start + count * rowBytes ≤ stop) :
    Addressed start (leadingRows output line start stop count) ∧
      (leadingRows output line start stop count).flatMap Row.bytes =
        (output.extract start (min (start + (count + 1) * rowBytes) stop)).toList := by
  induction count with
  | zero => simp [leadingRows, Addressed, Row.address, Row.bytes, chunk]
  | succ count ih =>
    have hfull : start + (count + 1) * rowBytes ≤ stop := hcount.resolve_left (Nat.succ_ne_zero _)
    have hnext : start + (count + 1) * rowBytes ≤
        min (start + (count + 1) * rowBytes + rowBytes) stop := by omega
    have hearlier : start + count * rowBytes ≤ stop := by
      rw [rowBytes] at hfull ⊢
      omega
    obtain ⟨haddressed, hbytes⟩ := ih (.inr hearlier)
    rw [Nat.min_eq_left hfull] at hbytes
    have hlength : ((leadingRows output line start stop count).flatMap Row.bytes).length =
        (count + 1) * rowBytes := by
      rw [hbytes, Array.length_toList, Array.size_extract]
      omega
    constructor
    · rw [leadingRows_succ, addressed_append, hlength]
      exact ⟨haddressed, rfl, trivial⟩
    · rw [leadingRows_succ, List.flatMap_append, hbytes, List.flatMap_singleton, Row.bytes, chunk,
        ← Array.toList_append, Array.extract_append_extract, Nat.min_eq_left (Nat.le_add_right _ _),
        Nat.max_eq_right hnext, Nat.succ_mul (count + 1), Nat.add_assoc]

/-- The rows of a line are at the right addresses, and their bytes are all bytes of the line. -/
theorem addressed_lineRows (line : Line) (hstart : start ≤ stop) (hstop : stop ≤ output.size) :
    Addressed start (lineRows output line start stop) ∧
      (lineRows output line start stop).flatMap Row.bytes = (output.extract start stop).toList := by
  have hcount : furtherRows (stop - start) = 0 ∨
      start + furtherRows (stop - start) * rowBytes ≤ stop := by
    rw [furtherRows, rowBytes]
    omega
  have hall : stop ≤ start + (furtherRows (stop - start) + 1) * rowBytes := by
    rw [furtherRows, rowBytes]
    omega
  have hrows := addressed_leadingRows line hstop hcount
  rwa [Nat.min_eq_right hall] at hrows

theorem heading?_lineRows (output : Array UInt8) (line : Line) (start stop : Nat) :
    (lineRows output line start stop).filterMap Row.heading? =
      [(some start, line.number, line.text)] := by
  simp [lineRows, Row.heading?, List.filterMap_map, Function.comp_def]

theorem isLegible_of_mem_lineRows {line : Line} (hfeed : '\n' ∉ line.text.toList)
    (hreturn : line.text.toList.getLast? ≠ some '\r') {row : Row}
    (h : row ∈ lineRows output line start stop) : row.IsLegible := by
  have hchunk : ∀ index, (chunk output start stop index).length ≤ rowBytes := by
    intro index
    rw [chunk, Array.length_toList, Array.size_extract]
    omega
  rcases List.mem_cons.mp h with rfl | hfurther
  · exact ⟨hchunk 0, hfeed, hreturn⟩
  · obtain ⟨index, -, rfl⟩ := List.mem_map.mp hfurther
    exact hchunk (index + 1)

end OneLine

/-! ### The rows of all lines -/

section AllLines
variable (commands : Command.Table)

/-- The rows of a line that stands after others. -/
def block (output : Array UInt8) (earlier : List Line) (line : Line) : List Row :=
  lineRows output line (Direct.size commands earlier) (Direct.size commands (earlier ++ [line]))

variable {commands} {output : Array UInt8}

theorem placed_eq_mapBefore (lines : List Line) :
    Direct.placed commands lines =
      mapBefore (fun earlier line => line.placedAt (Direct.size commands earlier)) [] lines := by
  induction lines using List.reverseRecOn with
  | nil => rfl
  | append_singleton lines line ih => rw [Direct.placed_concat, mapBefore_concat, ih]

/-- A line ends where the next one starts, and the last one where the output ends. -/
theorem rowsAndStart_mapBefore {earlier later : List Line}
    (hsize : output.size = Direct.size commands (earlier ++ later)) :
    rowsAndStart output
        (mapBefore (fun front line => line.placedAt (Direct.size commands front)) earlier later) =
      ((mapBefore (block commands output) earlier later).flatten,
        Direct.size commands earlier) := by
  induction later generalizing earlier with
  | nil =>
    rw [List.append_nil] at hsize
    exact congrArg (Prod.mk []) hsize
  | cons line rest ih =>
    have hle : Direct.size commands (earlier ++ [line]) ≤ output.size :=
      hsize ▸ Direct.size_concat_le earlier line rest
    rw [List.append_cons] at hsize
    have hrest := ih hsize
    rw [rowsAndStart] at hrest ⊢
    rw [mapBefore, List.foldr_cons, hrest, mapBefore, List.flatten_cons]
    simp only [Line.codeOffset_placedAt, Nat.min_eq_left hle]
    rfl

theorem rows_placed {lines : List Line} (hsize : output.size = Direct.size commands lines) :
    rows output (Direct.placed commands lines) =
      (mapBefore (block commands output) [] lines).flatten := by
  rw [rows, placed_eq_mapBefore, rowsAndStart_mapBefore hsize]

/-- From a line on, all rows are at the right addresses and show the rest of the output. -/
theorem addressed_blocks {earlier later : List Line}
    (hsize : output.size = Direct.size commands (earlier ++ later)) :
    let rows := (mapBefore (block commands output) earlier later).flatten
    Addressed (Direct.size commands earlier) rows ∧
      rows.flatMap Row.bytes =
        (output.extract (Direct.size commands earlier) output.size).toList := by
  intro rows
  induction later generalizing earlier with
  | nil =>
    rw [List.append_nil] at hsize
    simp [rows, mapBefore, Addressed, hsize]
  | cons line rest ih =>
    have hstart : Direct.size commands earlier ≤ Direct.size commands (earlier ++ [line]) :=
      Direct.size_le_append earlier [line]
    have hstop : Direct.size commands (earlier ++ [line]) ≤ output.size :=
      hsize ▸ Direct.size_concat_le earlier line rest
    rw [List.append_cons] at hsize
    obtain ⟨hrest, hbytes⟩ := ih hsize
    obtain ⟨hline, hlineBytes⟩ := addressed_lineRows line hstart hstop
    have hlength : (output.extract (Direct.size commands earlier)
        (Direct.size commands (earlier ++ [line]))).size =
        Direct.size commands (earlier ++ [line]) - Direct.size commands earlier := by
      rw [Array.size_extract, Nat.min_eq_left hstop]
    simp only [rows, mapBefore, List.flatten_cons]
    constructor
    · rw [addressed_append]
      refine ⟨hline, ?_⟩
      rw [block, hlineBytes, Array.length_toList, hlength, Nat.add_sub_cancel' hstart]
      exact hrest
    · rw [List.flatMap_append, hbytes, block, hlineBytes, ← Array.toList_append,
        Array.extract_append_extract, Nat.min_eq_left hstart, Nat.max_eq_right hstop]

/-- The rows of a line start at its first row. -/
theorem groups_blocks (lines : List Line) :
    groups (mapBefore (block commands output) [] lines).flatten =
      mapBefore (block commands output) [] lines := by
  have hblock : ∀ rows ∈ mapBefore (block commands output) [] lines,
      ∃ line start stop, rows = lineRows output line start stop := by
    intro rows hmem
    obtain ⟨front, line, -, -, rfl⟩ := (mem_mapBefore _).mp hmem
    exact ⟨line, _, _, rfl⟩
  refine List.splitBy_flatten ?_ ?_ ?_
  · intro hnil
    obtain ⟨line, start, stop, hrows⟩ := hblock [] hnil
    cases hrows
  · intro rows hmem
    obtain ⟨line, start, stop, rfl⟩ := hblock rows hmem
    have hfurther : ∀ row ∈ (lineRows output line start stop).tail, row.isFurther = true := by
      intro row htail
      obtain ⟨index, -, rfl⟩ := List.mem_map.mp htail
      rfl
    refine List.Pairwise.isChain (List.pairwise_cons.mpr ⟨hfurther, ?_⟩)
    exact List.pairwise_of_forall_mem_list fun _ _ row htail => hfurther row htail
  · refine List.Pairwise.isChain (List.pairwise_of_forall_mem_list ?_)
    intro rows hmem others hothers
    obtain ⟨line, start, stop, rfl⟩ := hblock rows hmem
    obtain ⟨next, start', stop', rfl⟩ := hblock others hothers
    exact ⟨List.cons_ne_nil _ _, List.cons_ne_nil _ _, rfl⟩

end AllLines

end EventScript.Listing

namespace EventScript

/-! ### Texts of lines -/

/-- The text of a statement is one line and does not end in a carriage return. -/
theorem Line.text_of_mem_ofSource {source : String} {line : Line} (h : line ∈ ofSource source) :
    '\n' ∉ line.text.toList ∧ line.text.toList.getLast? ≠ some '\r' := by
  obtain ⟨⟨raw, number⟩, hmem, hline⟩ := List.mem_filterMap.mp h
  change ofPhysical? raw number = some line at hline
  have htext : line.text = Text.trim raw := by
    unfold ofPhysical? at hline
    split at hline
    · cases hline
    · obtain rfl := Option.some.inj hline
      rfl
  have hraw : raw ∈ Text.lines source := List.fst_mem_of_mem_zipIdx hmem
  obtain ⟨chars, hchars, rfl⟩ := List.mem_map.mp hraw
  rw [htext, Text.toList_trim, String.toList_ofList, Text.trimChars]
  constructor
  · intro hfeed
    refine Text.feed_notMem_of_mem_charLines hchars ?_
    have hfront := (List.dropWhile_suffix _).mem (List.mem_reverse.mp hfeed)
    exact (List.dropWhile_suffix _).mem (List.mem_reverse.mp hfront)
  · rw [List.getLast?_reverse]
    intro hlast
    have hblank := List.head?_dropWhile_not Text.isBlank
      (chars.dropWhile Text.isBlank).reverse
    rw [hlast] at hblank
    exact absurd hblank (by decide)

/-! ### Bytes of lines -/

/-- What a line that stands after others adds to the output, in its final form: the bytes from where
the line finds the output up to where it leaves it. -/
def emitted (commands : Command.Table) (output : Output) (earlier : List Line) (line : Line) :
    List UInt8 :=
  let draft := firstPass commands earlier
  output.toList.extract draft.offset (draft.emitLine commands line).offset

section Emitted
variable {commands : Command.Table} {earlier : List Line} {line : Line}

theorem emitted_eq_extract (output : Output) :
    emitted commands output earlier line =
      (output.bytes.extract (Direct.size commands earlier)
        (Direct.size commands (earlier ++ [line]))).toList := by
  have hholds := holds_firstPass commands earlier
  rw [emitted, hholds.offset, (hholds.emitLine line).offset, Array.toList_extract]
  rfl

/-- What a line adds are the bytes of its instruction at the final addresses of all labels. -/
theorem emitted_assemble (later : List Line) :
    let assembly := (assemble commands (earlier ++ line :: later)).assembly
    emitted commands assembly.output earlier line =
      Direct.lineBytes commands assembly.labels.offset? earlier line := by
  intro assembly
  have hdirect := isDirect_assemble commands (earlier ++ line :: later)
  have hlabels : assembly.labels.offset? = Direct.address? commands (earlier ++ line :: later) :=
    hdirect.offset?
  have hfront := Direct.length_flatten_lineBytes commands assembly.labels.offset? earlier
  have houtput : assembly.output.toList =
      (mapBefore (Direct.lineBytes commands assembly.labels.offset?) [] earlier).flatten ++
        (Direct.lineBytes commands assembly.labels.offset? earlier line ++
          (mapBefore (Direct.lineBytes commands assembly.labels.offset?) (earlier ++ [line])
            later).flatten) := by
    rw [hlabels]
    refine (hdirect.output.trans (Direct.bytes_eq_flatten commands _)).trans ?_
    rw [mapBefore_append, List.nil_append, mapBefore, List.flatten_append, List.flatten_cons]
  have hstop := @Direct.size_concat_lineBytes commands assembly.labels.offset? earlier line
  rw [emitted_eq_extract, Array.toList_extract, ← Output.toList, houtput, hstop,
    List.extract_eq_take_drop, Nat.add_sub_cancel_left, List.drop_left' hfront, List.take_left]

/-- The rows of a line show what the line adds. -/
theorem bytes_block {output : Output} {later : List Line}
    (hsize : output.bytes.size = Direct.size commands (earlier ++ line :: later)) :
    (Listing.block commands output.bytes earlier line).flatMap Listing.Row.bytes =
      emitted commands output earlier line := by
  have hstop : Direct.size commands (earlier ++ [line]) ≤ output.bytes.size :=
    hsize ▸ Direct.size_concat_le earlier line later
  rw [emitted_eq_extract]
  exact (Listing.addressed_lineRows line (Direct.size_le_append earlier [line]) hstop).2

end Emitted

/-! ### The account -/

/-- What is read back from the listing of a program are the rows of its lines. -/
theorem read_render_placed (commands : Command.Table) (source : String) {output : Array UInt8}
    (hsize : output.size = Direct.size commands (Line.ofSource source)) :
    Listing.read (Listing.render output (Direct.placed commands (Line.ofSource source))) =
      (mapBefore (Listing.block commands output) [] (Line.ofSource source)).flatten := by
  rw [← Listing.rows_placed hsize]
  refine Listing.read_render fun row hmem => ?_
  rw [Listing.rows_placed hsize] at hmem
  obtain ⟨group, hgroup, hrow⟩ := List.mem_flatten.mp hmem
  obtain ⟨earlier, line, later, hlines, rfl⟩ := (mem_mapBefore _).mp hgroup
  have hline : line ∈ Line.ofSource source := by simp [hlines]
  obtain ⟨hfeed, hreturn⟩ := Line.text_of_mem_ofSource hline
  exact Listing.isLegible_of_mem_lineRows hfeed hreturn hrow

/-- A listing is a faithful account of the output. What is read back from it are the rows of one
line after the other. Each line has just one first row, with its code offset, its number and its
text; the bytes on its rows are those that the line put out, in their final form; every address is
the place in the output where the bytes of its row stand; and all rows together show the output. -/
theorem listing_account (commands : Command.Table) (source : String) :
    let lines := Line.ofSource source
    let compilation := assemble commands lines
    let output := compilation.assembly.output
    let rows := Listing.read (Listing.render output.bytes compilation.lines)
    (Listing.groups rows).map (·.filterMap Listing.Row.heading?) =
        compilation.lines.map (fun line => [(line.codeOffset, line.number, line.text)]) ∧
      (Listing.groups rows).map (·.flatMap Listing.Row.bytes) =
        mapBefore (emitted commands output) [] lines ∧
      mapBefore (emitted commands output) [] lines =
        mapBefore (Direct.lineBytes commands compilation.assembly.labels.offset?) [] lines ∧
      (∀ front row back, rows = front ++ row :: back →
        row.address = (front.flatMap Listing.Row.bytes).length ∧
          row.bytes <+: output.toList.drop row.address) ∧
      rows.flatMap Listing.Row.bytes = output.toList := by
  intro lines compilation output rows
  have hdirect := isDirect_assemble commands lines
  have hplaced : compilation.lines = Direct.placed commands lines := hdirect.lines
  have hsize : output.bytes.size = Direct.size commands lines := hdirect.offset
  have hrows : rows = (mapBefore (Listing.block commands output.bytes) [] lines).flatten := by
    simp only [rows, hplaced]
    exact read_render_placed commands source hsize
  have hgroups : Listing.groups rows =
      mapBefore (Listing.block commands output.bytes) [] lines := by
    rw [hrows, Listing.groups_blocks]
  obtain ⟨haddressed, hbytes⟩ := @Listing.addressed_blocks commands output.bytes [] lines hsize
  rw [← hrows] at haddressed hbytes
  have hall : rows.flatMap Listing.Row.bytes = output.toList := by
    have hzero : Direct.size commands [] = 0 := rfl
    rw [hbytes, hzero, Array.extract_size, Output.toList]
  refine ⟨?_, ?_, ?_, ?_, hall⟩
  · rw [hgroups, hplaced, Listing.placed_eq_mapBefore, map_mapBefore, map_mapBefore]
    refine mapBefore_congr _ fun earlier line later _ => ?_
    rw [Listing.block, Listing.heading?_lineRows]
    rfl
  · rw [hgroups, map_mapBefore]
    exact mapBefore_congr _ fun earlier line later hsplit => bytes_block (hsplit ▸ hsize)
  · refine mapBefore_congr _ fun earlier line later hsplit => ?_
    have hline := @emitted_assemble commands earlier line later
    rw [← hsplit] at hline
    exact hline
  · intro front row back hsplit
    have haddress := haddressed.eq_length hsplit
    refine ⟨haddress, ?_⟩
    rw [haddress, ← hall, hsplit, List.flatMap_append, List.drop_left, List.flatMap_cons]
    exact List.prefix_append _ _

end EventScript
