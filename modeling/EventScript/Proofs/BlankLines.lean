import Mathlib.Data.List.TakeWhile
import EventScript.Proofs.Location
import EventScript.Proofs.Tokens

/-!
Which physical lines are statements. Two notions of white space meet there. The lexer separates
tokens at ASCII white space, and a line without a token is no statement; the text of a statement is
trimmed of all that Unicode takes for white space. A blank that is no separator is stray: alone on
its line it is a token, and the statement that comes of it has no text.

        physical line      holds           statement     text
        ␣,␣; again         nothing         no
        ␣say x             something       yes           say x
        no-break space     nothing         yes           (empty)
-/

namespace EventScript

namespace Text

/-! ### Lines that hold nothing -/

/-- What stands in front of the first semicolon. -/
def beforeComment (raw : String) : List Char := raw.toList.takeWhile (· ≠ ';')

/-- The line holds nothing besides white space, commas and a comment. -/
def HoldsNothing (raw : String) : Prop := ∀ c ∈ beforeComment raw, isBlank c = true ∨ c = ','

/-- A blank that does not separate tokens. -/
def IsStray (c : Char) : Prop := isBlank c = true ∧ Token.isSeparator c = false

/-- There is a stray blank in front of the comment. -/
def HasStray (raw : String) : Prop := ∃ c ∈ beforeComment raw, IsStray c

instance (raw : String) : Decidable (HoldsNothing raw) :=
  List.decidableBAll (fun c => isBlank c = true ∨ c = ',') (beforeComment raw)

instance (c : Char) : Decidable (IsStray c) :=
  inferInstanceAs (Decidable (isBlank c = true ∧ Token.isSeparator c = false))

instance (raw : String) : Decidable (HasStray raw) :=
  List.decidableBEx IsStray (beforeComment raw)

theorem isBlank_of_isSeparator {c : Char} (h : Token.isSeparator c = true) :
    isBlank c = true ∨ c = ',' := by
  simp only [Token.isSeparator, Bool.or_eq_true, beq_iff_eq] at h
  rcases h with ((((rfl | rfl) | rfl) | rfl) | rfl) | rfl <;> decide

/-- A line gives no token exactly if only separators stand in front of its comment. -/
theorem tokenize_eq_nil_iff {raw : String} :
    Token.tokenize raw = [] ↔ ∀ c ∈ beforeComment raw, Token.isSeparator c = true := by
  constructor
  · intro h
    obtain ⟨lexemes, hsplits⟩ := Token.exists_splits raw.toList
    rw [hsplits.tokenize, List.map_eq_nil_iff] at h
    subst h
    rw [beforeComment]
    generalize raw.toList = chars at hsplits
    cases hsplits with
    | @rest gap tail hgap htail =>
      have hfront : ∀ c ∈ gap, decide (c ≠ ';') = true := by
        rintro c hc
        rw [decide_eq_true_eq]
        rintro rfl
        exact absurd (hgap _ hc) (by decide)
      rw [List.takeWhile_append_of_pos hfront]
      rcases htail with rfl | ⟨comment, rfl⟩
      · simpa using hgap
      · simpa using hgap
  · intro h
    have htail : raw.toList.dropWhile (· ≠ ';') = [] ∨
        ∃ comment, raw.toList.dropWhile (· ≠ ';') = ';' :: comment := by
      cases hdrop : raw.toList.dropWhile (· ≠ ';') with
      | nil => exact .inl rfl
      | cons c comment =>
        have hhead := List.head?_dropWhile_not (· ≠ ';') raw.toList
        rw [hdrop] at hhead
        obtain rfl : c = ';' := by simpa using hhead
        exact .inr ⟨comment, rfl⟩
    have hsplits : Token.Splits [] raw.toList := by
      rw [← List.takeWhile_append_dropWhile (p := (· ≠ ';')) (l := raw.toList)]
      exact .rest h htail
    exact hsplits.tokenize

/-- A line gives a token exactly if it holds something or has a stray blank. -/
theorem tokenize_ne_nil_iff {raw : String} :
    Token.tokenize raw ≠ [] ↔ ¬HoldsNothing raw ∨ HasStray raw := by
  rw [ne_eq, tokenize_eq_nil_iff]
  constructor
  · intro h
    by_cases hnothing : HoldsNothing raw
    · obtain ⟨c, hmem, hseparator⟩ : ∃ c ∈ beforeComment raw, Token.isSeparator c = false := by
        simpa using h
      refine .inr ⟨c, hmem, ?_, hseparator⟩
      rcases hnothing c hmem with hblank | rfl
      · exact hblank
      · cases hseparator
    · exact .inl hnothing
  · rintro (hsomething | ⟨c, hmem, -, hseparator⟩) h
    · exact hsomething fun c hmem => isBlank_of_isSeparator (h c hmem)
    · rw [h c hmem] at hseparator
      cases hseparator

theorem trim_eq_empty_iff {raw : String} :
    trim raw = "" ↔ ∀ c ∈ raw.toList, isBlank c = true := by
  rw [← String.toList_eq_nil_iff, toList_trim, trimChars, List.reverse_eq_nil_iff,
    List.dropWhile_eq_nil_iff]
  constructor
  · intro h c hmem
    -- trimming from the end has to drop all that trimming from the start has left
    rw [← List.takeWhile_append_dropWhile (p := isBlank) (l := raw.toList),
      List.mem_append] at hmem
    rcases hmem with htake | hdrop
    · exact List.mem_takeWhile_imp htake
    · exact h c (List.mem_reverse.mpr hdrop)
  · intro h c hmem
    exact h c ((List.dropWhile_suffix isBlank).subset (List.mem_reverse.mp hmem))

/-- All of a line that is blank stands in front of its comment: there is none. -/
theorem beforeComment_of_blank {raw : String} (h : ∀ c ∈ raw.toList, isBlank c = true) :
    beforeComment raw = raw.toList := by
  rw [beforeComment, List.takeWhile_eq_self_iff]
  intro c hmem
  rw [decide_eq_true_eq]
  rintro rfl
  exact absurd (h _ hmem) (by decide)

end Text

open Text (HoldsNothing HasStray IsStray isBlank)

/-! ### Statements -/

namespace Line

/-- The statement that a numbered physical line is, if it is one. -/
def ofRaw (entry : String × Nat) : Line :=
  ⟨entry.2, Text.trim entry.1, Token.tokenize entry.1, none⟩

/-- There is one statement for each physical line that holds something or has a stray blank. -/
theorem ofSource_eq_map_filter (source : String) :
    ofSource source = (((Text.lines source).zipIdx 1).filter fun entry =>
      ¬HoldsNothing entry.1 ∨ HasStray entry.1).map ofRaw := by
  rw [ofSource, ← List.filterMap_eq_filter, List.map_filterMap]
  refine List.filterMap_congr fun entry _ => ?_
  by_cases hline : ¬HoldsNothing entry.1 ∨ HasStray entry.1
  · rw [Option.guard_pos (by simpa using hline), Option.map_some]
    exact ofPhysical?_eq_some_iff.mpr ⟨Text.tokenize_ne_nil_iff.mpr hline, rfl⟩
  · rw [Option.guard_eq_none_iff.mpr (by simpa using hline), Option.map_none,
      Option.eq_none_iff_forall_ne_some]
    intro line h
    exact hline (Text.tokenize_ne_nil_iff.mp (ofPhysical?_eq_some_iff.mp h).1)

theorem eq_ofRaw_of_mem {source : String} {line : Line} (h : line ∈ ofSource source) :
    ∃ index raw, (Text.lines source)[index]? = some raw ∧ line = ofRaw (raw, index + 1) ∧
      line.tokens ≠ [] := by
  obtain ⟨⟨raw, number⟩, hmem, hline⟩ := List.mem_filterMap.mp h
  obtain ⟨hle, hraw⟩ := List.mk_mem_zipIdx_iff_le_and_getElem?_sub.mp hmem
  obtain ⟨htokens, rfl⟩ := ofPhysical?_eq_some_iff.mp hline
  exact ⟨number - 1, raw, hraw, by rw [Nat.sub_add_cancel hle]; rfl, htokens⟩

end Line

/-- The physical line of this number is made of blanks, and one of them is stray. -/
def IsStrayLine (source : String) (number : Nat) : Prop :=
  ∃ index raw, (Text.lines source)[index]? = some raw ∧ number = index + 1 ∧
    (∀ c ∈ raw.toList, isBlank c = true) ∧ ∃ c ∈ raw.toList, IsStray c

theorem Line.text_eq_empty_iff {source : String} {line : Line} (h : line ∈ ofSource source) :
    line.text = "" ↔ IsStrayLine source line.number := by
  obtain ⟨index, raw, hraw, rfl, htokens⟩ := eq_ofRaw_of_mem h
  rw [ofRaw, Text.trim_eq_empty_iff]
  constructor
  · intro hblank
    have hfront := Text.beforeComment_of_blank hblank
    refine ⟨index, raw, hraw, rfl, hblank, ?_⟩
    rcases Text.tokenize_ne_nil_iff.mp htokens with hsomething | hstray
    · exact absurd (fun c hmem => .inl (hblank c (hfront ▸ hmem))) hsomething
    · rwa [HasStray, hfront] at hstray
  · rintro ⟨index', raw', hraw', hnumber, hblank, -⟩
    obtain rfl := Nat.succ.inj hnumber
    rw [hraw] at hraw'
    obtain rfl := Option.some.inj hraw'
    exact hblank

/-- A diagnostic that shows nothing is about a stray blank among other blanks. -/
theorem isStrayLine_of_source_eq_empty {commands : Command.Table} {source : String}
    {diagnostic : Diagnostic}
    (h : diagnostic ∈ (compile commands source).assembly.diagnostics.toList)
    (hempty : diagnostic.source = "") : IsStrayLine source diagnostic.line := by
  obtain ⟨line, hline, hnumber, hsource⟩ := exists_isOn_of_mem_diagnostics h
  rw [hnumber]
  exact (Line.text_eq_empty_iff hline).mp (hsource.symm.trans hempty)

theorem IsStrayLine.exists_raw {source : String} {number : Nat} (h : IsStrayLine source number) :
    ∃ raw ∈ Text.lines source, HoldsNothing raw ∧ HasStray raw := by
  obtain ⟨index, raw, hraw, -, hblank, hstray⟩ := h
  have hfront := Text.beforeComment_of_blank hblank
  refine ⟨raw, List.mem_of_getElem? hraw, fun c hmem => .inl (hblank c (hfront ▸ hmem)), ?_⟩
  rwa [HasStray, hfront]

/-- Every physical line that holds something besides white space, commas and a comment is one
statement, in order and with its number, and so is every line with a stray blank in front of its
comment; no other line is one. Every statement has a token, and only one that comes of a stray blank
among other blanks has no text; a diagnostic that shows nothing is about such a line. So without
stray blanks on lines that hold nothing, the statements are the lines that hold something, each has
a text, and each diagnostic shows one. -/
theorem ofSource_exact (source : String) :
    let entries := (Text.lines source).zipIdx 1
    let lines := Line.ofSource source
    lines = (entries.filter fun entry =>
      ¬HoldsNothing entry.1 ∨ HasStray entry.1).map Line.ofRaw ∧
    (lines.Pairwise fun line next => line.number < next.number) ∧
    (∀ line ∈ lines, line.tokens ≠ [] ∧ (line.text = "" ↔ IsStrayLine source line.number)) ∧
    (∀ commands, ∀ diagnostic ∈ (compile commands source).assembly.diagnostics.toList,
      diagnostic.source = "" → IsStrayLine source diagnostic.line) ∧
    ((∀ raw ∈ Text.lines source, HoldsNothing raw → ¬HasStray raw) →
      lines = (entries.filter fun entry => ¬HoldsNothing entry.1).map Line.ofRaw ∧
      (∀ line ∈ lines, line.text ≠ "") ∧
      ∀ commands, ∀ diagnostic ∈ (compile commands source).assembly.diagnostics.toList,
        diagnostic.source ≠ "") := by
  intro entries lines
  have hall : lines = (entries.filter fun entry =>
      ¬HoldsNothing entry.1 ∨ HasStray entry.1).map Line.ofRaw :=
    Line.ofSource_eq_map_filter source
  refine ⟨hall, Line.pairwise_number_ofSource source, fun line hline => ?_,
    fun commands diagnostic hmem => isStrayLine_of_source_eq_empty hmem, fun hclean => ?_⟩
  · obtain ⟨index, raw, -, -, htokens⟩ := Line.eq_ofRaw_of_mem hline
    exact ⟨htokens, Line.text_eq_empty_iff hline⟩
  · have hnone : ∀ number, ¬IsStrayLine source number := by
      intro number hstray
      obtain ⟨raw, hraw, hnothing, hhas⟩ := hstray.exists_raw
      exact hclean raw hraw hnothing hhas
    refine ⟨hall.trans (congrArg (List.map Line.ofRaw) (List.filter_congr fun entry hmem => ?_)),
      fun line hline hempty => hnone _ ((Line.text_eq_empty_iff hline).mp hempty),
      fun commands diagnostic hmem hempty =>
        hnone _ (isStrayLine_of_source_eq_empty hmem hempty)⟩
    have hraw : entry.1 ∈ Text.lines source := List.fst_mem_of_mem_zipIdx hmem
    rw [decide_eq_decide]
    exact or_iff_left_of_imp fun hstray hnothing => hclean _ hraw hnothing hstray

/-- A comment, a line of blanks and a comma, and a command. -/
theorem ofSource_exact_say :
    let source := "; again\n , \n say x\n"
    (∀ raw ∈ Text.lines source, HoldsNothing raw → ¬HasStray raw) ∧
      Line.ofSource source = [⟨3, "say x", ["say", "x"], none⟩] := by
  intro source
  have hclean : ∀ raw ∈ Text.lines source, HoldsNothing raw → ¬HasStray raw := by
    have hlines : Text.lines source = ["; again", " , ", " say x"] := by decide +kernel
    simp only [hlines, List.forall_mem_cons]
    exact ⟨by decide, by decide, by decide, by simp⟩
  obtain ⟨-, -, -, -, hexact⟩ := ofSource_exact source
  refine ⟨hclean, (hexact hclean).1.trans ?_⟩
  decide +kernel

/-- A no-break space alone on its line is white space and nothing else, and yet a statement: it has
no text, and the diagnostic about it shows none. -/
theorem ofSource_noBreakSpace :
    HoldsNothing "\u00a0" ∧ Text.lines "\u00a0\n" = ["\u00a0"] ∧
      Line.ofSource "\u00a0\n" = [⟨1, "", ["\u00a0"], none⟩] ∧
      ∃ diagnostic ∈ (compile ∅ "\u00a0\n").assembly.diagnostics.toList,
        diagnostic.source = "" := by
  refine ⟨by decide, by decide +kernel, by decide +kernel, ?_⟩
  exact ⟨(Problem.unknownCommand "\u00a0").diagnostic 1 "", by decide +kernel, rfl⟩

end EventScript
