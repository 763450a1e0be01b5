import EventScript.Proofs.Physical
import EventScript.Proofs.Quoting
import EventScript.Proofs.Wording

/-!
Layout of a source text. Lines without a statement, directives, comments, the choice of separators
and the line ends are layout: they make no difference to what the program says, and so none to what
it is compiled to.

        jump top                     jump,  top       ; again
                          and        .map town
        top:                         top:
-/

namespace EventScript

open Text (AtLineStart LineEnd withoutReturn withReturns)
open Token (Closed Outside)

/-! ### Edits -/

/-- A line that says nothing: separators, perhaps a comment after them, or a directive with
whatever follows it. -/
inductive IdleLine : List Char → Prop
  | blank {gap : List Char} (hgap : ∀ c ∈ gap, Token.isSeparator c = true) : IdleLine gap
  | comment {gap text : List Char} (hgap : ∀ c ∈ gap, Token.isSeparator c = true) :
      IdleLine (gap ++ ';' :: text)
  | directive {gap name more : List Char} (hgap : ∀ c ∈ gap, Token.isSeparator c = true)
      (hname : Token.isNameChars name = true)
      (hmore : ∀ c, more.head? = some c → Token.endsWord c = true) :
      IdleLine (gap ++ ('.' :: name ++ more))

/-- One edit of the layout of a source text. -/
inductive Relaid : (source edited : List Char) → Prop
  /-- A line that says nothing is put in front of a line. -/
  | insert {front line back : List Char} (hfront : AtLineStart front) (hline : '\n' ∉ line)
      (hidle : IdleLine line) : Relaid (front ++ back) (front ++ (line ++ '\n' :: back))
  /-- A comment is put at the end of a line that leaves no quote open. -/
  | comment {front line text rest back : List Char} (hfront : AtLineStart front)
      (hline : '\n' ∉ line) (hclosed : Closed line) (htext : '\n' ∉ text)
      (hend : LineEnd rest back) :
      Relaid (front ++ (line ++ rest)) (front ++ ((line ++ ';' :: text) ++ rest))
  /-- Separators outside quotes and comments give way to other ones. -/
  | respace {front before gap other rest : List Char} (hfront : AtLineStart front)
      (hbefore : '\n' ∉ before) (houtside : Outside before) (hgap : Token.IsGap gap)
      (hfeed : '\n' ∉ gap) (hother : other ≠ [])
      (hblank : ∀ c ∈ other, c = ' ' ∨ c = '\t' ∨ c = '\x0C' ∨ c = ',') :
      Relaid (front ++ (before ++ (gap ++ rest))) (front ++ (before ++ (other ++ rest)))
  /-- All line ends become the longer ones. -/
  | returns {source : List Char} (hsource : '\r' ∉ source) : Relaid source (withReturns source)

/-! ### Wording of a text -/

/-- Tokens that say something: there are some, and the first is no directive. -/
def speaks : List (List Char) → Bool
  | [] => false
  | first :: _ => !Token.isDirectiveChars first

/-- What one line says, if anything. -/
def lineWording (line : List Char) : List (List (List Char)) :=
  [Token.scanTokens line].filter speaks

/-- What a text says. -/
def textWording (source : List Char) : List (List (List Char)) :=
  (Text.charLines source).flatMap lineWording

theorem wording_filterMap (raws : List (List Char)) (k : Nat) :
    wording (((raws.map String.ofList).zipIdx k).filterMap fun (raw, number) =>
        Line.ofPhysical? raw number) =
      (raws.flatMap lineWording).map (List.map String.ofList) := by
  induction raws generalizing k with
  | nil => rfl
  | cons raw rest ih =>
    rw [List.map_cons, List.zipIdx_cons, List.filterMap_cons, List.flatMap_cons, List.map_append,
      ← ih (k + 1)]
    have htokens : Token.tokenize (String.ofList raw) =
        (Token.scanTokens raw).map String.ofList := by
      rw [Token.tokenize, String.toList_ofList]
    simp only [Line.ofPhysical?, htokens, lineWording]
    cases Token.scanTokens raw with
    | nil => rfl
    | cons first tokens =>
      have hdirective : Token.isDirective (String.ofList first) = Token.isDirectiveChars first := by
        rw [Token.isDirective, String.toList_ofList]
      cases hfirst : Token.isDirectiveChars first with
      | true => simp [wording, Line.isDirective, speaks, hdirective, hfirst]
      | false => simp [wording, Line.isDirective, speaks, hdirective, hfirst]

theorem wording_ofSource (source : String) :
    wording (Line.ofSource source) =
      (textWording source.toList).map (List.map String.ofList) :=
  wording_filterMap (Text.charLines source.toList) 1

/-! ### Lines in a text -/

theorem textWording_append {front : List Char} (h : AtLineStart front) (back : List Char) :
    textWording (front ++ back) = textWording front ++ textWording back := by
  rw [textWording, Text.charLines_append h, List.flatMap_append, textWording, textWording]

theorem textWording_line {line : List Char} (h : '\n' ∉ line) :
    textWording line = lineWording line := by
  rw [textWording, Text.charLines_of_no_feed line h]
  cases line with
  | nil => rfl
  | cons c rest => simp

theorem textWording_feed {line : List Char} (h : '\n' ∉ line) (back : List Char) :
    textWording (line ++ '\n' :: back) =
      lineWording (withoutReturn line) ++ textWording back := by
  rw [textWording, Text.charLines_feed h, List.flatMap_cons, textWording]

theorem lineWording_withoutReturn {line : List Char} (h : Closed line) :
    lineWording (withoutReturn line) = lineWording line := by
  rcases Text.withoutReturn_eq line with hsame | hreturn
  · rw [hsame]
  · rw [hreturn] at h
    have htokens := Token.scanTokens_return (Token.closed_of_return h)
    rw [← hreturn] at htokens
    rw [lineWording, lineWording, htokens]

/-- A line that leaves no quote open says the same whatever its line end. -/
theorem textWording_closed {line rest back : List Char} (hline : '\n' ∉ line)
    (hclosed : Closed line) (hend : LineEnd rest back) :
    textWording (line ++ rest) = lineWording line ++ textWording back := by
  cases hend with
  | last =>
    have hnil : textWording [] = [] := rfl
    rw [List.append_nil, textWording_line hline, hnil, List.append_nil]
  | feed back => rw [textWording_feed hline, lineWording_withoutReturn hclosed]
  | returnFeed back =>
    have hfeed : '\n' ∉ line ++ ['\r'] := by simp [hline]
    rw [List.append_cons, textWording_feed hfeed, Text.withoutReturn_concat]

/-! ### Idle lines -/

theorem IdleLine.withoutReturn {line : List Char} (h : IdleLine line) :
    IdleLine (Text.withoutReturn line) := by
  cases h with
  | blank hgap => exact .blank fun c hmem => hgap c ((Text.isPrefix_withoutReturn _).mem hmem)
  | comment hgap =>
    rw [Text.withoutReturn_append _ (List.cons_ne_nil _ _), Text.withoutReturn_cons (by decide)]
    exact .comment hgap
  | @directive gap name more hgap hname hmore =>
    have hkeep : ∀ c ∈ '.' :: name, c ≠ '\r' := by
      intro c hmem heq
      rcases List.mem_cons.mp hmem with rfl | hmem
      · exact absurd heq (by decide)
      · have hcontinues := Token.continuesName_of_isNameChars hname c hmem
        rw [heq] at hcontinues
        exact absurd hcontinues (by decide)
    rw [Text.withoutReturn_append _ (by simp), Text.withoutReturn_append_of_ne hkeep]
    refine .directive hgap hname fun c hc => hmore c ?_
    obtain ⟨tail, htail⟩ := Text.isPrefix_withoutReturn more
    rw [← htail, List.head?_append, hc, Option.some_or]

theorem lineWording_idle {line : List Char} (h : IdleLine line) : lineWording line = [] := by
  unfold lineWording
  rw [Token.scanTokens_eq]
  cases h with
  | blank hgap =>
    rw [Token.Scan.start, Token.run_separators [] line hgap]
    rfl
  | @comment gap text hgap =>
    rw [Token.Scan.start, Token.run_append, Token.run_separators [] gap hgap,
      Token.run_semicolon (.inl rfl)]
    rfl
  | @directive gap name more hgap hname hmore =>
    have hword : ∀ c ∈ '.' :: name, Token.endsWord c = false := by
      intro c hmem
      rcases List.mem_cons.mp hmem with rfl | hmem
      · decide
      · exact Token.endsWord_of_continuesName (Token.continuesName_of_isNameChars hname c hmem)
    rw [Token.Scan.start, Token.run_append, Token.run_separators [] gap hgap, Token.run_append,
      Token.run_word (List.cons_ne_nil _ _) hword, List.filter_eq_nil_iff]
    intro tokens hmem
    rw [List.mem_singleton] at hmem
    -- the directive is the first token, whatever the others are
    have hfirst : ['.' :: name] <:+
        (Token.run ⟨.word ('.' :: name).reverse, []⟩ more).settled := by
      cases more with
      | nil => simp [Token.Scan.settled]
      | cons c rest =>
        rw [Token.run_cons, Token.Scan.IsOutside.step_of_endsWord (.inr ⟨_, rfl⟩) (hmore c rfl)]
        simpa [Token.Scan.settled] using
          Token.finished_suffix_settled_run ⟨Token.Scan.enter c, ['.' :: name]⟩ rest
    obtain ⟨later, hlater⟩ := hfirst
    rw [← hlater, List.reverse_append] at hmem
    subst hmem
    simp [speaks, Token.isDirectiveChars, hname]

/-! ### Edits say the same -/

theorem lineWording_respace {before gap other : List Char} (h : Outside before)
    (hgap : Token.IsGap gap) (hother : Token.IsGap other) (after : List Char) :
    lineWording (withoutReturn (before ++ (gap ++ after))) =
      lineWording (withoutReturn (before ++ (other ++ after))) := by
  cases after with
  | nil =>
    have hsame := Token.scanTokens_respace h hgap hother []
    simp only [List.append_nil] at hsame ⊢
    rw [lineWording_withoutReturn (h.closed_gap hgap),
      lineWording_withoutReturn (h.closed_gap hother), lineWording, hsame, lineWording]
  | cons c rest =>
    have hne := List.cons_ne_nil c rest
    have hpush : ∀ blanks : List Char, withoutReturn (before ++ (blanks ++ c :: rest)) =
        before ++ (blanks ++ withoutReturn (c :: rest)) := by
      intro blanks
      rw [← List.append_assoc, Text.withoutReturn_append _ hne, List.append_assoc]
    rw [hpush, hpush, lineWording, Token.scanTokens_respace h hgap hother, lineWording]

/-- An edit of the layout changes nothing of what a text says. -/
theorem Relaid.textWording {source edited : List Char} (h : Relaid source edited) :
    textWording edited = textWording source := by
  cases h with
  | insert hfront hline hidle =>
    rw [textWording_append hfront, textWording_append hfront, textWording_feed hline,
      lineWording_idle hidle.withoutReturn, List.nil_append]
  | @comment front line text rest back hfront hline hclosed htext hend =>
    have hlonger : '\n' ∉ line ++ ';' :: text := by simp [hline, htext]
    rw [textWording_append hfront, textWording_append hfront, textWording_closed hline hclosed hend,
      textWording_closed hlonger (hclosed.comment text) hend, lineWording,
      Token.scanTokens_comment hclosed, lineWording]
  | @respace front before gap other rest hfront hbefore houtside hgap hfeed hother hblank =>
    have hblanks : Token.IsGap other := by
      refine ⟨hother, fun c hmem => ?_⟩
      rcases hblank c hmem with rfl | rfl | rfl | rfl <;> decide
    have hfeed' : '\n' ∉ other := by
      intro hmem
      rcases hblank _ hmem with h | h | h | h <;> exact absurd h (by decide)
    rw [textWording_append hfront, textWording_append hfront]
    congr 1
    -- only the line with the separators in it matters
    obtain ⟨after, hafter, hrest⟩ := Text.exists_line rest
    have hline : '\n' ∉ before ++ (gap ++ after) := by simp [hbefore, hfeed, hafter]
    have hline' : '\n' ∉ before ++ (other ++ after) := by simp [hbefore, hfeed', hafter]
    rcases hrest with hrest | ⟨back, hrest⟩
    · rw [hrest, textWording_line hline, textWording_line hline', lineWording,
        Token.scanTokens_respace houtside hblanks hgap, lineWording]
    · subst hrest
      have hfirst := textWording_feed hline back
      have hsecond := textWording_feed hline' back
      simp only [List.append_assoc] at hfirst hsecond
      rw [hfirst, hsecond, lineWording_respace houtside hblanks hgap]
  | returns hsource =>
    rw [EventScript.textWording, Text.charLines_withReturns hsource, EventScript.textWording]

/-! ### Compilation -/

/-- Layout makes no difference. Sources that say the same are compiled to the same bytes, labels and
variables and report the same in the same words; and no edit of the layout changes what a source
says. -/
theorem compile_layout (commands : Command.Table) :
    (∀ source other : String, wording (Line.ofSource source) = wording (Line.ofSource other) →
      let assembly := (compile commands source).assembly
      let assembly' := (compile commands other).assembly
      assembly.output.toList = assembly'.output.toList ∧
        assembly.labels.toList = assembly'.labels.toList ∧
        assembly.vars.toList = assembly'.vars.toList ∧
        assembly.diagnostics.toList.map Diagnostic.words =
          assembly'.diagnostics.toList.map Diagnostic.words) ∧
      ∀ source edited : String, Relaid source.toList edited.toList →
        wording (Line.ofSource edited) = wording (Line.ofSource source) := by
  constructor
  · intro source other hsame
    exact (SaysSame.of_wording hsame commands).assembly
  · intro source edited hrelaid
    rw [wording_ofSource, wording_ofSource, hrelaid.textWording]

/-- A jump with other separators says the same, and so it is compiled to the same. -/
theorem compile_layout_jump :
    Relaid "top:\njump top".toList "top:\njump,\ttop".toList ∧
      wording (Line.ofSource "top:\njump,\ttop") = wording (Line.ofSource "top:\njump top") ∧
      (compile greetingCommands "top:\njump,\ttop").assembly.output.toList =
        (compile greetingCommands "top:\njump top").assembly.output.toList := by
  have hrelaid : Relaid "top:\njump top".toList "top:\njump,\ttop".toList :=
    @Relaid.respace "top:\n".toList "jump".toList [' '] [',', '\t'] "top".toList
      (.inr ⟨"top:".toList, by decide⟩) (by simp) (Token.outside_of_forall (by simp))
      ⟨by simp, List.forall_mem_singleton.mpr rfl⟩ (by simp) (by simp) (by simp)
  have hsame := (compile_layout greetingCommands).2 _ _ hrelaid
  exact ⟨hrelaid, hsame, ((compile_layout greetingCommands).1 _ _ hsame).1⟩

end EventScript
