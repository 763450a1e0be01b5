import EventScript.Proofs.Inputs

/-!
Arguments in another order. Arguments that belong together are a group: an option and the value
after it, a switch, or the name of the input. A value is taken as it is, so groups are found again
from the left, whatever the values look like. What groups ask for hangs on their order only where
several of them give one option its value.

        -o  -h    town.script   -v       -o  town.bin
        └ value   └ input       └ switch └ value, the last output counts

        -v       -o  -h    -o  town.bin    town.script     asks for the same
        └ switch └ value   └ value         └ input
-/

namespace EventScript.Cli

/-! ### Groups -/

/-- How an option with a value is written. -/
def ValueOption.words : ValueOption → List String
  | .output => ["-o", "--output"]
  | .commands => ["--commands"]
  | .listing => ["-l", "--listing"]

/-- A flag that does not end the reading of the arguments. -/
inductive Switch where
  | symbols
  | verbose
  deriving DecidableEq, Repr

/-- How a switch is written. -/
def Switch.words : Switch → List String
  | .symbols => ["--symbols"]
  | .verbose => ["-v", "--verbose"]

/-- The flag that a switch is. -/
def Switch.flag : Switch → Flag
  | .symbols => .symbols
  | .verbose => .verbose

/-- Arguments that belong together. -/
inductive Group where
  | setting (option : ValueOption) (word : { word // word ∈ option.words }) (value : String)
  | switch (switch : Switch) (word : { word // word ∈ switch.words })
  | input (name : { name : String // name ≠ "" ∧ name.toList.head? ≠ some '-' })
  deriving DecidableEq

namespace Group

/-- A group as it is written. -/
def arguments : Group → List String
  | .setting _ word value => [word, value]
  | .switch _ word => [word]
  | .input name => [name]

/-- The value that a group gives to an option. -/
def valueOf? (option : ValueOption) : Group → Option String
  | .setting given _ value => if given = option then some value else none
  | .switch .. | .input _ => none

/-- The group gives an option its value. -/
def isValueOf (option : ValueOption) (group : Group) : Bool := (group.valueOf? option).isSome

/-- The input that a group names. -/
def input? : Group → Option String
  | .input name => some name
  | .setting .. | .switch .. => none

/-- The group is a switch. -/
def isSwitch (switch : Switch) : Group → Bool
  | .switch given _ => given = switch
  | .setting .. | .input _ => false

theorem ne_of_input? {group : Group} {name : String} (h : group.input? = some name) :
    name ≠ "" := by
  cases group with
  | input given =>
    obtain rfl := Option.some.inj h
    exact given.property.1
  | setting | switch => cases h

/-- The values of an option come from the groups that give it one. -/
theorem filterMap_filter_isValueOf (option : ValueOption) (groups : List Group) :
    (groups.filter (isValueOf option)).filterMap (valueOf? option) =
      groups.filterMap (valueOf? option) := by
  rw [List.filterMap_filter]
  refine List.filterMap_congr fun group _ => ?_
  cases hvalue : group.valueOf? option <;> simp [isValueOf, hvalue]

end Group

/-- Groups as they are written, one after the other. -/
def written (groups : List Group) : List String := groups.flatMap Group.arguments

/-- The same groups in another order, in which groups that give values to one option stand in the
order that they have. -/
structure Reordered (groups others : List Group) : Prop where
  perm : groups.Perm others
  values : ∀ option, groups.filter (Group.isValueOf option) = others.filter (Group.isValueOf option)

theorem Reordered.names_input {groups others : List Group} {name : String}
    (horder : Reordered groups others) (h : groups.filterMap Group.input? = [name]) :
    others.filterMap Group.input? = [name] := by
  have hperm := horder.perm.filterMap Group.input?
  rw [h] at hperm
  exact List.perm_singleton.mp hperm.symm

/-! ### Words -/

theorem ValueOption.ofArgument?_of_mem_words {option : ValueOption} {word : String}
    (h : word ∈ option.words) : ofArgument? word = some option := by
  cases option with
  | output | commands | listing =>
    simp only [words, List.mem_cons, List.not_mem_nil, or_false] at h
    rcases h with rfl | rfl <;> decide

theorem Switch.ofArgument?_of_mem_words {switch : Switch} {word : String}
    (h : word ∈ switch.words) :
    ValueOption.ofArgument? word = none ∧ Flag.ofArgument? word = some switch.flag := by
  cases switch with
  | symbols | verbose =>
    simp only [words, List.mem_cons, List.not_mem_nil, or_false] at h
    rcases h with rfl | rfl <;> decide

/-- What does not start with a hyphen is neither an option nor a flag. -/
theorem ofArgument?_of_head? {argument : String} (h : argument.toList.head? ≠ some '-') :
    ValueOption.ofArgument? argument = none ∧ Flag.ofArgument? argument = none := by
  have hne : ∀ word : String, word.toList.head? = some '-' → argument ≠ word := by
    rintro word hword rfl
    exact h hword
  constructor
  · simp only [ValueOption.ofArgument?, hne "-o" rfl, hne "--output" rfl, hne "--commands" rfl,
      hne "-l" rfl, hne "--listing" rfl, decide_false, Bool.or_self, Bool.false_eq_true, if_false]
  · simp only [Flag.ofArgument?, hne "--symbols" rfl, hne "-v" rfl, hne "--verbose" rfl,
      hne "-h" rfl, hne "--help" rfl, decide_false, Bool.or_self, Bool.false_eq_true, if_false]

/-! ### Options -/

namespace Options

/-- The options that groups leave, given those that they find: the last value of each option counts,
and every switch stays. -/
def after (options : Options) (groups : List Group) : Options where
  input := (groups.filterMap Group.input?).getLast?.getD options.input
  output := (groups.filterMap (Group.valueOf? .output)).getLast?.getD options.output
  commands := (groups.filterMap (Group.valueOf? .commands)).getLast?.or options.commands
  listing := (groups.filterMap (Group.valueOf? .listing)).getLast?.or options.listing
  symbols := options.symbols || groups.any (Group.isSwitch .symbols)
  verbose := options.verbose || groups.any (Group.isSwitch .verbose)

theorem after_append (options : Options) (groups more : List Group) :
    options.after (groups ++ more) = (options.after groups).after more := by
  simp only [after, List.filterMap_append, List.getLast?_append, List.any_append, Bool.or_assoc,
    Option.or_assoc, Option.getD_or]

/-- One group is read, and the rest after it. -/
theorem addAll_arguments (group : Group) {options : Options}
    (h : ∀ name, group.input? = some name → options.input = "") (rest : List String) :
    options.addAll (group.arguments ++ rest) = (options.after [group]).addAll rest := by
  cases group with
  | setting option word value =>
    have hword := ValueOption.ofArgument?_of_mem_words word.property
    have hset : options.setValue value option = options.after [.setting option word value] := by
      cases option with
      | output | commands | listing =>
        simp [setValue, after, Group.valueOf?, Group.input?, Group.isSwitch]
    rw [← hset]
    simp only [Group.arguments, List.cons_append, List.nil_append, addAll, hword]
  | switch switch word =>
    obtain ⟨hvalue, hflag⟩ := Switch.ofArgument?_of_mem_words word.property
    have hset : options.setFlag switch.flag = .ok (options.after [.switch switch word]) := by
      cases switch with
      | symbols | verbose =>
        simp [setFlag, Switch.flag, after, Group.valueOf?, Group.input?, Group.isSwitch]
    rw [Group.arguments, List.singleton_append, addAll.eq_def]
    simp only [hvalue, add, hflag, hset]
  | input name =>
    obtain ⟨hvalue, hflag⟩ := ofArgument?_of_head? name.property.2
    have hempty : options.input.isEmpty = true := by simp [h name rfl]
    have hset : options.setInput name = .ok (options.after [.input name]) := by
      rw [setInput, if_pos hempty]
      simp [after, Group.valueOf?, Group.input?, Group.isSwitch]
    rw [Group.arguments, List.singleton_append, addAll.eq_def]
    simp only [hvalue, add, hflag, name.property.2, if_false, hset]

theorem inputs_after (group : Group) {options : Options}
    (h : ∀ name, group.input? = some name → options.input = "") :
    (options.after [group]).inputs = options.inputs ++ group.input?.toList := by
  cases group with
  | setting option word value => simp [inputs, after, Group.input?]
  | switch switch word => simp [inputs, after, Group.input?]
  | input name => simp [inputs, after, Group.input?, h name rfl, name.property.1]

/-- Groups are read one after the other, as long as all inputs that are named are at most one. -/
theorem addAll_written (groups : List Group) (options : Options)
    (h : (options.inputs ++ groups.filterMap Group.input?).length ≤ 1) :
    options.addAll (written groups) = .ok (options.after groups) := by
  induction groups generalizing options with
  | nil => simp [written, addAll, after]
  | cons group rest ih =>
    have hfirst : (group :: rest).filterMap Group.input? =
        group.input?.toList ++ rest.filterMap Group.input? := by
      cases hgroup : group.input? <;> simp [hgroup]
    rw [hfirst] at h
    have hinput : ∀ name, group.input? = some name → options.input = "" := by
      intro name hname
      by_contra hnamed
      simp [inputs, hnamed, hname] at h
    calc options.addAll (written (group :: rest))
        = options.addAll (group.arguments ++ written rest) := by
          rw [written, List.flatMap_cons, written]
      _ = (options.after [group]).addAll (written rest) := addAll_arguments group hinput _
      _ = .ok ((options.after [group]).after rest) := by
          apply ih
          rwa [inputs_after group hinput, List.append_assoc]
      _ = .ok (options.after (group :: rest)) := by rw [← after_append, List.singleton_append]

/-- Groups that name one input ask for it, and for the last value of each option that they give. -/
theorem ofArguments_written {groups : List Group} {name : String}
    (h : groups.filterMap Group.input? = [name]) :
    ofArguments (written groups) = .ok (empty.after groups) := by
  have hall : empty.addAll (written groups) = .ok (empty.after groups) :=
    addAll_written groups empty (by simp [h, inputs, empty])
  have hnamed : (empty.after groups).input ≠ "" := by
    have hmem : name ∈ groups.filterMap Group.input? := by simp [h]
    obtain ⟨group, -, hgroup⟩ := List.mem_filterMap.mp hmem
    simpa [after, h] using Group.ne_of_input? hgroup
  unfold ofArguments
  split
  · next hnil =>
    rw [hnil] at hall
    rw [← Except.ok.inj hall] at hnamed
    exact absurd rfl hnamed
  · rw [hall]
    simp [hnamed]

theorem after_reordered {groups others : List Group} {name : String}
    (h : groups.filterMap Group.input? = [name]) (horder : Reordered groups others)
    (options : Options) : options.after others = options.after groups := by
  have hinput : others.filterMap Group.input? = groups.filterMap Group.input? := by
    rw [h, horder.names_input h]
  have hvalue : ∀ option,
      others.filterMap (Group.valueOf? option) = groups.filterMap (Group.valueOf? option) := by
    intro option
    rw [← Group.filterMap_filter_isValueOf, ← horder.values, Group.filterMap_filter_isValueOf]
  have hswitch : ∀ switch,
      others.any (Group.isSwitch switch) = groups.any (Group.isSwitch switch) :=
    fun switch => horder.perm.symm.any_eq
  simp only [after, hinput, hvalue, hswitch]

end Options

/-! ### Runs -/

/-- The order of the groups does not matter. -/
theorem outcome_reordered {groups others : List Group} {name : String}
    (h : groups.filterMap Group.input? = [name]) (horder : Reordered groups others)
    (files : FileTree) :
    Options.ofArguments (written groups) = .ok (Options.empty.after groups) ∧
      (compiler (written others)).run files = (compiler (written groups)).run files := by
  have hasked := Options.ofArguments_written h
  refine ⟨hasked, ?_⟩
  unfold compiler
  rw [hasked, Options.ofArguments_written (horder.names_input h), Options.after_reordered h horder]

/-- Values that look like options, and two outputs, of which the last counts. -/
theorem outcome_reordered_town :
    let output (word value : String) (h : word ∈ ValueOption.output.words) : Group :=
      .setting .output ⟨word, h⟩ value
    let help := output "-o" "-h" (by decide)
    let town := output "--output" "town.bin" (by decide)
    let listing : Group := .setting .listing ⟨"-l", by decide⟩ "-o"
    let verbose : Group := .switch .verbose ⟨"-v", by decide⟩
    let input : Group := .input ⟨"town.script", by decide⟩
    let groups := [help, input, listing, verbose, town]
    let others := [verbose, listing, help, town, input]
    let outcome := (compiler (written groups)).run (scriptFiles "town.script")
    groups.filterMap Group.input? = ["town.script"] ∧ Reordered groups others ∧
      written groups = ["-o", "-h", "town.script", "-l", "-o", "-v", "--output", "town.bin"] ∧
      written others = ["-v", "-l", "-o", "-o", "-h", "--output", "town.bin", "town.script"] ∧
      Options.ofArguments (written groups) =
        .ok ⟨"town.script", "town.bin", none, some "-o", false, true⟩ ∧
      outcome.status = 0 ∧ outcome.console.files.read "town.bin" = .ok ⟨#[0]⟩ ∧
      (compiler (written others)).run (scriptFiles "town.script") = outcome := by
  intro output help town listing verbose input groups others outcome
  have hinput : groups.filterMap Group.input? = ["town.script"] := by decide +kernel
  have horder : Reordered groups others := by
    refine ⟨by decide +kernel, fun option => ?_⟩
    cases option <;> decide +kernel
  obtain ⟨hasked, hsame⟩ := outcome_reordered hinput horder (scriptFiles "town.script")
  have hoptions : Options.empty.after groups =
      ⟨"town.script", "town.bin", none, some "-o", false, true⟩ := by decide +kernel
  have hrun : outcome.status = 0 ∧ outcome.console.files.read "town.bin" = .ok ⟨#[0]⟩ := by
    decide +kernel
  rw [hoptions] at hasked
  exact ⟨hinput, horder, by decide +kernel, by decide +kernel, hasked, hrun.1, hrun.2, hsame⟩

end EventScript.Cli
