import Mathlib.Data.List.Basic
import EventScript.Cli.Options

/-!
What arguments ask for, read off the whole list of them. An argument is an option that takes a
value, and then the argument after it is that value whatever it looks like; or it stands for itself
and is a flag, an input or a mistake. The last value of an option counts, and there is one input.

        -o  a.bin   town.script   -v   -o  --help
        └ value ┘       │         │    └ value ┘       output --help, input town.script
                      input      flag
-/

namespace EventScript.Cli

/-- The options with a value that arguments give, with their values. -/
def givenValues : List String → List (ValueOption × String)
  | [] => []
  | argument :: rest =>
    match ValueOption.ofArgument? argument with
    | none => givenValues rest
    | some option =>
      match rest with
      | [] => []
      | value :: rest => (option, value) :: givenValues rest

/-- The arguments that neither take a value nor are one. -/
def plainArguments : List String → List String
  | [] => []
  | argument :: rest =>
    match ValueOption.ofArgument? argument with
    | none => argument :: plainArguments rest
    | some _ =>
      match rest with
      | [] => []
      | _ :: rest => plainArguments rest

/-- The last value that arguments give to an option. -/
def lastValue? (option : ValueOption) (arguments : List String) : Option String :=
  ((givenValues arguments).filterMap fun (given, value) =>
    if given = option then some value else none).getLast?

/-- The inputs that arguments name; an empty argument names none. -/
def inputNames (arguments : List String) : List String :=
  (plainArguments arguments).filter fun argument =>
    argument ≠ "" ∧ Flag.ofArgument? argument = none

theorem plainArguments_cons {argument : String} (h : ValueOption.ofArgument? argument = none)
    (rest : List String) : plainArguments (argument :: rest) = argument :: plainArguments rest := by
  rw [plainArguments.eq_def]
  simp only [h]

theorem lastValue?_append {front rest : List String}
    (h : givenValues (front ++ rest) = givenValues front ++ givenValues rest)
    (option : ValueOption) :
    lastValue? option (front ++ rest) = (lastValue? option rest).or (lastValue? option front) := by
  rw [lastValue?, h, List.filterMap_append, List.getLast?_append, lastValue?, lastValue?]

theorem lastValue?_eq_none {option : ValueOption} {arguments : List String}
    (h : ∀ value, (option, value) ∉ givenValues arguments) :
    lastValue? option arguments = none := by
  rw [lastValue?, List.getLast?_eq_none_iff, List.filterMap_eq_nil_iff]
  rintro ⟨given, value⟩ hmem
  refine if_neg ?_
  rintro rfl
  exact h value hmem

namespace Options

variable {options next result : Options} {argument : String} {arguments rest : List String}

/-- The input that is named so far, if any. -/
def inputs (options : Options) : List String :=
  if options.input = "" then [] else [options.input]

/-- What arguments make of options: the last value of each option counts, and all inputs that are
named are at most one. -/
structure Becomes (options : Options) (arguments : List String) (result : Options) : Prop where
  output : result.output = (lastValue? .output arguments).getD options.output
  commands : result.commands = (lastValue? .commands arguments).or options.commands
  listing : result.listing = (lastValue? .listing arguments).or options.listing
  inputs : result.inputs = options.inputs ++ inputNames arguments

/-- One step after the other, where the arguments of the first are read on their own. -/
theorem Becomes.trans (front : List String)
    (hvalues : givenValues (front ++ rest) = givenValues front ++ givenValues rest)
    (hplain : plainArguments (front ++ rest) = plainArguments front ++ plainArguments rest)
    (h : options.Becomes front next) (hrest : next.Becomes rest result) :
    options.Becomes (front ++ rest) result where
  output := by
    rw [hrest.output, h.output, lastValue?_append hvalues]
    cases lastValue? .output rest <;> rfl
  commands := by rw [hrest.commands, h.commands, lastValue?_append hvalues, Option.or_assoc]
  listing := by rw [hrest.listing, h.listing, lastValue?_append hvalues, Option.or_assoc]
  inputs := by
    rw [hrest.inputs, h.inputs, List.append_assoc]
    congr 1
    rw [inputNames, inputNames, inputNames, hplain, List.filter_append]

theorem becomes_setValue {option : ValueOption}
    (h : ValueOption.ofArgument? argument = some option) (options : Options) (value : String) :
    options.Becomes [argument, value] (options.setValue value option) := by
  have hlast : ∀ other, lastValue? other [argument, value] =
      if option = other then some value else none := by
    intro other
    simp only [lastValue?, givenValues, h]
    by_cases hsame : option = other <;> simp [hsame]
  have hnames : inputNames [argument, value] = [] := by simp [inputNames, plainArguments, h]
  cases option with
  | output | commands | listing =>
    exact ⟨by rw [hlast]; rfl, by rw [hlast]; rfl, by rw [hlast]; rfl,
      by rw [hnames, List.append_nil]; rfl⟩

/-- An argument that takes no value names the input if it is no flag. -/
theorem becomes_add (hplain : ValueOption.ofArgument? argument = none)
    (h : options.add argument = .ok next) : options.Becomes [argument] next := by
  have hlast : ∀ option, lastValue? option [argument] = none := by
    intro option
    simp [lastValue?, givenValues, hplain]
  have hnames : inputNames [argument] =
      if argument ≠ "" ∧ Flag.ofArgument? argument = none then [argument] else [] := by
    simp only [inputNames, plainArguments, hplain, List.filter_cons, List.filter_nil,
      decide_eq_true_eq]
  unfold add at h
  split at h
  · next flag hflag =>
    have hnone : inputNames [argument] = [] := by rw [hnames, if_neg (by simp [hflag])]
    cases flag with
    | help => cases h
    | symbols | verbose =>
      obtain rfl := Except.ok.inj h
      exact ⟨by rw [hlast]; rfl, by rw [hlast]; rfl, by rw [hlast]; rfl,
        by rw [hnone, List.append_nil]; rfl⟩
  · next hflag =>
    split at h
    · cases h
    · unfold setInput at h
      split at h
      · next hempty =>
        obtain rfl := Except.ok.inj h
        have hinput : options.inputs = [] := by
          rw [inputs, if_pos (by simpa using hempty)]
        refine ⟨by rw [hlast]; rfl, by rw [hlast]; rfl, by rw [hlast]; rfl, ?_⟩
        rw [hnames, hinput, List.nil_append, inputs]
        by_cases hargument : argument = "" <;> simp [hargument, hflag]
      · cases h

theorem becomes_addAll (h : options.addAll arguments = .ok result) :
    options.Becomes arguments result := by
  fun_induction Options.addAll options arguments with
  | case1 options =>
    obtain rfl := Except.ok.inj h
    exact ⟨rfl, rfl, rfl, (List.append_nil _).symm⟩
  | case2 options argument option hoption => cases h
  | case3 options argument option hoption value rest ih =>
    exact Becomes.trans [argument, value] (by simp [givenValues, hoption])
      (by simp [plainArguments, hoption]) (becomes_setValue hoption options value) (ih h)
  | case4 options argument rest hoption stop hadd => cases h
  | case5 options argument rest hoption next hadd ih =>
    exact Becomes.trans [argument] (by simp [givenValues, hoption])
      (by simp [plainArguments_cons hoption, plainArguments]) (becomes_add hoption hadd) (ih h)

/-- The options that arguments ask for: the last values, and the one input that is named. -/
theorem becomes_of_arguments (h : ofArguments arguments = .ok result) :
    empty.Becomes arguments result ∧ inputNames arguments = [result.input] := by
  unfold ofArguments at h
  split at h
  · cases h
  · cases hall : empty.addAll arguments with
    | error stop => simp [hall] at h
    | ok options =>
      simp only [hall] at h
      split at h
      · cases h
      · next hinput =>
        obtain rfl := Except.ok.inj h
        have hbecomes := becomes_addAll hall
        refine ⟨hbecomes, ?_⟩
        have hinputs : [options.input] = empty.inputs ++ inputNames arguments := by
          rw [← hbecomes.inputs, inputs, if_neg (by simpa using hinput)]
        exact hinputs.symm

end Options

/-! ### Help -/

namespace Options

end Options

end EventScript.Cli
