import EventScript.Command.Document
import EventScript.Proofs.LetterCase
import EventScript.Proofs.Sequence

/-!
Loading a command table. A table is loaded exactly from entries that go together: known specs only,
and a mnemonic for every command that no other command has, the case of ASCII letters aside. Else
the first entry that does not go with those before it says what is wrong.

        specs     mnemonic              answer
        unknown   any                   unknown parameter, the first such spec
        known     empty                 empty mnemonic
        known     held already          defined more than once
        known     new                   one more command at the end

Commands can also be put into a table one by one. One that is refused leaves nothing behind, so a
mnemonic finds the first command that was offered for it.
-/

namespace EventScript

/-! ### Specs -/

namespace Parameter

/-- The specs that there are. -/
def specs : List String := ["s", "e", "l", "d", "v", "#", "##", "###", "####"]

theorem spec_of_ofSpec? {spec : String} {parameter : Parameter}
    (h : ofSpec? spec = some parameter) : parameter.spec = spec := by
  rw [Parameter.spec, specChars_of_ofSpecChars? h, String.ofList_toList]

theorem isSome_ofSpec?_iff {spec : String} : (ofSpec? spec).isSome = true ↔ spec ∈ specs := by
  constructor
  · intro hsome
    obtain ⟨parameter, h⟩ := Option.isSome_iff_exists.mp hsome
    obtain rfl := spec_of_ofSpec? h
    cases parameter with
    | number width =>
      obtain ⟨hpos, hle⟩ := width_of_ofSpec? h
      have hwidth : width = 1 ∨ width = 2 ∨ width = 3 ∨ width = 4 := by
        rw [maxWidth] at hle
        omega
      rcases hwidth with rfl | rfl | rfl | rfl <;> decide
    | string | either | label | declaration | «variable» => decide
  · intro hmem
    have hall : specs.all (fun spec => (ofSpec? spec).isSome) = true := by decide
    exact List.all_eq_true.mp hall spec hmem

end Parameter

namespace Command

/-- A command as it is written down. -/
def entry (command : Command) : Entry :=
  ⟨command.mnemonic, command.opcode, command.parameters.map Parameter.spec⟩

theorem exists_parameters (mnemonic : String) {specs : List String}
    (h : ∀ spec ∈ specs, spec ∈ Parameter.specs) :
    ∃ parameters, parameters? mnemonic specs = .ok parameters ∧
      parameters.map Parameter.spec = specs := by
  induction specs with
  | nil => exact ⟨[], rfl, rfl⟩
  | cons spec rest ih =>
    obtain ⟨hspec, hrest⟩ := List.forall_mem_cons.mp h
    obtain ⟨parameter, hparameter⟩ :=
      Option.isSome_iff_exists.mp (Parameter.isSome_ofSpec?_iff.mpr hspec)
    obtain ⟨parameters, hparameters, hback⟩ := ih hrest
    refine ⟨parameter :: parameters, ?_, ?_⟩
    · simp only [parameters?, hparameter, hparameters]
    · rw [List.map_cons, hback, Parameter.spec_of_ofSpec? hparameter]

/-- The first unknown spec stops the reading of the specs. -/
theorem parameters?_of_unknown (mnemonic : String) {known : List String} {spec : String}
    (hknown : ∀ other ∈ known, other ∈ Parameter.specs) (hspec : spec ∉ Parameter.specs)
    (rest : List String) :
    parameters? mnemonic (known ++ spec :: rest) = .error (.unknownParameter mnemonic spec) := by
  induction known with
  | nil =>
    have hnone : Parameter.ofSpec? spec = none :=
      Option.not_isSome_iff_eq_none.mp (mt Parameter.isSome_ofSpec?_iff.mp hspec)
    simp only [List.nil_append, parameters?, hnone]
  | cons first known ih =>
    obtain ⟨hfirst, hothers⟩ := List.forall_mem_cons.mp hknown
    obtain ⟨parameter, hparameter⟩ :=
      Option.isSome_iff_exists.mp (Parameter.isSome_ofSpec?_iff.mpr hfirst)
    simp only [List.cons_append, parameters?, hparameter, ih hothers]

/-! ### Mnemonics -/

/-- A mnemonic that can go with those that are held. -/
structure IsNew (held : List String) (mnemonic : String) : Prop where
  named : mnemonic ≠ ""
  distinct : ∀ other ∈ held, ¬EqIgnoringCase other mnemonic

/-- Why a mnemonic cannot go with those that are held. -/
inductive Refusal (held : List String) (mnemonic : String) : TableError → Prop where
  | unnamed (h : mnemonic = "") : Refusal held mnemonic .emptyMnemonic
  | repeated (hnamed : mnemonic ≠ "") (h : ∃ other ∈ held, EqIgnoringCase other mnemonic) :
      Refusal held mnemonic (.duplicate mnemonic)

theorem isNew_iff {held : List String} {mnemonic : String} :
    IsNew held mnemonic ↔ mnemonic ≠ "" ∧ ¬∃ other ∈ held, EqIgnoringCase other mnemonic := by
  constructor
  · rintro ⟨hnamed, hdistinct⟩
    exact ⟨hnamed, fun ⟨other, hmem, heq⟩ => hdistinct other hmem heq⟩
  · rintro ⟨hnamed, hdistinct⟩
    exact ⟨hnamed, fun other hmem heq => hdistinct ⟨other, hmem, heq⟩⟩

instance (held : List String) (mnemonic : String) : Decidable (IsNew held mnemonic) :=
  decidable_of_iff _ isNew_iff.symm

theorem isNew_or_refusal (held : List String) (mnemonic : String) :
    IsNew held mnemonic ∨ ∃ e, Refusal held mnemonic e := by
  by_cases hnamed : mnemonic = ""
  · exact .inr ⟨_, .unnamed hnamed⟩
  · by_cases hheld : ∃ other ∈ held, EqIgnoringCase other mnemonic
    · exact .inr ⟨_, .repeated hnamed hheld⟩
    · exact .inl (isNew_iff.mpr ⟨hnamed, hheld⟩)

theorem Refusal.not_isNew {held : List String} {mnemonic : String} {e : TableError}
    (h : Refusal held mnemonic e) : ¬IsNew held mnemonic := by
  rw [isNew_iff]
  cases h with
  | unnamed h => exact fun hnew => hnew.1 h
  | repeated _ h => exact fun hnew => hnew.2 h

namespace Table

/-- The mnemonics of a table, in order. -/
def mnemonics (table : Table) : List String := table.toList.map (·.mnemonic)

theorem get?_eq_some_iff_eqIgnoringCase {table : Table} {mnemonic : String} {command : Command} :
    table.get? mnemonic = some command ↔
      command ∈ table.toList ∧ EqIgnoringCase command.mnemonic mnemonic := by
  rw [get?_eq_some_iff, key_eq_iff]

theorem isSome_get?_iff {table : Table} {mnemonic : String} :
    (table.get? mnemonic).isSome = true ↔
      ∃ other ∈ table.mnemonics, EqIgnoringCase other mnemonic := by
  simp only [mnemonics, Option.isSome_iff_exists, get?_eq_some_iff_eqIgnoringCase, List.mem_map,
    exists_exists_and_eq_and]

theorem insert_of_isNew {table : Table} {command : Command}
    (h : IsNew table.mnemonics command.mnemonic) :
    table.insert command = .ok (table.add command) ∧
      (table.add command).toList = table.toList ++ [command] := by
  have hnone : table.get? command.mnemonic = none := by
    rw [← Option.not_isSome_iff_eq_none, isSome_get?_iff]
    rintro ⟨other, hmem, heq⟩
    exact h.distinct other hmem heq
  constructor
  · have hempty : command.mnemonic.isEmpty = false := by simpa using h.named
    simp [insert, hempty, hnone]
  · rw [toList, toList, add, Registry.toList_add_of_get?_eq_none hnone, List.map_append,
      List.map_singleton]

theorem insert_of_refusal {table : Table} {command : Command} {e : TableError}
    (h : Refusal table.mnemonics command.mnemonic e) : table.insert command = .error e := by
  cases h with
  | unnamed h => simp [insert, h]
  | repeated hnamed h =>
    have hempty : command.mnemonic.isEmpty = false := by simpa using hnamed
    simp [insert, hempty, isSome_get?_iff.mpr h]

theorem insert_eq_error_iff {table : Table} {command : Command} {e : TableError} :
    table.insert command = .error e ↔ Refusal table.mnemonics command.mnemonic e := by
  refine ⟨fun h => ?_, insert_of_refusal⟩
  rcases isNew_or_refusal table.mnemonics command.mnemonic with hnew | ⟨other, hother⟩
  · rw [(insert_of_isNew hnew).1] at h
    cases h
  · rw [insert_of_refusal hother] at h
    obtain rfl := Except.error.inj h
    exact hother

end Table

/-! ### Loading -/

/-- Specs that are all known, or the first that is not. -/
theorem known_or_unknown (specs : List String) :
    (∀ spec ∈ specs, spec ∈ Parameter.specs) ∨
      ∃ known spec rest, specs = known ++ spec :: rest ∧
        (∀ other ∈ known, other ∈ Parameter.specs) ∧ spec ∉ Parameter.specs := by
  induction specs with
  | nil => exact .inl (by simp)
  | cons first rest ih =>
    by_cases hfirst : first ∈ Parameter.specs
    · rcases ih with hrest | ⟨known, spec, back, rfl, hknown, hspec⟩
      · exact .inl (List.forall_mem_cons.mpr ⟨hfirst, hrest⟩)
      · exact .inr ⟨first :: known, spec, back, rfl,
          List.forall_mem_cons.mpr ⟨hfirst, hknown⟩, hspec⟩
    · exact .inr ⟨[], first, rest, rfl, by simp, hfirst⟩

/-- An entry that goes with those before it. -/
structure Entry.Fits (earlier : List Entry) (entry : Entry) : Prop where
  specs : ∀ spec ∈ entry.specs, spec ∈ Parameter.specs
  mnemonic : IsNew (earlier.map (·.mnemonic)) entry.mnemonic

/-- What is wrong with an entry in view of those before it: its first unknown spec, or else its
mnemonic. -/
inductive Entry.Offends (earlier : List Entry) (entry : Entry) : TableError → Prop where
  | specs {known rest : List String} {spec : String} (hspecs : entry.specs = known ++ spec :: rest)
      (hknown : ∀ other ∈ known, other ∈ Parameter.specs) (hspec : spec ∉ Parameter.specs) :
      Offends earlier entry (.unknownParameter entry.mnemonic spec)
  | mnemonic {e : TableError} (hspecs : ∀ spec ∈ entry.specs, spec ∈ Parameter.specs)
      (h : Refusal (earlier.map (·.mnemonic)) entry.mnemonic e) : Offends earlier entry e

/-- Entries that go together. -/
structure Consistent (entries : List Entry) : Prop where
  specs : ∀ entry ∈ entries, ∀ spec ∈ entry.specs, spec ∈ Parameter.specs
  named : ∀ entry ∈ entries, entry.mnemonic ≠ ""
  distinct : entries.Pairwise fun entry later => ¬EqIgnoringCase entry.mnemonic later.mnemonic

theorem consistent_nil : Consistent [] := ⟨by simp, by simp, .nil⟩

/-- One more entry goes with the others exactly if it goes with all of them before it. -/
theorem consistent_concat_iff {entries : List Entry} {entry : Entry} :
    Consistent (entries ++ [entry]) ↔ Consistent entries ∧ entry.Fits entries := by
  constructor
  · rintro ⟨hspecs, hnamed, hdistinct⟩
    rw [List.forall_mem_append, List.forall_mem_singleton] at hspecs hnamed
    rw [List.pairwise_append] at hdistinct
    refine ⟨⟨hspecs.1, hnamed.1, hdistinct.1⟩, hspecs.2, hnamed.2, ?_⟩
    rw [List.forall_mem_map]
    exact fun other hmem => hdistinct.2.2 other hmem entry List.mem_cons_self
  · rintro ⟨⟨hspecs, hnamed, hdistinct⟩, hentry, hname, hnew⟩
    rw [List.forall_mem_map] at hnew
    refine ⟨?_, ?_, ?_⟩
    · rw [List.forall_mem_append, List.forall_mem_singleton]
      exact ⟨hspecs, hentry⟩
    · rw [List.forall_mem_append, List.forall_mem_singleton]
      exact ⟨hnamed, hname⟩
    · rw [List.pairwise_append]
      refine ⟨hdistinct, List.pairwise_singleton _ _, fun other hmem later hlater => ?_⟩
      obtain rfl := List.mem_singleton.mp hlater
      exact hnew other hmem

theorem Entry.fits_or_offends (earlier : List Entry) (entry : Entry) :
    entry.Fits earlier ∨ ∃ e, entry.Offends earlier e := by
  rcases known_or_unknown entry.specs with hspecs | ⟨known, spec, rest, hspecs, hknown, hspec⟩
  · rcases isNew_or_refusal (earlier.map (·.mnemonic)) entry.mnemonic with hnew | ⟨e, he⟩
    · exact .inl ⟨hspecs, hnew⟩
    · exact .inr ⟨e, .mnemonic hspecs he⟩
  · exact .inr ⟨_, .specs hspecs hknown hspec⟩

/-- Entries go together, or one is the first that does not go with those before it. -/
theorem consistent_or_offends (entries : List Entry) :
    Consistent entries ∨ ∃ front entry back e, entries = front ++ entry :: back ∧
      Consistent front ∧ entry.Offends front e := by
  induction entries using List.reverseRecOn with
  | nil => exact .inl consistent_nil
  | append_singleton entries entry ih =>
    rcases ih with hentries | ⟨front, first, back, e, rfl, hfront, he⟩
    -- the last entry counts only if those before it go together
    · rcases entry.fits_or_offends entries with hfits | ⟨e, he⟩
      · exact .inl (consistent_concat_iff.mpr ⟨hentries, hfits⟩)
      · exact .inr ⟨entries, entry, [], e, rfl, hentries, he⟩
    · exact .inr ⟨front, first, back ++ [entry], e, by simp, hfront, he⟩

namespace Table

/-- The entries of a table, in order. -/
def entries (table : Table) : List Entry := table.toList.map entry

theorem map_mnemonic_entries (table : Table) :
    table.entries.map (·.mnemonic) = table.mnemonics := by
  rw [entries, List.map_map]
  rfl

theorem insertEntry_of_fits {table : Table} {entry : Entry} (h : entry.Fits table.entries) :
    ∃ after, table.insertEntry entry = .ok after ∧ after.entries = table.entries ++ [entry] := by
  obtain ⟨parameters, hparameters, hback⟩ := exists_parameters entry.mnemonic h.specs
  have hnew : IsNew table.mnemonics
      (⟨entry.mnemonic, entry.opcode, parameters⟩ : Command).mnemonic :=
    table.map_mnemonic_entries ▸ h.mnemonic
  obtain ⟨hinsert, hlist⟩ := insert_of_isNew hnew
  refine ⟨table.add ⟨entry.mnemonic, entry.opcode, parameters⟩, ?_, ?_⟩
  · simp only [insertEntry, ofEntry, hparameters]
    exact hinsert
  · rw [entries, hlist, List.map_append, List.map_singleton, Command.entry, hback]
    rfl

/-- An entry that does not fit is refused for what is wrong with it. -/
theorem insertEntry_of_offends {table : Table} {entry : Entry} {e : TableError}
    (h : entry.Offends table.entries e) : table.insertEntry entry = .error e := by
  cases h with
  | specs hspecs hknown hspec =>
    have herror := parameters?_of_unknown entry.mnemonic hknown hspec
    simp only [insertEntry, ofEntry, hspecs, herror]
  | mnemonic hspecs h =>
    obtain ⟨parameters, hparameters, -⟩ := exists_parameters entry.mnemonic hspecs
    simp only [insertEntry, ofEntry, hparameters]
    exact insert_of_refusal (table.map_mnemonic_entries ▸ h)

theorem insertAll_append {table after : Table} {front : List Entry}
    (h : table.insertAll front = .ok after) (back : List Entry) :
    table.insertAll (front ++ back) = after.insertAll back := by
  induction front generalizing table with
  | nil =>
    obtain rfl := Except.ok.inj h
    rfl
  | cons first front ih =>
    rw [insertAll] at h
    cases hfirst : table.insertEntry first with
    | error e => simp [hfirst] at h
    | ok more =>
      simp only [hfirst] at h
      simp only [List.cons_append, insertAll, hfirst, ih h]

theorem load_of_consistent {entries : List Entry} (h : Consistent entries) :
    ∃ table, load entries = .ok table ∧ table.entries = entries := by
  induction entries using List.reverseRecOn with
  | nil => exact ⟨∅, rfl, rfl⟩
  | append_singleton entries entry ih =>
    obtain ⟨hentries, hfits⟩ := consistent_concat_iff.mp h
    obtain ⟨table, hload, rfl⟩ := ih hentries
    obtain ⟨after, hinsert, hafter⟩ := insertEntry_of_fits hfits
    refine ⟨after, ?_, hafter⟩
    rw [load, insertAll_append hload]
    simp only [insertAll, hinsert]

/-- The first entry that does not go with those before it stops the loading. -/
theorem load_of_offends {front back : List Entry} {entry : Entry} {e : TableError}
    (hfront : Consistent front) (h : entry.Offends front e) :
    load (front ++ entry :: back) = .error e := by
  obtain ⟨table, hload, rfl⟩ := load_of_consistent hfront
  rw [load, insertAll_append hload, insertAll, insertEntry_of_offends h]

/-- Entries are loaded exactly if they go together. -/
theorem load_eq_ok_iff {entries : List Entry} :
    (∃ table, load entries = .ok table) ↔ Consistent entries := by
  refine ⟨fun ⟨table, htable⟩ => ?_, fun h => ?_⟩
  · rcases consistent_or_offends entries with h | ⟨front, entry, back, e, rfl, hfront, he⟩
    · exact h
    · rw [load_of_offends hfront he] at htable
      cases htable
  · obtain ⟨table, hload, -⟩ := load_of_consistent h
    exact ⟨table, hload⟩

theorem entries_of_load {entries : List Entry} {table : Table} (h : load entries = .ok table) :
    table.entries = entries := by
  obtain ⟨other, hload, hentries⟩ := load_of_consistent (load_eq_ok_iff.mp ⟨table, h⟩)
  obtain rfl := Except.ok.inj (h.symm.trans hload)
  exact hentries

/-- Loading stops at the first entry that does not go with those before it. -/
theorem load_eq_error_iff {entries : List Entry} {e : TableError} :
    load entries = .error e ↔ ∃ front entry back, entries = front ++ entry :: back ∧
      Consistent front ∧ entry.Offends front e := by
  constructor
  · intro h
    rcases consistent_or_offends entries with
      hentries | ⟨front, entry, back, other, rfl, hfront, hother⟩
    · obtain ⟨table, hload, -⟩ := load_of_consistent hentries
      rw [hload] at h
      cases h
    · rw [load_of_offends hfront hother] at h
      obtain rfl := Except.error.inj h
      exact ⟨front, entry, back, rfl, hfront, hother⟩
  · rintro ⟨front, entry, back, rfl, hfront, he⟩
    exact load_of_offends hfront he

/-! ### Commands one by one -/

/-- The table after a command is offered to it. A refused command changes nothing. -/
def offer (table : Table) (command : Command) : Table :=
  match table.insert command with
  | .ok after => after
  | .error _ => table

/-- The table after commands are offered to it one after the other. -/
def offerAll (table : Table) (commands : List Command) : Table := commands.foldl offer table

theorem offerAll_concat (table : Table) (commands : List Command) (command : Command) :
    table.offerAll (commands ++ [command]) = (table.offerAll commands).offer command := by
  rw [offerAll, List.foldl_concat]
  rfl

theorem offer_of_refusal {table : Table} {command : Command} {e : TableError}
    (h : Refusal table.mnemonics command.mnemonic e) : table.offer command = table := by
  simp only [offer, insert_of_refusal h]

theorem toList_offer_of_isNew {table : Table} {command : Command}
    (h : IsNew table.mnemonics command.mnemonic) :
    (table.offer command).toList = table.toList ++ [command] := by
  obtain ⟨hinsert, hlist⟩ := insert_of_isNew h
  simp only [offer, hinsert, hlist]

/-- What a mnemonic finds after a command is offered. -/
theorem get?_offer (table : Table) (command : Command) (mnemonic : String) :
    (table.offer command).get? mnemonic = (table.get? mnemonic).or
      (if command.mnemonic ≠ "" ∧ EqIgnoringCase command.mnemonic mnemonic then some command
        else none) := by
  rcases isNew_or_refusal table.mnemonics command.mnemonic with hnew | ⟨e, he⟩
  · simp only [offer, (insert_of_isNew hnew).1]
    rw [get?, add, Registry.get?_add, ← get?]
    simp only [key_eq_iff, ne_eq, hnew.named, not_false_eq_true, true_and]
  · rw [offer_of_refusal he]
    cases he with
    | unnamed h => simp [h]
    | repeated _ h =>
      obtain ⟨other, hmem, hother⟩ := h
      split
      · next hsame =>
        -- the command that stood in the way is found by the mnemonic already
        have hfound : (table.get? mnemonic).isSome = true :=
          isSome_get?_iff.mpr ⟨other, hmem, hother.trans hsame.2⟩
        rw [Option.or_of_isSome hfound]
      · rw [Option.or_none]

/-- A mnemonic finds what it found before, or else the first command that was offered for it. -/
theorem get?_offerAll (table : Table) (commands : List Command) (mnemonic : String) :
    (table.offerAll commands).get? mnemonic = (table.get? mnemonic).or (commands.find?
      fun command => command.mnemonic ≠ "" ∧ EqIgnoringCase command.mnemonic mnemonic) := by
  induction commands using List.reverseRecOn with
  | nil => simp [offerAll]
  | append_singleton commands command ih =>
    rw [offerAll_concat, get?_offer, ih, Option.or_assoc, List.find?_append, List.find?_singleton]
    simp only [decide_eq_true_eq]

/-- A mnemonic is in the table after commands are offered exactly if it was there before or is the
mnemonic of one of them, whether that one was refused or not. -/
theorem mem_mnemonics_offerAll {table : Table} {commands : List Command} {mnemonic : String}
    (hnamed : mnemonic ≠ "") :
    (∃ other ∈ (table.offerAll commands).mnemonics, EqIgnoringCase other mnemonic) ↔
      ∃ other ∈ table.mnemonics ++ commands.map (·.mnemonic), EqIgnoringCase other mnemonic := by
  rw [← isSome_get?_iff, get?_offerAll, Option.isSome_or, Bool.or_eq_true, isSome_get?_iff,
    List.find?_isSome]
  simp only [decide_eq_true_eq, List.mem_append, List.mem_map, or_and_right, exists_or,
    exists_exists_and_eq_and]
  refine or_congr_right (exists_congr fun command => and_congr_right fun _ => ?_)
  exact ⟨fun h => h.2, fun h => ⟨h.ne_empty hnamed, h⟩⟩

/-- A command is refused for what the table held before or for what was offered before, whether
that was refused or not. -/
theorem insert_offerAll_eq_error_iff {table : Table} {commands : List Command} {command : Command}
    {e : TableError} :
    (table.offerAll commands).insert command = .error e ↔
      Refusal (table.mnemonics ++ commands.map (·.mnemonic)) command.mnemonic e := by
  rw [insert_eq_error_iff]
  constructor
  · rintro (h | ⟨hnamed, h⟩)
    · exact .unnamed h
    · exact .repeated hnamed ((mem_mnemonics_offerAll hnamed).mp h)
  · rintro (h | ⟨hnamed, h⟩)
    · exact .unnamed h
    · exact .repeated hnamed ((mem_mnemonics_offerAll hnamed).mpr h)

theorem isNew_offerAll_iff {table : Table} {commands : List Command} {mnemonic : String} :
    IsNew (table.offerAll commands).mnemonics mnemonic ↔
      IsNew (table.mnemonics ++ commands.map (·.mnemonic)) mnemonic := by
  rw [isNew_iff, isNew_iff]
  exact and_congr_right fun hnamed => not_congr (mem_mnemonics_offerAll hnamed)

/-- The table lists what it held before and then the commands that were new when they were
offered. -/
theorem toList_offerAll (table : Table) (commands : List Command) :
    (table.offerAll commands).toList = table.toList ++ (mapBefore (fun earlier command =>
      if IsNew (earlier.map (·.mnemonic)) command.mnemonic then [command] else [])
      table.toList commands).flatten := by
  induction commands using List.reverseRecOn with
  | nil => simp [offerAll, mapBefore]
  | append_singleton commands command ih =>
    have hiff : IsNew (table.offerAll commands).mnemonics command.mnemonic ↔
        IsNew ((table.toList ++ commands).map (·.mnemonic)) command.mnemonic := by
      rw [isNew_offerAll_iff, List.map_append, mnemonics]
    rw [offerAll_concat, mapBefore_append, List.flatten_append, ← List.append_assoc, ← ih]
    simp only [mapBefore, List.flatten_cons, List.flatten_nil, List.append_nil]
    rcases isNew_or_refusal (table.offerAll commands).mnemonics command.mnemonic with hnew | ⟨e, he⟩
    · rw [toList_offer_of_isNew hnew, if_pos (hiff.mp hnew)]
    · rw [offer_of_refusal he, if_neg (mt hiff.mpr he.not_isNew), List.append_nil]

/-! ### The whole of it -/

/-- A table of entries: it lists them in order, and a mnemonic finds the one command that has it. -/
structure IsTableOf (table : Table) (entries : List Entry) : Prop where
  entries : table.entries = entries
  distinct : table.toList.Pairwise fun command later =>
    ¬EqIgnoringCase command.mnemonic later.mnemonic
  found : ∀ mnemonic command, table.get? mnemonic = some command ↔
    command ∈ table.toList ∧ EqIgnoringCase command.mnemonic mnemonic
  missing : ∀ mnemonic, table.get? mnemonic = none ↔
    ∀ command ∈ table.toList, ¬EqIgnoringCase command.mnemonic mnemonic

/-- What is left of commands that are offered one after the other: of each mnemonic the first, and
nothing of those that are refused. -/
structure TakesOneByOne (table : Table) (commands : List Command) : Prop where
  toList : (table.offerAll commands).toList = table.toList ++ (mapBefore (fun earlier command =>
    if IsNew (earlier.map (·.mnemonic)) command.mnemonic then [command] else [])
    table.toList commands).flatten
  get? : ∀ mnemonic, (table.offerAll commands).get? mnemonic =
    (table.get? mnemonic).or (commands.find? fun command =>
      command.mnemonic ≠ "" ∧ EqIgnoringCase command.mnemonic mnemonic)
  refused : ∀ command e, (table.offerAll commands).insert command = .error e ↔
    Refusal (table.mnemonics ++ commands.map (·.mnemonic)) command.mnemonic e
  unchanged : ∀ command e, (table.offerAll commands).insert command = .error e →
    (table.offerAll (commands ++ [command])).size = (table.offerAll commands).size ∧
    (table.offerAll (commands ++ [command])).toList = (table.offerAll commands).toList ∧
    ∀ mnemonic, (table.offerAll (commands ++ [command])).get? mnemonic =
      (table.offerAll commands).get? mnemonic

theorem isTableOf_of_load {entries : List Entry} {table : Table} (h : load entries = .ok table) :
    table.IsTableOf entries where
  entries := entries_of_load h
  distinct := by
    have hentries : Consistent (table.toList.map entry) := by
      rw [← Table.entries, entries_of_load h]
      exact load_eq_ok_iff.mp ⟨table, h⟩
    exact List.pairwise_map.mp hentries.distinct
  found := fun _ _ => get?_eq_some_iff_eqIgnoringCase
  missing := fun mnemonic => by
    rw [← Option.not_isSome_iff_eq_none, isSome_get?_iff, mnemonics]
    simp only [List.mem_map, exists_exists_and_eq_and, not_exists, not_and]

theorem takesOneByOne (table : Table) (commands : List Command) : table.TakesOneByOne commands where
  toList := toList_offerAll table commands
  get? := get?_offerAll table commands
  refused := fun _ _ => insert_offerAll_eq_error_iff
  unchanged := fun command e h => by
    rw [offerAll_concat, offer_of_refusal (insert_eq_error_iff.mp h)]
    exact ⟨rfl, rfl, fun _ => rfl⟩

/-- Entries are loaded exactly if they go together, to a table of them; else the answer is what is
wrong with the first that does not go with those before it. A document is loaded as the entries that
it delivers, and commands can also be put in one by one. -/
theorem load_exact (entries : List Entry) :
    ((∃ table, load entries = .ok table) ↔ Consistent entries) ∧
    (∀ table, load entries = .ok table → table.IsTableOf entries) ∧
    (∀ e, load entries = .error e ↔ ∃ front entry back, entries = front ++ entry :: back ∧
      Consistent front ∧ entry.Offends front e) ∧
    (∀ document, (Toml.parse? document).bind entries? = some entries →
      read document = load entries) ∧
    ∀ (table : Table) (commands : List Command), table.TakesOneByOne commands := by
  refine ⟨load_eq_ok_iff, fun _ => isTableOf_of_load, fun _ => load_eq_error_iff, ?_, takesOneByOne⟩
  intro document hdocument
  rw [read, hdocument]

/-- A mnemonic that is written twice, in either case. -/
theorem load_exact_twice :
    read "command = [['GO', 7, ['#']], ['go', 8]]" = .error (.duplicate "go") := by
  obtain ⟨-, -, hfails, hread, -⟩ := load_exact [⟨"GO", 7, ["#"]⟩, ⟨"go", 8, []⟩]
  rw [hread _ (by decide +kernel), hfails]
  have hfirst : Entry.Fits [] ⟨"GO", 7, ["#"]⟩ := ⟨by decide, by decide⟩
  refine ⟨[⟨"GO", 7, ["#"]⟩], ⟨"go", 8, []⟩, [], rfl,
    consistent_concat_iff.mpr ⟨consistent_nil, hfirst⟩, .mnemonic (by simp) ?_⟩
  exact .repeated (by decide) ⟨"GO", by simp, by decide⟩

end Table

end Command

end EventScript
