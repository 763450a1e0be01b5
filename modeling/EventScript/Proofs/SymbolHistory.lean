import EventScript.Proofs.Contribution

/-!
The symbol tables of a unit under any history of requests, from two empty tables on. What is asked
is one of four things, and what is answered and kept hangs on the requests before it only:

        request              new name                 name that the table has
        define a label       defined, at the end      refused with the offset that stays
        locate a label       nothing                  the offset of its first definition
        declare a variable   the number of variables  refused with the index that stays
        find a variable      refused as unknown       its place among the declared names

A request that is refused and one that only looks something up change nothing, and a request to one
table is answered as if nothing had been asked of the other.
-/

namespace EventScript

/-! ### Requests -/

namespace Symbols

/-- One of the two tables. -/
inductive Table where
  | labels
  | vars
  deriving DecidableEq, Repr

/-- What can be asked of the symbol tables. -/
inductive Request where
  | define (name : String) (offset : Nat)
  | locate (name : String)
  | declare (name : String)
  | find (name : String)
  deriving DecidableEq, Repr

/-- What is answered. -/
inductive Answer where
  | defined
  | located (offset : Option Nat)
  | index (index : Nat)
  | refused (error : SymbolError)
  deriving DecidableEq, Repr

namespace Request

/-- The table that a request is for. -/
def table : Request → Table
  | .define _ _ | .locate _ => .labels
  | .declare _ | .find _ => .vars

/-- The request asks for no change. -/
def looksUp : Request → Bool
  | .define _ _ | .declare _ => false
  | .locate _ | .find _ => true

/-- The offset at which a request would define a label. -/
def offsetOf? (name : String) : Request → Option Nat
  | .define other offset => if other = name then some offset else none
  | .locate _ | .declare _ | .find _ => none

/-- The variable that a request would declare. -/
def declares? : Request → Option String
  | .declare name => some name
  | .define _ _ | .locate _ | .find _ => none

theorem offsetOf?_eq_some_iff {name : String} {request : Request} {offset : Nat} :
    request.offsetOf? name = some offset ↔ request = .define name offset := by
  cases request with
  | define other given => simp [offsetOf?]
  | locate | declare | find => simp [offsetOf?]

theorem offsetOf?_eq_none_iff {name : String} {request : Request} :
    request.offsetOf? name = none ↔ ∀ offset, request ≠ .define name offset := by
  simp only [Option.eq_none_iff_forall_ne_some, ne_eq, offsetOf?_eq_some_iff]

end Request

/-- Put a request to the tables of a draft. -/
def ask (draft : Draft) : Request → Answer × Draft
  | .define name offset =>
    match draft.define name offset with
    | (none, after) => (.defined, after)
    | (some error, after) => (.refused error, after)
  | .locate name => (.located (draft.labels.offset? name), draft)
  | .declare name =>
    match draft.declare name with
    | (.ok index, after) => (.index index, after)
    | (.error error, after) => (.refused error, after)
  | .find name =>
    match draft.vars.index? name with
    | .ok index => (.index index, draft)
    | .error error => (.refused error, draft)

/-- Put requests one after the other, and note each with its answer. -/
def askAll (draft : Draft) : List Request → List (Request × Answer) × Draft
  | [] => ([], draft)
  | request :: rest =>
    let (answer, after) := ask draft request
    let (exchanges, last) := askAll after rest
    ((request, answer) :: exchanges, last)

theorem askAll_cons (draft : Draft) (request : Request) (rest : List Request) :
    askAll draft (request :: rest) =
      ((request, (ask draft request).1) :: (askAll (ask draft request).2 rest).1,
        (askAll (ask draft request).2 rest).2) := rfl

/-- The requests of a history with their answers, where both tables are empty at first. -/
def exchanges (history : List Request) : List (Request × Answer) := (askAll ∅ history).1

/-- The draft after a history. -/
def draftAfter (history : List Request) : Draft := (askAll ∅ history).2

/-! ### What a history says -/

/-- The offset that a history gives a label: that of the first definition. -/
def firstOffset? (history : List Request) (name : String) : Option Nat :=
  history.findSome? (Request.offsetOf? name)

/-- The definition in a request, if its label has none so far. -/
def newDefinition (history : List Request) : Request → List (String × Nat)
  | .define name offset => if firstOffset? history name = none then [(name, offset)] else []
  | .locate _ | .declare _ | .find _ => []

/-- The first definitions of all labels, in order. -/
def firstDefinitions (history : List Request) : List (String × Nat) :=
  (mapBefore newDefinition [] history).flatten

/-- The variables in the order of their first declarations. -/
def declared (history : List Request) : List String :=
  (history.filterMap Request.declares?).eraseDups

/-- The answer to a request that follows a history. -/
def answerAfter (history : List Request) : Request → Answer
  | .define name _ =>
    match firstOffset? history name with
    | none => .defined
    | some kept => .refused (.duplicateLabel name kept)
  | .locate name => .located (firstOffset? history name)
  | .declare name =>
    match (declared history).idxOf? name with
    | none => .index (declared history).length
    | some kept => .refused (.duplicateVariable name kept)
  | .find name =>
    match (declared history).idxOf? name with
    | none => .refused (.unknownVariable name)
    | some index => .index index

/-- A label has the offset of a definition in front of which it has none. -/
theorem firstOffset?_eq_some_iff {history : List Request} {name : String} {offset : Nat} :
    firstOffset? history name = some offset ↔
      ∃ front back, history = front ++ .define name offset :: back ∧
        ∀ other, .define name other ∉ front := by
  rw [firstOffset?, List.findSome?_eq_some_iff]
  constructor
  · rintro ⟨front, request, back, rfl, hrequest, hfront⟩
    obtain rfl := Request.offsetOf?_eq_some_iff.mp hrequest
    exact ⟨front, back, rfl, fun other hmem =>
      Request.offsetOf?_eq_none_iff.mp (hfront _ hmem) other rfl⟩
  · rintro ⟨front, back, rfl, hfront⟩
    refine ⟨front, _, back, rfl, Request.offsetOf?_eq_some_iff.mpr rfl, fun request hmem => ?_⟩
    exact Request.offsetOf?_eq_none_iff.mpr fun other heq => hfront other (heq ▸ hmem)

theorem firstOffset?_eq_none_iff {history : List Request} {name : String} :
    firstOffset? history name = none ↔ ∀ offset, .define name offset ∉ history := by
  rw [firstOffset?, List.findSome?_eq_none_iff]
  constructor
  · exact fun h offset hmem => Request.offsetOf?_eq_none_iff.mp (h _ hmem) offset rfl
  · exact fun h request hmem =>
      Request.offsetOf?_eq_none_iff.mpr fun offset heq => h offset (heq ▸ hmem)

theorem firstOffset?_concat (history : List Request) (request : Request) (name : String) :
    firstOffset? (history ++ [request]) name =
      (firstOffset? history name).or (request.offsetOf? name) := by
  rw [firstOffset?, List.findSome?_append, List.findSome?_singleton, firstOffset?]

theorem firstDefinitions_concat (history : List Request) (request : Request) :
    firstDefinitions (history ++ [request]) =
      firstDefinitions history ++ newDefinition history request := by
  rw [firstDefinitions, mapBefore_concat, List.flatten_append, firstDefinitions,
    List.flatten_singleton]

/-- Among the first definitions a label stands beside its first offset. -/
theorem lookup_firstDefinitions (history : List Request) (name : String) :
    (firstDefinitions history).lookup name = firstOffset? history name := by
  induction history using List.reverseRecOn with
  | nil => rfl
  | append_singleton history request ih =>
    rw [firstDefinitions_concat, List.lookup_append, ih, firstOffset?_concat]
    cases request with
    | locate | declare | find => simp [newDefinition, Request.offsetOf?]
    | define other offset =>
      -- for the label itself the definition counts if it is the first, for another it never does
      by_cases hname : other = name
      · subst hname
        cases hfirst : firstOffset? history other <;>
          simp [newDefinition, Request.offsetOf?, hfirst]
      · have hbeq : (name == other) = false := by simpa using Ne.symm hname
        simp only [newDefinition, Request.offsetOf?, hname, if_false, Option.or_none]
        split <;> simp [List.lookup_cons, hbeq]

theorem declared_concat_of_none {history : List Request} {request : Request}
    (h : request.declares? = none) : declared (history ++ [request]) = declared history := by
  simp [declared, h]

theorem declared_concat_declare (history : List Request) (name : String) :
    declared (history ++ [.declare name]) =
      if name ∈ declared history then declared history else declared history ++ [name] := by
  simp only [declared, List.filterMap_append, List.mem_eraseDups]
  exact eraseDups_concat _ name

/-! ### The tables after a history -/

/-- The tables hold what a history says. -/
structure Holds (history : List Request) (draft : Draft) : Prop where
  labels : draft.labels.toList = firstDefinitions history
  vars : draft.vars.toList = (declared history).zipIdx

variable {history : List Request} {draft : Draft}

theorem holds_nil : Holds [] ∅ := ⟨rfl, rfl⟩

theorem Holds.offset? (h : Holds history draft) (name : String) :
    draft.labels.offset? name = firstOffset? history name := by
  rw [Labels.offset?_eq_lookup, h.labels, lookup_firstDefinitions]

theorem Holds.get? (h : Holds history draft) (name : String) :
    draft.vars.indices.get? name = (declared history).idxOf? name :=
  Variables.get?_of_toList h.vars name

theorem Holds.size (h : Holds history draft) : draft.vars.size = (declared history).length :=
  Variables.size_of_toList h.vars

theorem Holds.index?_eq_ok_iff (h : Holds history draft) {name : String} {index : Nat} :
    draft.vars.index? name = .ok index ↔ (declared history)[index]? = some name := by
  rw [Variables.index?_eq_ok_iff, Variables.toList,
    Registry.lookup_eq_some_iff_mem draft.vars.indices.nodup_names, ← Variables.toList, h.vars]
  exact List.mem_zipIdx_iff_getElem?

/-- A request that is neither a new definition nor a new declaration adds nothing. -/
theorem Holds.concat_same (h : Holds history draft) {request : Request}
    (hlabel : newDefinition history request = [])
    (hvars : declared (history ++ [request]) = declared history) :
    Holds (history ++ [request]) draft where
  labels := by rw [firstDefinitions_concat, hlabel, List.append_nil, h.labels]
  vars := by rw [hvars, h.vars]

/-- A label is defined at the end of its table, unless it has an offset, which then stays. -/
theorem Holds.define (h : Holds history draft) (name : String) (offset : Nat) :
    (ask draft (.define name offset)).1 = answerAfter history (.define name offset) ∧
      Holds (history ++ [.define name offset]) (ask draft (.define name offset)).2 := by
  have hoffset := h.offset? name
  cases hdefine : draft.labels.define name offset with
  | error error =>
    obtain ⟨kept, hkept, rfl⟩ := Labels.define_eq_error_iff.mp hdefine
    rw [hoffset] at hkept
    simp only [ask, Draft.define, hdefine, answerAfter, hkept, true_and]
    exact h.concat_same (by simp [newDefinition, hkept]) (declared_concat_of_none rfl)
  | ok labels =>
    have hnew : firstOffset? history name = none :=
      hoffset.symm.trans (Labels.offset?_of_define hdefine)
    simp only [ask, Draft.define, hdefine, answerAfter, hnew, true_and]
    constructor
    · rw [firstDefinitions_concat, newDefinition, if_pos hnew, ← h.labels]
      exact Labels.toList_of_define hdefine
    · rw [declared_concat_of_none rfl]
      exact h.vars

/-- A variable is declared with the next index, unless it has one, which then stays. -/
theorem Holds.declare (h : Holds history draft) (name : String) :
    (ask draft (.declare name)).1 = answerAfter history (.declare name) ∧
      Holds (history ++ [.declare name]) (ask draft (.declare name)).2 := by
  by_cases hold : name ∈ declared history
  · obtain ⟨kept, hplace, hdeclare⟩ := Variables.declare_of_mem h.vars hold
    simp only [ask, Draft.declare, hdeclare, answerAfter, hplace, true_and]
    exact h.concat_same rfl (by rw [declared_concat_declare, if_pos hold])
  · obtain ⟨vars, hdeclare, hvars⟩ := Variables.declare_of_not_mem h.vars hold
    simp only [ask, Draft.declare, hdeclare, answerAfter, List.idxOf?_eq_none_iff.mpr hold, h.size,
      true_and]
    constructor
    · rw [firstDefinitions_concat, newDefinition, List.append_nil]
      exact h.labels
    · rw [declared_concat_declare, if_neg hold]
      exact hvars

theorem Holds.find (h : Holds history draft) (name : String) :
    (ask draft (.find name)).1 = answerAfter history (.find name) ∧
      (ask draft (.find name)).2 = draft := by
  rw [ask, Variables.index?, h.get?, answerAfter]
  cases (declared history).idxOf? name <;> exact ⟨rfl, rfl⟩

/-- One more request is answered as the history has it, and the tables still hold what it says. -/
theorem Holds.ask (h : Holds history draft) (request : Request) :
    (ask draft request).1 = answerAfter history request ∧
      Holds (history ++ [request]) (ask draft request).2 := by
  cases request with
  | define name offset => exact h.define name offset
  | declare name => exact h.declare name
  | locate name =>
    refine ⟨?_, h.concat_same rfl (declared_concat_of_none rfl)⟩
    rw [answerAfter, ← h.offset?]
    rfl
  | find name =>
    obtain ⟨hanswer, hsame⟩ := h.find name
    refine ⟨hanswer, ?_⟩
    rw [hsame]
    exact h.concat_same rfl (declared_concat_of_none rfl)

/-- Requests one after the other are each answered as the history up to them has it. -/
theorem Holds.askAll (h : Holds history draft) (requests : List Request) :
    (askAll draft requests).1 =
        mapBefore (fun earlier request => (request, answerAfter earlier request)) history requests ∧
      Holds (history ++ requests) (askAll draft requests).2 := by
  -- each request that is answered moves from the requests to the history
  induction requests generalizing history draft with
  | nil => exact ⟨rfl, by rwa [List.append_nil]⟩
  | cons request rest ih =>
    obtain ⟨hanswer, hnext⟩ := h.ask request
    obtain ⟨hanswers, hlast⟩ := ih hnext
    rw [← List.append_cons] at hlast
    rw [askAll_cons, mapBefore, hanswers, hanswer]
    exact ⟨rfl, hlast⟩

theorem holds_draftAfter (history : List Request) : Holds history (draftAfter history) :=
  (holds_nil.askAll history).2

/-- Each request of a history is answered as those before it have it. -/
theorem exchanges_eq (history : List Request) :
    exchanges history =
      mapBefore (fun earlier request => (request, answerAfter earlier request)) [] history :=
  (holds_nil.askAll history).1

/-- What is refused and what only looks something up leaves the draft as it is. -/
theorem ask_unchanged (draft : Draft) {request : Request}
    (h : request.looksUp = true ∨ ∃ error, (ask draft request).1 = .refused error) :
    (ask draft request).2 = draft := by
  cases request with
  | locate name => rfl
  | find name => rw [ask]; split <;> rfl
  | define name offset =>
    obtain ⟨error, h⟩ := h.resolve_left (by simp [Request.looksUp])
    rw [ask, Draft.define] at h ⊢
    cases hdefine : draft.labels.define name offset with
    | error _ => rfl
    | ok labels => simp [hdefine] at h
  | declare name =>
    obtain ⟨error, h⟩ := h.resolve_left (by simp [Request.looksUp])
    simp only [ask, Draft.declare] at h ⊢
    cases hdeclare : draft.vars.declare name with
    | error _ => rfl
    | ok vars => simp [hdeclare] at h

/-! ### One table without the other -/

theorem firstOffset?_filter (history : List Request) (name : String) :
    firstOffset? (history.filter (·.table = .labels)) name = firstOffset? history name := by
  induction history using List.reverseRecOn with
  | nil => rfl
  | append_singleton history request ih =>
    rw [List.filter_append, firstOffset?_concat, ← ih]
    cases request with
    | define | locate => exact firstOffset?_concat _ _ name
    | declare | find => simp [Request.table, Request.offsetOf?]

theorem newDefinition_filter (history : List Request) (request : Request) :
    newDefinition (history.filter (·.table = .labels)) request = newDefinition history request := by
  cases request with
  | define name offset => simp only [newDefinition, firstOffset?_filter]
  | locate | declare | find => rfl

theorem firstDefinitions_filter (history : List Request) :
    firstDefinitions (history.filter (·.table = .labels)) = firstDefinitions history := by
  induction history using List.reverseRecOn with
  | nil => rfl
  | append_singleton history request ih =>
    rw [List.filter_append, firstDefinitions_concat, ← ih, ← newDefinition_filter]
    cases request with
    | define | locate => exact firstDefinitions_concat _ _
    | declare | find => simp [Request.table, newDefinition]

theorem declared_filter (history : List Request) :
    declared (history.filter (·.table = .vars)) = declared history := by
  have hdeclares : ∀ request : Request,
      (if request.table = .vars then request.declares? else none) = request.declares? := by
    intro request
    cases request <;> rfl
  simp only [declared, List.filterMap_filter, decide_eq_true_eq, hdeclares]

/-- The requests for the other table make no difference to an answer. -/
theorem answerAfter_filter (history : List Request) {request : Request} {table : Table}
    (h : request.table = table) :
    answerAfter (history.filter (·.table = table)) request = answerAfter history request := by
  subst h
  cases request with
  | define name offset =>
    change answerAfter (history.filter (·.table = .labels)) _ = _
    simp only [answerAfter, firstOffset?_filter]
  | locate name => exact congrArg Answer.located (firstOffset?_filter history name)
  | declare | find =>
    change answerAfter (history.filter (·.table = .vars)) _ = _
    simp only [answerAfter, declared_filter]

theorem exchanges_filter (history : List Request) (table : Table) :
    (exchanges history).filter (·.1.table = table) =
      exchanges (history.filter (·.table = table)) := by
  rw [exchanges_eq, exchanges_eq]
  exact filter_mapBefore answerAfter (·.table = table)
    (fun front _ hrequest => answerAfter_filter front (of_decide_eq_true hrequest)) [] history

theorem labels_draftAfter_filter (history : List Request) :
    (draftAfter (history.filter (·.table = .labels))).labels = (draftAfter history).labels := by
  refine Labels.ext_toList ?_
  rw [(holds_draftAfter _).labels, (holds_draftAfter _).labels, firstDefinitions_filter]

theorem vars_draftAfter_filter (history : List Request) :
    (draftAfter (history.filter (·.table = .vars))).vars = (draftAfter history).vars := by
  refine Variables.ext_toList ?_
  rw [(holds_draftAfter _).vars, (holds_draftAfter _).vars, declared_filter]

/-! ### The whole of it -/

/-- A label table as a history leaves it: a label has the offset of its first definition, and the
table lists the first definitions in order. -/
structure KeepsLabels (history : List Request) (labels : Labels) : Prop where
  first : ∀ name offset, labels.offset? name = some offset ↔
    ∃ front back, history = front ++ .define name offset :: back ∧
      ∀ other, .define name other ∉ front
  undefined : ∀ name, labels.offset? name = none ↔ ∀ offset, .define name offset ∉ history
  ordered : labels.toList = firstDefinitions history

/-- A variable table as a history leaves it: the declared names are numbered from zero in the order
of their first declarations, and a name is found at its number. -/
structure KeepsVars (history : List Request) (vars : Variables) : Prop where
  numbered : vars.toList = (declared history).zipIdx
  size : vars.size = (declared history).length
  found : ∀ name index, vars.index? name = .ok index ↔ (declared history)[index]? = some name
  distinct : ∀ name other index, vars.index? name = .ok index → vars.index? other = .ok index →
    name = other

/-- What is asked of one table makes no difference to the other. -/
structure KeptApart (history : List Request) : Prop where
  answers : ∀ table, (exchanges history).filter (·.1.table = table) =
    exchanges (history.filter (·.table = table))
  labels : (draftAfter (history.filter (·.table = .labels))).labels = (draftAfter history).labels
  vars : (draftAfter (history.filter (·.table = .vars))).vars = (draftAfter history).vars

theorem Holds.keepsLabels (h : Holds history draft) : KeepsLabels history draft.labels where
  first := fun name offset => by rw [h.offset?, firstOffset?_eq_some_iff]
  undefined := fun name => by rw [h.offset?, firstOffset?_eq_none_iff]
  ordered := h.labels

theorem Holds.keepsVars (h : Holds history draft) : KeepsVars history draft.vars where
  numbered := h.vars
  size := h.size
  found := fun _ _ => h.index?_eq_ok_iff
  distinct := fun name other index hname hother => by
    rw [h.index?_eq_ok_iff] at hname hother
    exact Option.some.inj (hname.symm.trans hother)

/-- Whatever is asked of two new symbol tables, in any order and with any names, they keep what the
history says and answer by it. What is refused and what only looks something up changes nothing, and
neither table minds what is asked of the other. -/
theorem history_kept (history : List Request) :
    KeepsLabels history (draftAfter history).labels ∧
      KeepsVars history (draftAfter history).vars ∧
      exchanges history =
        mapBefore (fun earlier request => (request, answerAfter earlier request)) [] history ∧
      (∀ request, (request.looksUp = true ∨
          ∃ error, (ask (draftAfter history) request).1 = .refused error) →
        (ask (draftAfter history) request).2 = draftAfter history) ∧
      KeptApart history :=
  ⟨(holds_draftAfter history).keepsLabels, (holds_draftAfter history).keepsVars,
    exchanges_eq history, fun _ => ask_unchanged _,
    exchanges_filter history, labels_draftAfter_filter history, vars_draftAfter_filter history⟩

/-- One name for a label and a variable, each of them given twice. -/
theorem history_kept_shared :
    let history : List Request := [.find "TOP", .define "TOP" 4, .declare "TOP", .declare "x",
      .define "TOP" 9, .declare "TOP", .locate "TOP", .find "x", .locate "x"]
    (exchanges history).map (·.2) = [.refused (.unknownVariable "TOP"), .defined, .index 0,
      .index 1, .refused (.duplicateLabel "TOP" 4), .refused (.duplicateVariable "TOP" 0),
      .located (some 4), .index 1, .located none] ∧
    (draftAfter history).labels.toList = [("TOP", 4)] ∧
    (draftAfter history).vars.toList = [("TOP", 0), ("x", 1)] ∧
    (ask (draftAfter history) (.define "TOP" 9)).1 = .refused (.duplicateLabel "TOP" 4) ∧
    (ask (draftAfter history) (.define "TOP" 9)).2 = draftAfter history := by
  intro history
  obtain ⟨hlabels, hvars, hanswers, hunchanged, -⟩ := history_kept history
  have hrefused : (ask (draftAfter history) (.define "TOP" 9)).1 =
      .refused (.duplicateLabel "TOP" 4) := by
    rw [((holds_draftAfter history).define "TOP" 9).1]
    decide +kernel
  refine ⟨?_, ?_, ?_, hrefused, hunchanged _ (.inr ⟨_, hrefused⟩)⟩
  · rw [hanswers]
    decide +kernel
  · rw [hlabels.ordered]
    decide +kernel
  · rw [hvars.numbered]
    decide +kernel

end Symbols

end EventScript
