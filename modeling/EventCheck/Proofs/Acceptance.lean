import EventCheck.Proofs.Building

/-!
Which tasks are accepted. The checks run through the operations, the actors, their control flows
and the locations of these, and keep tables of what they have seen: each of these runs asks that
its elements fit the tables it starts with and that no two of them claim the same.
-/

namespace EventCheck

/-! ### Checks that fill a table -/

/-- An element is admitted where it fits the table, and then keeps those apart from it out. -/
structure Admits {σ α : Type} (check : σ → α → Except Error σ) (Fits : σ → α → Prop)
    (Apart : α → α → Prop) : Prop where
  accepts : ∀ s a, (∃ t, check s a = .ok t) ↔ Fits s a
  later : ∀ s a t, check s a = .ok t → ∀ b, Fits t b ↔ Fits s b ∧ Apart a b

namespace Admits

variable {σ α : Type} {check : σ → α → Except Error σ} {Fits : σ → α → Prop}
  {Apart : α → α → Prop} {elements : List α} {start last : σ}

/-- After a run those fit that fitted before it and are apart from all its elements. -/
theorem fits_foldlM (admits : Admits check Fits Apart)
    (given : elements.foldlM check start = .ok last) (b : α) :
    Fits last b ↔ Fits start b ∧ ∀ a ∈ elements, Apart a b := by
  induction elements generalizing start with
  | nil =>
    obtain rfl := pure_eq_ok_iff.1 given
    simp
  | cons a rest ih =>
    obtain ⟨middle, first, given⟩ := bind_eq_ok_iff.1 given
    rw [ih given, admits.later start a middle first, List.forall_mem_cons, and_assoc]

/-- A run gets through where its elements fit the table at its start, and one another. -/
theorem exists_foldlM (admits : Admits check Fits Apart) :
    (∃ last, elements.foldlM check start = .ok last) ↔
      (∀ a ∈ elements, Fits start a) ∧ elements.Pairwise Apart := by
  -- over the rest the table that the first element leaves takes the place of the one at the start
  induction elements generalizing start with
  | nil => exact ⟨fun _ => ⟨by simp, .nil⟩, fun _ => ⟨start, rfl⟩⟩
  | cons a rest ih =>
    rw [List.forall_mem_cons, List.pairwise_cons]
    constructor
    · rintro ⟨last, given⟩
      obtain ⟨middle, first, given⟩ := bind_eq_ok_iff.1 given
      obtain ⟨fit, apart⟩ := ih.1 ⟨last, given⟩
      have fits := fun b member => (admits.later start a middle first b).1 (fit b member)
      exact ⟨⟨(admits.accepts start a).1 ⟨middle, first⟩, fun b member => (fits b member).1⟩,
        fun b member => (fits b member).2, apart⟩
    · rintro ⟨⟨here, fit⟩, away, apart⟩
      obtain ⟨middle, first⟩ := (admits.accepts start a).2 here
      obtain ⟨last, given⟩ := ih.2 ⟨fun b member =>
        (admits.later start a middle first b).2 ⟨fit b member, away b member⟩, apart⟩
      exact ⟨last, bind_eq_ok_iff.2 ⟨middle, first, given⟩⟩

end Admits

/-- Where no two elements satisfy `keep` at most one of them is kept. -/
theorem length_filter_le_one {α : Type} {keep : α → Bool} {elements : List α}
    (apart : elements.Pairwise fun a b => ¬ (keep a = true ∧ keep b = true)) :
    (elements.filter keep).length ≤ 1 := by
  induction apart with
  | nil => simp
  | @cons a rest away _ ih =>
    by_cases kept : keep a = true
    · have none : rest.filter keep = [] :=
        List.filter_eq_nil_iff.2 fun b member other => away b member ⟨kept, other⟩
      exact Nat.le_of_eq (by rw [List.filter_cons_of_pos kept, none, List.length_singleton])
    · rw [List.filter_cons_of_neg kept]
      exact ih

/-! ### Control flows side by side -/

theorem Graph.edges_insertEdge {ν ε : Type} {g next : Graph ν ε} {head tail : Nat} {label : ε}
    (inserted : g.insertEdge head tail label = .ok next) :
    next.edges = g.edges.insert ⟨head, tail⟩ label := by
  unfold Graph.insertEdge at inserted
  split at inserted
  · cases inserted
  split at inserted
  · cases inserted
  split at inserted
  · cases inserted
  obtain rfl := Except.ok.inj inserted
  rfl

namespace ControlFlow

variable {flow other next : ControlFlow}

/-- Whether the operation takes from the head to the tail. -/
def HasTransition (flow : ControlFlow) (head : Location) (operation : Nat) (tail : Location) :
    Prop :=
  ∃ operations, flow.graph.edges.get? ⟨head, tail⟩ = some operations ∧ operation ∈ operations

/-- No location belongs to both. -/
def Disjoint (flow other : ControlFlow) : Prop :=
  ∀ location, ¬ (flow.hasLocation location = true ∧ other.hasLocation location = true)

theorem edges_addLocation {location : Location} (added : flow.addLocation location = .ok next) :
    next.graph.edges = flow.graph.edges := by
  unfold addLocation at added
  split at added
  · rw [Except.ok.inj added]
  · obtain ⟨graph, inserted, built⟩ := bind_eq_ok_iff.1 added
    obtain rfl := pure_eq_ok_iff.1 built
    unfold Graph.insertVertex at inserted
    split at inserted
    · cases inserted
    · obtain rfl := Except.ok.inj inserted
      rfl

/-- A transition goes to the operations on its edge. -/
theorem edges_addTransition {head tail : Location} {operation : Nat}
    (added : flow.addTransition head operation tail = .ok next) :
    ∃ labels, next.graph.edges = flow.graph.edges.insert ⟨head, tail⟩ labels ∧
      ∀ id, id ∈ labels ↔ id = operation ∨ flow.HasTransition head id tail := by
  obtain ⟨first, headed, added⟩ := bind_eq_ok_iff.1 added
  obtain ⟨second, tailed, added⟩ := bind_eq_ok_iff.1 added
  have before : flow.graph.edges = second.graph.edges :=
    ((edges_addLocation tailed).trans (edges_addLocation headed)).symm
  simp only [HasTransition, before]
  dsimp only at added
  split at added
  · obtain ⟨graph, changed, updated⟩ := bind_eq_ok_iff.1 added
    rw [(updateLoopHeads_eq_ok updated).1]
    unfold Graph.updateEdge at changed
    split at changed
    · rename_i label found
      obtain rfl := Except.ok.inj changed
      refine ⟨_, rfl, fun id => ?_⟩
      simp only [found, Option.some.injEq, exists_eq_left']
      split
      · rename_i listed
        refine (or_iff_right_of_imp ?_).symm
        rintro rfl
        exact List.contains_iff_mem.1 listed
      · rw [List.mem_append, List.mem_singleton, or_comm]
    · cases changed
  · rename_i fresh
    obtain ⟨graph, inserted, updated⟩ := bind_eq_ok_iff.1 added
    rw [(updateLoopHeads_eq_ok updated).1]
    have absent := SortedMap.contains_eq_false_iff.1 (Bool.eq_false_iff.2 fresh)
    refine ⟨[operation], Graph.edges_insertEdge inserted, fun id => ?_⟩
    simp [absent]

/-- The transitions of a control flow are those that have been added. -/
theorem hasTransition_addTransition {head tail : Location} {operation : Nat}
    (added : flow.addTransition head operation tail = .ok next) (h : Location) (id : Nat)
    (t : Location) : next.HasTransition h id t ↔
      (h = head ∧ id = operation ∧ t = tail) ∨ flow.HasTransition h id t := by
  obtain ⟨labels, edges, members⟩ := edges_addTransition added
  rw [HasTransition, edges, SortedMap.get?_insert]
  by_cases same : (⟨h, t⟩ : Arc) = ⟨head, tail⟩
  · cases same
    simp [members]
  · rw [if_neg same, or_iff_right]
    · rfl
    · rintro ⟨rfl, _, rfl⟩
      exact same rfl

theorem edges_addEntry {location : Location} (added : flow.addEntry location = .ok next) :
    next.graph.edges = flow.graph.edges := by
  obtain ⟨middle, located, updated⟩ := bind_eq_ok_iff.1 added
  rw [(updateLoopHeads_eq_ok updated).1, ← edges_addLocation located]

theorem hasTransition_foldlM {transitions : List (Location × Nat × Location)}
    (given : transitions.foldlM (fun flow (head, operation, tail) =>
      flow.addTransition head operation tail) flow = .ok next) (h : Location) (id : Nat)
    (t : Location) :
    next.HasTransition h id t ↔ (h, id, t) ∈ transitions ∨ flow.HasTransition h id t := by
  induction transitions generalizing flow with
  | nil =>
    obtain rfl := pure_eq_ok_iff.1 given
    simp
  | cons first rest ih =>
    obtain ⟨middle, added, given⟩ := bind_eq_ok_iff.1 given
    rw [ih given, hasTransition_addTransition added, List.mem_cons, or_left_comm, or_assoc]
    simp only [Prod.ext_iff]

/-- A control flow that is put together from a list has the listed transitions. -/
theorem hasTransition_ofTransitions {entries : List Location}
    {transitions : List (Location × Nat × Location)}
    (given : ofTransitions entries transitions = .ok flow) (h : Location) (id : Nat)
    (t : Location) : flow.HasTransition h id t ↔ (h, id, t) ∈ transitions := by
  obtain ⟨start, entered, given⟩ := bind_eq_ok_iff.1 given
  have none : start.graph.edges = ∅ :=
    foldlM_induction (motive := fun flow => flow.graph.edges = ∅) entered rfl
      fun _ _ _ _ added before => (edges_addEntry added).trans before
  rw [hasTransition_foldlM given, or_iff_left]
  rintro ⟨labels, found, _⟩
  rw [none] at found
  cases found

theorem mem_operations {id : Nat} :
    id ∈ flow.operations ↔ ∃ head tail, flow.HasTransition head id tail := by
  rw [operations, SortedSet.mem_ofList, List.mem_flatten]
  constructor
  · rintro ⟨listed, member, used⟩
    obtain ⟨⟨⟨head, tail⟩, _⟩, edge, rfl⟩ := List.mem_map.1 member
    exact ⟨head, tail, _, SortedMap.get?_eq_some_iff.2 edge, used⟩
  · rintro ⟨head, tail, listed, edge, used⟩
    exact ⟨listed, List.mem_map.2 ⟨_, SortedMap.get?_eq_some_iff.1 edge, rfl⟩, used⟩

theorem mem_locations {location : Location} :
    location ∈ flow.locations ↔ flow.hasLocation location = true := by
  rw [locations, SortedMap.mem_keys_iff, ← SortedMap.contains_iff]
  rfl

theorem nodup_locations : flow.locations.Nodup := flow.graph.vertices.keySet.nodup

theorem disjoint_iff :
    flow.Disjoint other ↔ ∀ location ∈ flow.locations, location ∉ other.locations := by
  simp only [Disjoint, mem_locations, not_and]

end ControlFlow

/-- The control flows of the scripts and of the methods. -/
def Actor.controlFlows (actor : Actor) : List ControlFlow :=
  actor.scripts.map (·.flow) ++ actor.methods.values.map (·.flow)

theorem Actor.map_flows (actor : Actor) : actor.flows.map (·.2) = actor.controlFlows := by
  simp [flows, controlFlows, Function.comp_def]

namespace Task

/-- What is asked of the actors and operations of a task. -/
structure WellFormed (actors : List Actor) (operations : List Operation) : Prop where
  ids : (operations.map (·.id)).Nodup
  names : (actors.map (·.name)).Nodup
  /-- The operations on transitions exist. -/
  transitions : ∀ flow ∈ actors.flatMap (·.controlFlows), ∀ head id tail,
    flow.HasTransition head id tail → id ∈ operations.map (·.id)
  /-- No location belongs to two control flows, those of one actor included. -/
  locations : (actors.flatMap (·.controlFlows)).Pairwise ControlFlow.Disjoint

variable {operations : List Operation} {table : SortedMap Nat Operation} {actors : List Actor}

/-! ### The checks, from the inside out -/

/-- Enters an operation into the table, as `operationTable` does with each one in turn. -/
def addOperation (table : SortedMap Nat Operation) (operation : Operation) :
    Except Error (SortedMap Nat Operation) :=
  if table.contains operation.id then .error (.duplicateOperation operation.id)
  else .ok (table.insert operation.id operation)

theorem addOperation_eq_ok {operation : Operation} {next : SortedMap Nat Operation} :
    addOperation table operation = .ok next ↔
      table.get? operation.id = none ∧ next = table.insert operation.id operation := by
  rw [addOperation, ← SortedMap.contains_eq_false_iff]
  split <;> simp [*, eq_comm]

theorem get?_addOperation {operation other : Operation} {next : SortedMap Nat Operation}
    (added : addOperation table operation = .ok next) {id : Nat} :
    next.get? id = some other ↔
      table.get? id = some other ∨ other = operation ∧ other.id = id := by
  obtain ⟨free, rfl⟩ := addOperation_eq_ok.1 added
  rw [SortedMap.get?_insert]
  split
  · rename_i same
    rw [same, free]
    constructor
    · rintro ⟨⟩
      exact Or.inr ⟨rfl, rfl⟩
    · rintro (⟨⟨⟩⟩ | ⟨rfl, _⟩)
      rfl
  · rename_i differ
    refine (or_iff_left ?_).symm
    rintro ⟨rfl, same⟩
    exact differ same.symm

theorem admits_operation : Admits addOperation
    (fun table operation => table.get? operation.id = none)
    (fun operation other => operation.id ≠ other.id) where
  accepts table operation := by simp [addOperation_eq_ok]
  later table operation next inserted other := by
    obtain ⟨_, rfl⟩ := addOperation_eq_ok.1 inserted
    rw [SortedMap.get?_insert]
    by_cases same : other.id = operation.id
    · simp [same]
    · simp [same, Ne.symm same]

theorem admits_location (owner : String) : Admits (checkLocation owner)
    (fun checked location => checked.owners.get? location = none) (· ≠ ·) where
  accepts checked location := by
    unfold checkLocation
    split <;> simp [*]
  later checked location next claimed other := by
    unfold checkLocation at claimed
    split at claimed
    · cases claimed
    · obtain rfl := Except.ok.inj claimed
      rw [SortedMap.get?_insert]
      by_cases same : other = location
      · simp [same]
      · simp [same, Ne.symm same]

/-- Whether the operations exist, and whether the locations are free. -/
structure FlowFits (table : SortedMap Nat Operation) (checked : Checked) (flow : ControlFlow) :
    Prop where
  operations : ∀ id ∈ flow.operations, table.contains id = true
  locations : ∀ location ∈ flow.locations, checked.owners.get? location = none

/-- Names that have been seen do not matter to control flows. -/
theorem flowFits_named {checked : Checked} {actors : SortedSet String} {flow : ControlFlow} :
    FlowFits table { checked with actors } flow ↔ FlowFits table checked flow :=
  ⟨fun fits => ⟨fits.operations, fits.locations⟩, fun fits => ⟨fits.operations, fits.locations⟩⟩

theorem admits_flow (table : SortedMap Nat Operation) : Admits (checkFlow table)
    (fun checked owned => FlowFits table checked owned.2)
    (fun owned other => owned.2.Disjoint other.2) where
  accepts checked owned := by
    unfold checkFlow
    split
    · rename_i missing found
      refine iff_of_false (by simp) fun fits => ?_
      have absent := List.find?_some found
      simp [fits.operations missing (List.mem_of_find?_eq_some found)] at absent
    · rename_i none
      have known : ∀ id ∈ owned.2.operations, table.contains id = true := by
        simpa [SortedSet.mem_def] using List.find?_eq_none.1 none
      rw [(admits_location owned.1).exists_foldlM]
      exact ⟨fun given => ⟨known, given.1⟩,
        fun fits => ⟨fits.locations, ControlFlow.nodup_locations⟩⟩
  later checked owned next accepted other := by
    unfold checkFlow at accepted
    split at accepted
    · cases accepted
    · have free := (admits_location owned.1).fits_foldlM accepted
      rw [ControlFlow.disjoint_iff]
      constructor
      · intro fits
        refine ⟨⟨fits.operations, fun location member => ?_⟩, fun location own shared => ?_⟩
        · exact ((free location).1 (fits.locations location member)).1
        · exact ((free location).1 (fits.locations location shared)).2 location own rfl
      · rintro ⟨fits, apart⟩
        refine ⟨fits.operations, fun location member => (free location).2 ⟨?_, ?_⟩⟩
        · exact fits.locations location member
        · rintro _ own rfl
          exact apart _ own member

/-- Whether the name is free, and whether the control flows fit the tables and one another. -/
structure ActorFits (table : SortedMap Nat Operation) (checked : Checked) (actor : Actor) :
    Prop where
  name : actor.name ∉ checked.actors
  flows : ∀ flow ∈ actor.controlFlows, FlowFits table checked flow
  apart : actor.controlFlows.Pairwise ControlFlow.Disjoint

theorem forall_controlFlows {actor : Actor} {p : ControlFlow → Prop} :
    (∀ flow ∈ actor.controlFlows, p flow) ↔ ∀ owned ∈ actor.flows, p owned.2 := by
  rw [← Actor.map_flows, List.forall_mem_map]

theorem admits_actor (table : SortedMap Nat Operation) : Admits (checkActor table)
    (ActorFits table)
    (fun actor other => actor.name ≠ other.name ∧
      ∀ flow ∈ actor.controlFlows, ∀ next ∈ other.controlFlows, flow.Disjoint next) where
  accepts checked actor := by
    unfold checkActor
    split
    · rename_i taken
      exact iff_of_false (by simp) fun fits => fits.name (SortedSet.contains_iff.1 taken)
    · rename_i free
      rw [(admits_flow table).exists_foldlM, ← List.pairwise_map, Actor.map_flows,
        ← forall_controlFlows]
      simp only [flowFits_named]
      exact ⟨fun given => ⟨mt SortedSet.contains_iff.2 free, given.1, given.2⟩,
        fun fits => ⟨fits.flows, fits.apart⟩⟩
  later checked actor next accepted other := by
    have names := (actors_checkActor accepted).2 other.name
    unfold checkActor at accepted
    split at accepted
    · cases accepted
    · have fit : ∀ flow, FlowFits table next flow ↔ FlowFits table checked flow ∧
          ∀ own ∈ actor.controlFlows, own.Disjoint flow := by
        intro flow
        rw [forall_controlFlows, (admits_flow table).fits_foldlM accepted ("", flow),
          flowFits_named]
      constructor
      · rintro ⟨name, flows, apart⟩
        rw [names, not_or] at name
        refine ⟨⟨name.2, fun flow member => ((fit flow).1 (flows flow member)).1, apart⟩,
          Ne.symm name.1, fun own mine flow member => ?_⟩
        exact ((fit flow).1 (flows flow member)).2 own mine
      · rintro ⟨⟨name, flows, apart⟩, differ, away⟩
        refine ⟨?_, fun flow member => (fit flow).2 ⟨flows flow member, ?_⟩, apart⟩
        · rw [names, not_or]
          exact ⟨Ne.symm differ, name⟩
        · exact fun own mine => away own mine flow member

/-! ### All checks together -/

theorem get?_foldlM {start : SortedMap Nat Operation}
    (built : operations.foldlM addOperation start = .ok table) {id : Nat} {operation : Operation} :
    table.get? id = some operation ↔
      start.get? id = some operation ∨ operation ∈ operations ∧ operation.id = id := by
  induction operations generalizing start with
  | nil =>
    obtain rfl := pure_eq_ok_iff.1 built
    simp
  | cons first rest ih =>
    obtain ⟨middle, inserted, built⟩ := bind_eq_ok_iff.1 built
    rw [ih built, get?_addOperation inserted, or_assoc, List.mem_cons, ← or_and_right]

/-- The table of the operations finds each one by its number. -/
theorem get?_operationTable (built : operationTable operations = .ok table) {id : Nat}
    {operation : Operation} :
    table.get? id = some operation ↔ operation ∈ operations ∧ operation.id = id := by
  rw [get?_foldlM built]
  simp

theorem actorFits_start {actor : Actor} :
    ActorFits table {} actor ↔ actor.controlFlows.Pairwise ControlFlow.Disjoint ∧
      ∀ flow ∈ actor.controlFlows, ∀ id ∈ flow.operations, table.contains id = true := by
  constructor
  · exact fun fits => ⟨fits.apart, fun flow member => (fits.flows flow member).operations⟩
  · rintro ⟨apart, known⟩
    exact ⟨SortedSet.not_mem_empty _, fun flow member => ⟨known flow member, fun _ _ => rfl⟩, apart⟩

theorem checkActors_iff :
    (∃ checked, actors.foldlM (checkActor table) {} = .ok checked) ↔
      (∀ flow ∈ actors.flatMap (·.controlFlows), ∀ id ∈ flow.operations,
        table.contains id = true) ∧
      (actors.map (·.name)).Nodup ∧
      (actors.flatMap (·.controlFlows)).Pairwise ControlFlow.Disjoint := by
  rw [(admits_actor table).exists_foldlM, List.pairwise_and_iff, List.pairwise_flatMap,
    List.Nodup, List.pairwise_map, List.forall_mem_flatMap]
  simp only [actorFits_start]
  constructor
  · rintro ⟨fits, names, away⟩
    exact ⟨fun actor member => (fits actor member).2, names,
      fun actor member => (fits actor member).1, away⟩
  · rintro ⟨known, names, apart, away⟩
    exact ⟨fun actor member => ⟨apart actor member, known actor member⟩, names, away⟩

theorem contains_operationTable (built : operationTable operations = .ok table) {id : Nat} :
    table.contains id = true ↔ id ∈ operations.map (·.id) := by
  simp only [SortedMap.contains_iff, get?_operationTable built, List.mem_map]

theorem wellFormed_iff (built : operationTable operations = .ok table) :
    WellFormed actors operations ↔
      ∃ checked, actors.foldlM (checkActor table) {} = .ok checked := by
  rw [checkActors_iff]
  simp only [contains_operationTable built, ControlFlow.mem_operations]
  constructor
  · intro wellFormed
    refine ⟨?_, wellFormed.names, wellFormed.locations⟩
    rintro flow member id ⟨head, tail, transition⟩
    exact wellFormed.transitions flow member head id tail transition
  · rintro ⟨known, names, locations⟩
    have ids := (admits_operation.exists_foldlM.1 ⟨table, built⟩).2
    refine ⟨List.pairwise_map.2 ids, names, ?_, locations⟩
    exact fun flow member head id tail transition => known flow member id ⟨head, tail, transition⟩

theorem WellFormed.exists_operationTable (wellFormed : WellFormed actors operations) :
    ∃ table, operationTable operations = .ok table :=
  admits_operation.exists_foldlM.2 ⟨fun _ _ => rfl, List.pairwise_map.1 wellFormed.ids⟩

theorem create_eq_ok {name : String} {task : Task} :
    create name actors operations = .ok task ↔ ∃ table,
      operationTable operations = .ok table ∧
      (∃ checked, actors.foldlM (checkActor table) {} = .ok checked) ∧
      task = { name, actors, operations := table } := by
  simp only [create, bind_eq_ok_iff, pure_eq_ok_iff]
  constructor
  · rintro ⟨table, built, checked, run, rfl⟩
    exact ⟨table, built, ⟨checked, run⟩, rfl⟩
  · rintro ⟨table, built, ⟨checked, run⟩, rfl⟩
    exact ⟨table, built, checked, run, rfl⟩

/-- Exactly the well-formed tasks are accepted, whatever the actors are. In an accepted task the
operations on transitions are found by their numbers, and a location belongs to at most one of
the control flows. -/
theorem create_iff_wellFormed (name : String) (actors : List Actor)
    (operations : List Operation) :
    ((∃ task, create name actors operations = .ok task) ↔ WellFormed actors operations) ∧
      ∀ task, create name actors operations = .ok task → task.actors = actors ∧
        (∀ flow ∈ task.actors.flatMap (·.controlFlows), ∀ head id tail,
          flow.HasTransition head id tail →
            ∃ operation ∈ operations, operation.id = id ∧ task.operation id = .ok operation) ∧
        ∀ location,
          ((task.actors.flatMap (·.controlFlows)).filter (·.hasLocation location)).length ≤ 1 := by
  constructor
  · constructor
    · rintro ⟨task, created⟩
      obtain ⟨table, built, run, _⟩ := create_eq_ok.1 created
      exact (wellFormed_iff built).2 run
    · intro wellFormed
      obtain ⟨table, built⟩ := wellFormed.exists_operationTable
      exact ⟨_, create_eq_ok.2 ⟨table, built, (wellFormed_iff built).1 wellFormed, rfl⟩⟩
  · intro task created
    obtain ⟨table, built, run, rfl⟩ := create_eq_ok.1 created
    have wellFormed := (wellFormed_iff built).2 run
    refine ⟨rfl, fun flow member head id tail transition => ?_, fun location => ?_⟩
    · have listed := wellFormed.transitions flow member head id tail transition
      obtain ⟨operation, member, same⟩ := List.mem_map.1 listed
      have found := (get?_operationTable built).2 ⟨member, same⟩
      exact ⟨operation, member, same, by rw [Task.operation, found]⟩
    · exact length_filter_le_one (wellFormed.locations.imp fun apart => apart location)

end Task

end EventCheck
