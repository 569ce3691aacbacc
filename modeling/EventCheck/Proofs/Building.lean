import EventCheck.Program.Task
import EventCheck.Proofs.Graph

/-!
Tasks as they are put together. Control flows grow by locations, entries and transitions, actors
by scripts and methods. In a task that is accepted names then find what they name, and every exit
of a location leads over an operation of the task to a location of the same control flow.
-/

namespace EventCheck

section Fold

variable {α β : Type} {f : β → α → Except Error β} {elements : List α} {start last : β}

theorem foldlM_induction {motive : β → Prop} (given : elements.foldlM f start = .ok last)
    (base : motive start)
    (step : ∀ a ∈ elements, ∀ b c, f b a = .ok c → motive b → motive c) : motive last := by
  induction elements generalizing start with
  | nil =>
    obtain rfl := pure_eq_ok_iff.1 given
    exact base
  | cons a rest ih =>
    obtain ⟨middle, first, later⟩ := bind_eq_ok_iff.1 given
    apply ih later (step a (by simp) start middle first base)
    intro b member
    exact step b (List.mem_cons_of_mem _ member)

theorem exists_of_foldlM (given : elements.foldlM f start = .ok last) {a : α}
    (member : a ∈ elements) : ∃ b c, f b a = .ok c := by
  induction elements generalizing start with
  | nil => simp at member
  | cons first rest ih =>
    obtain ⟨middle, here, later⟩ := bind_eq_ok_iff.1 given
    rcases List.mem_cons.1 member with rfl | member
    · exact ⟨start, middle, here⟩
    · exact ih later member

end Fold

/-- Where keys are unique the search for a key finds its element. -/
theorem find?_of_distinct {α κ : Type} [BEq κ] [LawfulBEq κ] (key : α → κ) {elements : List α}
    (distinct : elements.Pairwise fun a b => key a ≠ key b) {a : α} (member : a ∈ elements) :
    elements.find? (fun b => key b == key a) = some a := by
  induction distinct with
  | nil => simp at member
  | cons away _ ih =>
    rcases List.mem_cons.1 member with rfl | member
    · rw [List.find?_cons_of_pos (by simp)]
    · rw [List.find?_cons_of_neg (by simpa using away a member)]
      exact ih member

/-! ### Control flows -/

namespace Graph

variable {ν ε : Type} {g next : Graph ν ε} {v w : Nat}

theorem Consistent.updateEdge {f : ε → ε} (consistent : g.Consistent)
    (updated : g.updateEdge v w f = .ok next) :
    next.Consistent ∧ (∀ u, next.hasVertex u = g.hasVertex u) ∧
      ∀ head tail, next.hasEdge head tail = g.hasEdge head tail := by
  unfold Graph.updateEdge at updated
  split at updated
  · rename_i label found
    obtain rfl := Except.ok.inj updated
    have edges : ∀ head tail,
        (g.edges.insert ⟨v, w⟩ (f label)).contains ⟨head, tail⟩ = g.hasEdge head tail := by
      intro head tail
      rw [SortedMap.contains, SortedMap.get?_insert, hasEdge, SortedMap.contains]
      by_cases same : (⟨head, tail⟩ : Arc) = ⟨v, w⟩
      · simp [same, found]
      · simp [same]
    refine ⟨⟨consistent.successors, consistent.predecessors, ?_, ?_⟩, fun _ => rfl, edges⟩
    · intro head tail
      rw [hasEdge, edges]
      exact consistent.tails head tail
    · intro head tail
      rw [hasEdge, edges]
      exact consistent.heads head tail
  · cases updated

theorem Consistent.successorsOf (consistent : g.Consistent) (vertex : g.hasVertex v = true) :
    ∃ tails, g.successorsOf v = .ok tails ∧
      ∀ tail, tail ∈ tails ↔ g.hasEdge v tail = true := by
  obtain ⟨tails, found⟩ := SortedMap.contains_iff.1 ((consistent.successors v).trans vertex)
  refine ⟨tails, by rw [Graph.successorsOf, found], fun tail => ?_⟩
  rw [consistent.tails, SortedMap.getD, found, Option.getD_some]

theorem get?_of_mem_edgesOut {edges : List (Arc × ε)} (given : g.edgesOut v = .ok edges)
    {arc : Arc} {label : ε} (member : (arc, label) ∈ edges) :
    g.edges.get? arc = some label := by
  obtain ⟨tails, _, built⟩ := bind_eq_ok_iff.1 given
  obtain rfl := pure_eq_ok_iff.1 built
  obtain ⟨tail, _, mapped⟩ := List.mem_filterMap.1 member
  obtain ⟨other, found, same⟩ := Option.map_eq_some_iff.1 mapped
  cases same
  exact found

end Graph

namespace ControlFlow

variable {flow next : ControlFlow} {location head tail : Location} {operation : Nat}

/-- The control flows that can be put together. -/
inductive Built : ControlFlow → Prop
  | empty : Built .empty
  | location {flow next : ControlFlow} {location : Location} (built : Built flow)
    (added : flow.addLocation location = .ok next) : Built next
  | entry {flow next : ControlFlow} {location : Location} (built : Built flow)
    (added : flow.addEntry location = .ok next) : Built next
  | transition {flow next : ControlFlow} {head tail : Location} {operation : Nat}
    (built : Built flow) (added : flow.addTransition head operation tail = .ok next) : Built next

theorem built_ofTransitions {entries : List Location}
    {transitions : List (Location × Nat × Location)}
    (given : ofTransitions entries transitions = .ok flow) : flow.Built := by
  obtain ⟨middle, first, later⟩ := bind_eq_ok_iff.1 given
  have start : middle.Built :=
    foldlM_induction first .empty fun _ _ _ _ added built => .entry built added
  exact foldlM_induction later start fun _ _ _ _ added built => .transition built added

/-- The tables of the graph agree, and execution starts at locations. -/
structure Closed (flow : ControlFlow) : Prop where
  graph : flow.graph.Consistent
  entries : ∀ location ∈ flow.entries, flow.hasLocation location = true

theorem updateLoopHeads_eq_ok (given : flow.updateLoopHeads = .ok next) :
    next.graph = flow.graph ∧ next.entries = flow.entries := by
  obtain ⟨heads, _, built⟩ := bind_eq_ok_iff.1 given
  obtain rfl := pure_eq_ok_iff.1 built
  exact ⟨rfl, rfl⟩

theorem Closed.updateLoopHeads (closed : flow.Closed)
    (given : flow.updateLoopHeads = .ok next) : next.Closed := by
  obtain ⟨graph, entries⟩ := updateLoopHeads_eq_ok given
  constructor
  · rw [graph]
    exact closed.graph
  · intro location member
    rw [hasLocation, graph]
    exact closed.entries location (entries ▸ member)

theorem Closed.addLocation (closed : flow.Closed) (added : flow.addLocation location = .ok next) :
    next.Closed ∧ next.hasLocation location = true := by
  unfold ControlFlow.addLocation at added
  split at added
  · rename_i present
    obtain rfl := Except.ok.inj added
    exact ⟨closed, present⟩
  · obtain ⟨graph, inserted, built⟩ := bind_eq_ok_iff.1 added
    obtain rfl := pure_eq_ok_iff.1 built
    obtain ⟨consistent, vertices, _⟩ := closed.graph.insertVertex inserted
    refine ⟨⟨consistent, ?_⟩, ?_⟩
    · intro entry member
      have before := closed.entries entry member
      rw [hasLocation] at before
      rw [hasLocation, vertices, before, Bool.or_true]
    · rw [hasLocation, vertices, beq_self_eq_true, Bool.true_or]

theorem Closed.insertEntry (closed : flow.Closed) (present : flow.hasLocation location = true) :
    ControlFlow.Closed { flow with entries := flow.entries.insert location } := by
  refine ⟨closed.graph, ?_⟩
  intro entry member
  rcases SortedSet.mem_insert.1 member with rfl | member
  · exact present
  · exact closed.entries entry member

theorem Closed.addEntry (closed : flow.Closed) (added : flow.addEntry location = .ok next) :
    next.Closed := by
  obtain ⟨middle, located, updated⟩ := bind_eq_ok_iff.1 added
  obtain ⟨closed, present⟩ := closed.addLocation located
  exact (closed.insertEntry present).updateLoopHeads updated

theorem Closed.addTransition (closed : flow.Closed)
    (added : flow.addTransition head operation tail = .ok next) : next.Closed := by
  obtain ⟨first, headed, added⟩ := bind_eq_ok_iff.1 added
  obtain ⟨second, tailed, added⟩ := bind_eq_ok_iff.1 added
  have before := ((closed.addLocation headed).1.addLocation tailed).1
  have connected : ∀ graph, graph.Consistent →
      (∀ vertex, graph.hasVertex vertex = second.graph.hasVertex vertex) →
      ControlFlow.Closed { second with graph } := fun graph consistent vertices =>
    ⟨consistent, fun entry member => (vertices entry).trans (before.entries entry member)⟩
  dsimp only at added
  split at added
  · obtain ⟨graph, changed, updated⟩ := bind_eq_ok_iff.1 added
    obtain ⟨consistent, vertices, _⟩ := before.graph.updateEdge changed
    exact (connected graph consistent vertices).updateLoopHeads updated
  · obtain ⟨graph, inserted, updated⟩ := bind_eq_ok_iff.1 added
    obtain ⟨consistent, vertices, _⟩ := before.graph.insertEdge inserted
    exact (connected graph consistent vertices).updateLoopHeads updated

theorem Built.closed (built : flow.Built) : flow.Closed := by
  induction built with
  | empty => exact ⟨Graph.consistent_empty, by simp [ControlFlow.empty]⟩
  | location _ added ih => exact (ih.addLocation added).1
  | entry _ added ih => exact ih.addEntry added
  | transition _ added ih => exact ih.addTransition added

theorem Closed.exists_hasExits (closed : flow.Closed) (present : flow.hasLocation location = true) :
    ∃ leaves, flow.hasExits location = .ok leaves := by
  obtain ⟨tails, found, _⟩ := closed.graph.successorsOf present
  exact ⟨!tails.isEmpty, by rw [hasExits, found]; rfl⟩

theorem Closed.exists_exits (closed : flow.Closed) (present : flow.hasLocation location = true) :
    ∃ exits, flow.exits location = .ok exits := by
  obtain ⟨tails, found, _⟩ := closed.graph.successorsOf present
  exact ⟨_, by rw [exits, Graph.edgesOut, found]; rfl⟩

/-- An exit takes an operation of the control flow to one of its locations. -/
theorem Closed.exit (closed : flow.Closed) {exits : List Exit} {exit : Exit}
    (given : flow.exits location = .ok exits) (member : exit ∈ exits) :
    exit.operation ∈ flow.operations ∧ flow.hasLocation exit.target = true := by
  obtain ⟨edges, found, built⟩ := bind_eq_ok_iff.1 given
  obtain rfl := pure_eq_ok_iff.1 built
  obtain ⟨⟨arc, operations⟩, edge, mapped⟩ := List.mem_flatMap.1 member
  obtain ⟨operation, listed, rfl⟩ := List.mem_map.1 mapped
  have label := Graph.get?_of_mem_edgesOut found edge
  constructor
  · apply SortedSet.mem_ofList.2
    apply List.mem_flatten.2
    exact ⟨operations, List.mem_map.2 ⟨_, SortedMap.get?_eq_some_iff.1 label, rfl⟩, listed⟩
  · exact (closed.graph.ends (SortedMap.contains_iff.2 ⟨_, label⟩)).2

end ControlFlow

/-! ### Actors -/

namespace Actor

variable {actor : Actor}

/-- The actors that can be put together. -/
inductive Built : Actor → Prop
  | empty {name : String} {isObserver : Bool} : Built { name, isObserver }
  | script {actor next : Actor} {script : Script} (built : Built actor) (flow : script.flow.Built)
    (added : actor.addScript script = .ok next) : Built next
  | method {actor next : Actor} {method : Method} (built : Built actor)
    (flow : method.flow.Built) (added : actor.addMethod method = .ok next) : Built next

theorem Built.distinct (built : actor.Built) :
    actor.scripts.Pairwise fun script other => script.id ≠ other.id := by
  induction built with
  | empty => exact .nil
  | @script actor next script _ _ added ih =>
    unfold addScript at added
    split at added
    · cases added
    · rename_i fresh
      obtain rfl := Except.ok.inj added
      refine List.pairwise_append.2 ⟨ih, by simp, ?_⟩
      intro other member last only
      obtain rfl := List.mem_singleton.1 only
      intro same
      exact fresh (List.any_eq_true.2 ⟨other, member, by simp [same]⟩)
  | @method actor next method _ _ added ih =>
    unfold addMethod at added
    split at added
    · cases added
    · obtain rfl := Except.ok.inj added
      exact ih

theorem Built.script_id (built : actor.Built) {script : Script} (member : script ∈ actor.scripts) :
    actor.script script.id = .ok script := by
  rw [Actor.script, find?_of_distinct Script.id built.distinct member]

theorem Built.scriptFlow (built : actor.Built) {script : Script}
    (member : script ∈ actor.scripts) : script.flow.Closed := by
  induction built with
  | empty => simp at member
  | @script actor next added _ flow given ih =>
    unfold addScript at given
    split at given
    · cases given
    · obtain rfl := Except.ok.inj given
      rcases List.mem_append.1 member with member | only
      · exact ih member
      · obtain rfl := List.mem_singleton.1 only
        exact flow.closed
  | @method actor next method _ _ given ih =>
    unfold addMethod at given
    split at given
    · cases given
    · obtain rfl := Except.ok.inj given
      exact ih member

theorem Built.methodFlow (built : actor.Built) {name : String} {method : Method}
    (found : actor.methods.get? name = some method) : method.flow.Closed := by
  induction built with
  | empty => simp at found
  | @script actor next script _ _ given ih =>
    unfold addScript at given
    split at given
    · cases given
    · obtain rfl := Except.ok.inj given
      exact ih found
  | @method actor next added _ flow given ih =>
    unfold addMethod at given
    split at given
    · cases given
    · obtain rfl := Except.ok.inj given
      rw [SortedMap.get?_insert] at found
      split at found
      · obtain rfl := Option.some.inj found
        exact flow.closed
      · exact ih found

theorem mem_flows_of_script {script : Script} (member : script ∈ actor.scripts) :
    ∃ owner, (owner, script.flow) ∈ actor.flows :=
  ⟨_, List.mem_append_left _ (List.mem_map.2 ⟨script, member, rfl⟩)⟩

theorem mem_flows_of_method {name : String} {method : Method}
    (found : actor.methods.get? name = some method) :
    ∃ owner, (owner, method.flow) ∈ actor.flows := by
  have listed : method ∈ actor.methods.values :=
    List.mem_map.2 ⟨_, SortedMap.get?_eq_some_iff.1 found, rfl⟩
  exact ⟨_, List.mem_append_right _ (List.mem_map.2 ⟨method, listed, rfl⟩)⟩

end Actor

/-! ### Tasks -/

namespace Task

variable {task : Task} {operations : SortedMap Nat Operation} {checked next : Checked}

theorem actors_checkFlow {owned : String × ControlFlow}
    (given : checkFlow operations checked owned = .ok next) : next.actors = checked.actors := by
  unfold checkFlow at given
  split at given
  · cases given
  · apply foldlM_induction (motive := fun c => c.actors = checked.actors) given rfl
    intro location _ before after located same
    unfold checkLocation at located
    split at located
    · cases located
    · obtain rfl := Except.ok.inj located
      exact same

theorem contains_of_checkFlow {owned : String × ControlFlow}
    (given : checkFlow operations checked owned = .ok next) {id : Nat}
    (member : id ∈ owned.2.operations) : operations.contains id = true := by
  unfold checkFlow at given
  split at given
  · cases given
  · rename_i none
    simpa using List.find?_eq_none.1 none id member

theorem actors_checkActor {actor : Actor}
    (given : checkActor operations checked actor = .ok next) :
    actor.name ∉ checked.actors ∧ ∀ name, name ∈ next.actors ↔
      name = actor.name ∨ name ∈ checked.actors := by
  unfold checkActor at given
  split at given
  · cases given
  · rename_i fresh
    refine ⟨fun member => fresh (SortedSet.contains_iff.2 member), ?_⟩
    have same : next.actors = checked.actors.insert actor.name :=
      foldlM_induction (motive := fun c => c.actors = checked.actors.insert actor.name) given rfl
        fun _ _ _ _ flow before => (actors_checkFlow flow).trans before
    intro name
    rw [same, SortedSet.mem_insert]

theorem distinct_of_foldlM {actors : List Actor}
    (given : actors.foldlM (checkActor operations) checked = .ok next) :
    (actors.Pairwise fun actor other => actor.name ≠ other.name) ∧
      ∀ actor ∈ actors, actor.name ∉ checked.actors := by
  induction actors generalizing checked with
  | nil => exact ⟨.nil, by simp⟩
  | cons actor rest ih =>
    obtain ⟨middle, first, later⟩ := bind_eq_ok_iff.1 given
    obtain ⟨fresh, names⟩ := actors_checkActor first
    obtain ⟨distinct, away⟩ := ih later
    constructor
    · refine List.pairwise_cons.2 ⟨?_, distinct⟩
      intro other member same
      exact away other member ((names _).2 (Or.inl same.symm))
    · intro other member
      rcases List.mem_cons.1 member with rfl | member
      · exact fresh
      · intro known
        exact away other member ((names _).2 (Or.inr known))

/-- The task has been accepted, and its actors have been put together piece by piece. -/
def Accepted (task : Task) : Prop :=
  ∃ name actors operations, (∀ actor ∈ actors, Actor.Built actor) ∧
    Task.create name actors operations = .ok task

namespace Accepted

theorem built (accepted : task.Accepted) {actor : Actor} (member : actor ∈ task.actors) :
    actor.Built := by
  obtain ⟨name, actors, operations, built, created⟩ := accepted
  obtain ⟨table, _, created⟩ := bind_eq_ok_iff.1 created
  obtain ⟨_, _, same⟩ := bind_eq_ok_iff.1 created
  obtain rfl := pure_eq_ok_iff.1 same
  exact built actor member

theorem actor_name (accepted : task.Accepted) {actor : Actor} (member : actor ∈ task.actors) :
    task.actor actor.name = .ok actor := by
  obtain ⟨name, actors, operations, _, created⟩ := accepted
  obtain ⟨table, _, created⟩ := bind_eq_ok_iff.1 created
  obtain ⟨_, checked, same⟩ := bind_eq_ok_iff.1 created
  obtain rfl := pure_eq_ok_iff.1 same
  rw [Task.actor, find?_of_distinct Actor.name (distinct_of_foldlM checked).1 member]

/-- The operations of control flows are operations of the task. -/
theorem operation (accepted : task.Accepted) {actor : Actor} (member : actor ∈ task.actors)
    {owned : String × ControlFlow} (listed : owned ∈ actor.flows) {id : Nat}
    (used : id ∈ owned.2.operations) : ∃ operation, task.operation id = .ok operation := by
  obtain ⟨name, actors, operations, _, created⟩ := accepted
  obtain ⟨table, _, created⟩ := bind_eq_ok_iff.1 created
  obtain ⟨_, checked, same⟩ := bind_eq_ok_iff.1 created
  obtain rfl := pure_eq_ok_iff.1 same
  obtain ⟨_, _, here⟩ := exists_of_foldlM checked member
  unfold checkActor at here
  split at here
  · cases here
  · obtain ⟨_, _, flow⟩ := exists_of_foldlM here listed
    obtain ⟨operation, found⟩ := SortedMap.contains_iff.1 (contains_of_checkFlow flow used)
    exact ⟨operation, by rw [Task.operation, found]⟩

end Accepted

end Task

end EventCheck
