import EventCheck.Proofs.Occurring
import EventCheck.Proofs.Paths

/-!
Trails lead from the start of a search to a state that it has reached. Without merges an assignment
that satisfies the path and the block of a state satisfies those of the state before it, and between
the values that both read from the assignment the program makes a move.
-/

namespace EventCheck

open SingleAssignment

namespace Verification

variable {σ : Type} [DecidableEq σ] {setting : Setting σ} {meaning : Meaning setting.data}
variable {s t p : State σ} {before after context : Context} {states rest : List (State σ)}

/-! ### One state after the other -/

/-- The number of a state. -/
def State.id (s : State σ) : Nat := s.inner.provenance.id

/-- The assignment satisfies what the state keeps of its past. -/
def State.Recalls (s : State σ) (assigned : Environment) : Prop :=
  s.path.Holds assigned.lookup ∧ s.ssa.block.Holds assigned.lookup

/-- Where a run is at the state, as the assignment has it. -/
def State.configuration (s : State σ) (assigned : Environment) : Configuration :=
  ⟨s.threads, s.ssa.versions.read assigned⟩

/-- A search starts at the state. -/
structure Setting.Begins (setting : Setting σ) (s : State σ) : Prop where
  origin : s.inner.provenance.predecessors = ∅
  threads : setting.task.startThreads (setting.task.newThreads 0) = .ok s.threads
  versions : s.ssa.versions = ∅

/-- The first state comes right before the second one. -/
structure Setting.Precedes (setting : Setting σ) (p s : State σ) : Prop where
  origin : s.inner.provenance.predecessors = .singleton p.id
  earlier : p.id < s.id
  moves : ∀ assigned : Environment, assigned.Typed → s.Recalls assigned →
    p.Recalls assigned ∧
      setting.task.Moves setting.policy (p.configuration assigned) (s.configuration assigned)

/-- The state occurs, under a number that has been handed out, and has not been merged. -/
structure Setting.Known (setting : Setting σ) (context : Context) (s : State σ) : Prop where
  occurs : setting.Occurs s
  numbered : s.id < context.states
  alone : ∀ id ∈ s.inner.provenance.mergeOf, id = s.id

theorem Setting.Known.mono (known : setting.Known before s)
    (grows : before.states ≤ after.states) : setting.Known after s :=
  { known with numbered := Nat.lt_of_lt_of_le known.numbered grows }

theorem begins_of_initial (given : setting.analysis.initial.Yields {} states after) :
    (∀ s ∈ states, setting.Begins s ∧ setting.Known after s) ∧
      states.Pairwise fun s t => s.id < t.id := by
  obtain ⟨threads, middle, inner, started, numbered, count, rfl⟩ := numbered_initial given
  refine ⟨fun s member => ?_, List.pairwise_map.2 numbered.pairwise⟩
  obtain ⟨i, _, threads, _, ssa, _⟩ := yields_initial given member
  have occurs : setting.Occurs s := .initial given member
  obtain ⟨q, inside, rfl⟩ := List.mem_map.1 member
  obtain ⟨_, origin, alone, _, below⟩ := numbered.exists_of_mem inside
  refine ⟨⟨origin, threads, by rw [ssa]⟩, occurs, ?_, alone⟩
  rw [count, ← numbered.length]
  exact below

/-- What follows a state comes right after it, under new numbers. -/
theorem precedes_of_successors (plain : setting.task.Plain)
    (returns : AllReturn (fun v => v.version = none) s.threads) (known : setting.Known before s)
    (given : (setting.analysis.successors s).Yields before states after) :
    before.states ≤ after.states ∧ states.Pairwise (fun t u => t.id < u.id) ∧
      ∀ t ∈ states, setting.Known after t ∧ setting.Precedes s t ∧ before.states ≤ t.id := by
  rcases yields_successors given with ⟨_, rfl, rfl⟩ | ⟨_, controls, middle, inner, succeeded,
    numbered, count, same⟩
  · simp
  · have kept := Control.keepsStates_successors _ _ _ succeeded
    refine ⟨by omega, same ▸ List.pairwise_map.2 numbered.pairwise, fun t member => ?_⟩
    have occurs : setting.Occurs t := .successor known.occurs given member
    obtain ⟨form, index, thread, step, succeeds⟩ := succeeds_of_mem given member
    obtain ⟨q, inside, rfl⟩ := List.mem_map.1 (same ▸ member)
    obtain ⟨_, origin, alone, low, high⟩ := numbered.exists_of_mem inside
    have low : before.states ≤ q.provenance.id := by omega
    refine ⟨⟨occurs, ?_, alone⟩, ⟨origin, Nat.lt_of_lt_of_le known.numbered low, ?_⟩, low⟩
    · show q.provenance.id < after.states
      rw [count]
      exact high
    · intro assigned typed recalls
      obtain ⟨steps, leaving, offered⟩ := succeeds.offered
      have follows := Task.follows_of_leavingSteps plain
        (returns thread (List.mem_of_getElem? succeeds.found)) leaving offered
      have leads := succeeds.leads.unlabeled
      have executed := SsaState.executeAll_of_leads
        (fun statement inside => by
          obtain ⟨operation, listed, rfl⟩ := List.mem_map.1 inside
          exact follows.operations operation listed)
        typed leads recalls.2
      exact ⟨⟨recalls.1, SsaState.block_of_leads leads recalls.2⟩, index, thread, steps, step, succeeds.chosen, succeeds.found,
        leaving, offered, executed, succeeds.applied⟩

/-- Widening moves what a state knows into its path and keeps its place. -/
theorem precedes_widen {ok : Expression → Prop} {target : Variable → Prop}
    (formed : s.Formed meaning ok target) {reached : List (State σ)}
    (given : (setting.analysis.widen s reached).Yields before t after) :
    t.inner.provenance = s.inner.provenance ∧
      (setting.Precedes p s → setting.Precedes p t) := by
  rcases yields_widen given with ⟨_, rfl⟩ | ⟨block, summary, built, _, _, path, _, threads, _,
    provenance, ssa⟩
  · exact ⟨rfl, id⟩
  · refine ⟨provenance, fun precedes => ⟨provenance ▸ precedes.origin, ?_, ?_⟩⟩
    · show p.id < t.inner.provenance.id
      rw [provenance]
      exact precedes.earlier
    · intro assigned typed recalls
      have versions : t.ssa.versions = s.ssa.versions := by rw [ssa]; rfl
      have same : t.configuration assigned = s.configuration assigned := by
        unfold State.configuration
        rw [threads, versions]
      rw [same]
      refine precedes.moves assigned typed ?_
      have both := recalls.1
      rw [path] at both
      obtain ⟨past, holds⟩ := Formula.holds_conjunction.1 both
      exact ⟨past, ((SsaState.admits_iff meaning typed).2 ⟨block, built, holds⟩).2⟩

/-! ### The search -/

/-- Where a search without merges stands: each reached state is one that it started from or comes
right after another one, and no two have the same number; likewise the states to come. -/
structure Tracks (setting : Setting σ) (context : Context) (rest : List (State σ))
    (sets : SearchSets setting.analysis.partitionKey) : Prop where
  sound : sets.Sound
  waits : ∀ s ∈ sets.frontier.queue, s ∈ sets.reached.toList
  known : ∀ s ∈ sets.reached.toList, setting.Known context s
  origins : ∀ s ∈ sets.reached.toList,
    setting.Begins s ∨ ∃ p ∈ sets.reached.toList, setting.Precedes p s
  distinct : ∀ s ∈ sets.reached.toList, ∀ t ∈ sets.reached.toList, s.id = t.id → s = t
  later : ∀ s ∈ rest, setting.Known context s ∧ ∃ p ∈ sets.reached.toList, setting.Precedes p s
  fresh : ∀ s ∈ rest, ∀ t ∈ sets.reached.toList, t.id < s.id
  ordered : rest.Pairwise fun s t => s.id < t.id

variable {sets next : SearchSets setting.analysis.partitionKey}

theorem Tracks.mono (tracks : Tracks setting before rest sets)
    (grows : before.states ≤ after.states) : Tracks setting after rest sets :=
  { tracks with
    known := fun s member => (tracks.known s member).mono grows
    later := fun s member => (tracks.later s member).imp (·.mono grows) id }

/-- A state to come may be passed over. -/
theorem Tracks.skip (tracks : Tracks setting context (s :: rest) sets) :
    Tracks setting context rest sets :=
  { tracks with
    later := fun t member => tracks.later t (List.mem_cons_of_mem s member)
    fresh := fun t member => tracks.fresh t (List.mem_cons_of_mem s member)
    ordered := (List.pairwise_cons.1 tracks.ordered).2 }

/-- A state to come, or what widening made of it, may be admitted, to wait or not. -/
theorem Tracks.admit (tracks : Tracks setting context (s :: rest) sets)
    (known : setting.Known context t) (same : t.id = s.id)
    (precedes : ∀ p, setting.Precedes p s → setting.Precedes p t) (sound : next.Sound)
    (reached : ∀ u, u ∈ next.reached.toList ↔ u = t ∨ u ∈ sets.reached.toList)
    (waiting : ∀ u ∈ next.frontier.queue, u = t ∨ u ∈ sets.frontier.queue) :
    Tracks setting context rest next := by
  have kept : ∀ u ∈ sets.reached.toList, u ∈ next.reached.toList :=
    fun u member => (reached u).2 (Or.inr member)
  have below : ∀ u ∈ sets.reached.toList, u.id < t.id :=
    fun u member => same ▸ tracks.fresh s (by simp) u member
  refine ⟨sound, fun u member => ?_, fun u member => ?_, fun u member => ?_, fun u member w other => ?_,
    fun u member => ?_, fun u member w other => ?_, (List.pairwise_cons.1 tracks.ordered).2⟩
  · exact (reached u).2 ((waiting u member).imp_right (tracks.waits u))
  · exact ((reached u).1 member).elim (fun here => here ▸ known) (tracks.known u)
  · rcases (reached u).1 member with rfl | member
    · obtain ⟨p, inside, before⟩ := (tracks.later s (by simp)).2
      exact Or.inr ⟨p, kept p inside, precedes p before⟩
    · refine (tracks.origins u member).imp_right fun ⟨p, inside, before⟩ => ?_
      exact ⟨p, kept p inside, before⟩
  · rcases (reached u).1 member with rfl | member <;> rcases (reached w).1 other with rfl | other
    · exact fun _ => rfl
    · exact fun equal => absurd equal (Nat.ne_of_gt (below w other))
    · exact fun equal => absurd equal (Nat.ne_of_lt (below u member))
    · exact tracks.distinct u member w other
  · obtain ⟨late, p, inside, before⟩ := tracks.later u (List.mem_cons_of_mem s member)
    exact ⟨late, p, kept p inside, before⟩
  · rcases (reached w).1 other with rfl | other
    · rw [same]
      exact (List.pairwise_cons.1 tracks.ordered).1 u member
    · exact tracks.fresh u (List.mem_cons_of_mem s member) w other

/-- A search may begin with its initial states, with whatever predicates. -/
theorem tracks_of_states (begins : ∀ s ∈ states, setting.Begins s ∧ setting.Known context s)
    (distinct : ∀ s ∈ states, ∀ t ∈ states, s.id = t.id → s = t) :
    Tracks setting context [] (states.foldl SearchSets.insert {}) := by
  obtain ⟨sound, reached, waiting⟩ :=
    (SearchSets.sound_empty : ({} : SearchSets setting.analysis.partitionKey).Sound).insertAll states
  have inside : ∀ t, t ∈ (states.foldl SearchSets.insert
      ({} : SearchSets setting.analysis.partitionKey)).reached.toList → t ∈ states :=
    fun t member => ((reached t).1 member).resolve_right fun none => by cases none
  refine ⟨sound, fun t member => (reached t).2 (Or.inl (((waiting t).1 member).resolve_right
      fun none => by cases none)), fun t member => (begins t (inside t member)).2,
    fun t member => Or.inl (begins t (inside t member)).1,
    fun s first t second => distinct s (inside s first) t (inside t second), by simp, by simp, .nil⟩

/-- The first state of the queue may be expanded. -/
theorem Tracks.pop (plain : setting.task.Plain)
    {frontier : Frontier setting.analysis.partitionKey}
    (formed : ∀ s, setting.Occurs s → AllReturn (fun v => v.version = none) s.threads)
    (tracks : Tracks setting before [] sets) (popped : sets.frontier.pop? = some (s, frontier))
    (given : (setting.analysis.successors s).Yields before states after) :
    Tracks setting after states { sets with frontier } := by
  obtain ⟨queue, sound⟩ := tracks.sound.frontier.pop popped
  have member : s ∈ sets.reached.toList := tracks.waits s (by simp [queue])
  have known := tracks.known s member
  obtain ⟨grows, ordered, each⟩ :=
    precedes_of_successors plain (formed s known.occurs) known given
  refine ⟨⟨tracks.sound.reached, sound⟩, fun t waiting => tracks.waits t (by simp [queue, waiting]),
    fun t inside => (tracks.known t inside).mono grows, tracks.origins, tracks.distinct,
    fun t inside => ?_, fun t inside u other => ?_, ordered⟩
  · obtain ⟨late, precedes, _⟩ := each t inside
    exact ⟨late, s, member, precedes⟩
  · exact Nat.lt_of_lt_of_le (tracks.known u other).numbered (each t inside).2.2

/-- After an infeasible violation the search may start over. -/
theorem Tracks.restart (tracks : Tracks setting context rest sets) (violation : setting.Occurs s)
    (given : Refiner.refinePrecision setting.analysis sets s = .ok (true, next)) :
    Tracks setting context [] next := by
  obtain ⟨f, found, initial, formed, predicates, _, initials, rfl⟩ := refinePrecision_eq_ok given
  refine tracks_of_states (fun t member => ?_) fun t first u second same => ?_
  · obtain ⟨r, listed, rfl⟩ := List.mem_map.1 member
    obtain ⟨inside, none⟩ := initials r listed
    have known := tracks.known r inside
    refine ⟨?_, .refined violation formed predicates known.occurs, known.numbered, known.alone⟩
    rcases tracks.origins r inside with begins | ⟨p, _, precedes⟩
    · exact ⟨begins.origin, begins.threads, begins.versions⟩
    · cases congrArg SortedSet.toList (precedes.origin.symm.trans none)
  · obtain ⟨r, listed, rfl⟩ := List.mem_map.1 first
    obtain ⟨q, other, rfl⟩ := List.mem_map.1 second
    rw [tracks.distinct r (initials r listed).1 q (initials q other).1 same]

/-! ### Trails -/

/-- States that come right after one another, from one that the search starts from. -/
structure Setting.Trail (setting : Setting σ) (trail : List (State σ)) : Prop where
  begins : ∀ first, trail.head? = some first → setting.Begins first
  steps : trail.IsChain setting.Precedes

/-- The provenances of the reached states are those of states that have not been merged. -/
theorem Tracks.linear (tracks : Tracks setting context rest sets) :
    Accessibility.Linear (sets.reached.toList.map (·.inner.provenance)) := by
  constructor
  · intro p member
    obtain ⟨s, inside, rfl⟩ := List.mem_map.1 member
    exact (tracks.known s inside).alone
  · intro p member id before
    obtain ⟨s, inside, rfl⟩ := List.mem_map.1 member
    rcases tracks.origins s inside with begins | ⟨q, other, precedes⟩
    · simp [begins.origin] at before
    · rw [precedes.origin, SortedSet.mem_singleton] at before
      subst before
      exact ⟨precedes.earlier, _, List.mem_map.2 ⟨q, other, rfl⟩, rfl⟩

/-- The path to a reached state is the numbers of a trail. -/
theorem Tracks.exists_trail (tracks : Tracks setting context rest sets)
    {accessibility : Accessibility} {path : List Nat}
    (related : setting.analysis.accessibility sets.reached = .ok accessibility)
    (member : s ∈ sets.reached.toList) (given : accessibility.pathTo s.id = .ok path) :
    ∃ trail, setting.Trail trail ∧ trail.map State.id = path ∧ trail.getLast? = some s ∧
      ∀ t ∈ trail, t ∈ sets.reached.toList := by
  have provenances : sets.reached.toList.filterMap setting.analysis.provenance =
      sets.reached.toList.map (·.inner.provenance) := by
    rw [← List.filterMap_eq_map]
    rfl
  unfold Analysis.accessibility at related
  rw [provenances] at related
  obtain ⟨consistent, vertices, edges⟩ := tracks.linear.ofProvenances related
  -- the edges between numbers are the steps between the states that have them
  have precedes : ∀ {u t}, u ∈ sets.reached.toList → t ∈ sets.reached.toList →
      accessibility.graph.hasEdge u.id t.id = true → setting.Precedes u t := by
    intro u t first second edge
    obtain ⟨q, listed, same, before⟩ := (edges _ _).1 edge
    obtain ⟨r, inside, rfl⟩ := List.mem_map.1 listed
    obtain rfl := tracks.distinct r inside t second same
    rcases tracks.origins r inside with begins | ⟨p, other, precedes⟩
    · simp [begins.origin] at before
    · rw [precedes.origin, SortedSet.mem_singleton] at before
      obtain rfl := tracks.distinct u first p other before
      exact precedes
  have descends : ∀ head tail, accessibility.graph.hasEdge head tail = true → head < tail := by
    intro head tail edge
    obtain ⟨q, listed, rfl, before⟩ := (edges _ _).1 edge
    exact (tracks.linear.earlier q listed head before).1
  have vertex : accessibility.graph.hasVertex s.id = true :=
    (vertices _).2 ⟨_, List.mem_map.2 ⟨s, member, rfl⟩, rfl⟩
  obtain ⟨isPath, last⟩ := Accessibility.isPath_of_pathTo consistent descends vertex given
  obtain ⟨trail, inside, rfl⟩ : ∃ trail : List (State σ),
      (∀ t ∈ trail, t ∈ sets.reached.toList) ∧ trail.map State.id = path := by
    refine exists_map_eq fun v visited => ?_
    obtain ⟨q, listed, rfl⟩ := (vertices v).1 (isPath.vertices v visited)
    obtain ⟨t, inside, rfl⟩ := List.mem_map.1 listed
    exact ⟨t, inside, rfl⟩
  refine ⟨trail, ⟨fun first head => ?_, ?_⟩, rfl, ?_, inside⟩
  · rcases tracks.origins first (inside first (List.mem_of_head? head)) with begins |
      ⟨p, other, before⟩
    · exact begins
    · have edge : accessibility.graph.hasEdge p.id first.id = true := by
        refine (edges _ _).2 ⟨_, List.mem_map.2
          ⟨first, inside first (List.mem_of_head? head), rfl⟩, rfl, ?_⟩
        rw [before.origin]
        exact SortedSet.mem_singleton.2 rfl
      have none := isPath.begins first.id (by rw [List.head?_map, head, Option.map_some]) p.id
      cases none.symm.trans edge
  · exact ((List.isChain_map State.id).1 isPath.edges).imp_of_mem_imp
      fun u t first second edge => precedes (inside u first) (inside t second) edge
  · rw [List.getLast?_map] at last
    obtain ⟨final, found, same⟩ := Option.map_eq_some_iff.1 last
    rw [found, tracks.distinct final (inside final (List.mem_of_getLast? found)) s member same]

omit [DecidableEq σ] in
/-- What satisfies the past of the last state of a trail leads along it. -/
theorem moves_of_trail {trail : List (State σ)} {assigned : Environment}
    (steps : trail.IsChain setting.Precedes) (typed : assigned.Typed)
    (last : ∀ s, trail.getLast? = some s → s.Recalls assigned) :
    (∀ t ∈ trail, t.Recalls assigned) ∧ (trail.map (·.configuration assigned)).IsChain
      (setting.task.Moves setting.policy) := by
  induction trail with
  | nil => exact ⟨by simp, .nil⟩
  | cons s rest ih =>
    cases rest with
    | nil => exact ⟨by simpa using last s rfl, .singleton _⟩
    | cons t rest =>
      obtain ⟨precedes, steps⟩ := List.isChain_cons_cons.1 steps
      obtain ⟨recalls, moves⟩ := ih steps fun u final => last u (by rwa [List.getLast?_cons_cons])
      obtain ⟨past, move⟩ := precedes.moves assigned typed (recalls t (by simp))
      exact ⟨List.forall_mem_cons.2 ⟨past, recalls⟩, .cons_cons move moves⟩

end Verification

end EventCheck
