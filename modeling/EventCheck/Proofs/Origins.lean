import EventCheck.Proofs.Course
import EventCheck.Proofs.Merging
import EventCheck.Proofs.Representatives
import EventCheck.Proofs.Trails

/-!
Where the states of a search come from, merges included. Every reached state has a number of its own,
every waiting state is reached, and whatever number a reached state names as a predecessor, some
reached state was merged from it. So the relation between the reached states leaves no predecessor
out.
-/

namespace EventCheck

namespace Verification

variable {σ : Type} [DecidableEq σ] {setting : Setting σ}
variable {s t u w old merged : State σ} {before middle after : Context}
variable {states rest coming : List (State σ)} {n : Nat} {id : Nat}

/-! ### Numbers along the operations -/

/-- The number of the state has been handed out, and the state is merged from itself at least. -/
structure State.Named (n : Nat) (s : State σ) : Prop where
  handed : s.id < n
  own : s.id ∈ s.inner.provenance.mergeOf

omit [DecidableEq σ] in
theorem State.Named.mono {m : Nat} (named : s.Named n) (grows : n ≤ m) : s.Named m :=
  ⟨Nat.lt_of_lt_of_le named.handed grows, named.own⟩

theorem named_initial (given : setting.analysis.initial.Yields before states after) :
    states.Pairwise (fun s t => s.id ≠ t.id) ∧
      ∀ s ∈ states, s.Named after.states ∧ s.inner.provenance.predecessors = ∅ := by
  obtain ⟨_, _, inner, _, numbered, count, rfl⟩ := numbered_initial given
  refine ⟨List.pairwise_map.2 (numbered.pairwise.imp Nat.ne_of_lt), fun s member => ?_⟩
  obtain ⟨p, inside, rfl⟩ := List.mem_map.1 member
  obtain ⟨_, origin, _, _, below⟩ := numbered.exists_of_mem inside
  refine ⟨⟨?_, numbered.own inside⟩, origin⟩
  rw [count, ← numbered.length]
  exact below

/-- Successors get new numbers. -/
theorem named_successors
    (given : (setting.analysis.withStatistics.successors s).Yields before states after) :
    before.states ≤ after.states ∧ states.Pairwise (fun t u => t.id ≠ u.id) ∧
      ∀ t ∈ states, t.Named after.states ∧ before.states ≤ t.id ∧
        t.inner.provenance.predecessors = .singleton s.id := by
  obtain ⟨middle, given, count⟩ := yields_successors_withStatistics given
  rcases yields_successors given with ⟨_, rfl, rfl⟩ | ⟨_, controls, start, inner, succeeded, numbered,
    added, rfl⟩
  · exact ⟨Nat.le_of_eq count.symm, .nil, nofun⟩
  · have kept : start.states = before.states := Control.keepsStates_successors _ _ _ succeeded
    refine ⟨by omega, List.pairwise_map.2 (numbered.pairwise.imp Nat.ne_of_lt), fun t member => ?_⟩
    obtain ⟨p, inside, rfl⟩ := List.mem_map.1 member
    obtain ⟨_, origin, _, low, high⟩ := numbered.exists_of_mem inside
    have bounds : before.states ≤ p.provenance.id ∧ p.provenance.id < after.states := by omega
    exact ⟨⟨bounds.2, numbered.own inside⟩, bounds.1, origin⟩

/-- Widening leaves a state the place that it has. -/
theorem provenance_widen {reached : List (State σ)}
    (given : (setting.analysis.withStatistics.widen s reached).Yields before t after) :
    t.inner.provenance = s.inner.provenance ∧ after.states = before.states := by
  obtain ⟨middle, given, count⟩ := yields_widen_withStatistics given
  refine ⟨?_, ?_⟩
  · rcases yields_widen given with ⟨_, rfl⟩ | ⟨_, _, _, _, _, _, _, _, _, same, _⟩
    · rfl
    · exact same
  · obtain ⟨_, rfl⟩ := Run.yields_ofExcept.1 given
    exact count

/-- A merge that is not the second state is a new state with the predecessors of both. -/
theorem provenance_merge (wanted : setting.analysis.shouldMerge s t = .ok true)
    (given : (setting.analysis.withStatistics.merge s t).Yields before u after) :
    u = t ∧ after.states = before.states ∨ after.states = before.states + 1 ∧
      u.inner.provenance =
        { id := before.states
          predecessors := s.inner.provenance.predecessors ∪ t.inner.provenance.predecessors
          mergeOf := (s.inner.provenance.mergeOf ∪ t.inner.provenance.mergeOf).insert
            before.states } := by
  obtain ⟨start, given, count⟩ := yields_merge_withStatistics given
  obtain ⟨_, summary, _, _⟩ := shouldMerge_eq_true wanted
  obtain ⟨inner, _, merged, given⟩ := Run.yields_bind.1 given
  obtain ⟨middle, inside, form⟩ := yields_merge_withProvenance merged
  obtain ⟨_, rfl⟩ := Run.yields_ofExcept.1 inside
  rw [summary, Formula.disjunction_self] at given
  rw [← count]
  split at given
  · rename_i same
    obtain ⟨rfl, rfl⟩ := Run.yields_pure.1 given
    rcases form with ⟨_, rfl⟩ | ⟨_, changed, _⟩
    · exact Or.inl ⟨rfl, rfl⟩
    · exact absurd (congrArg ProvenanceState.inner same.2) changed
  · rename_i changed
    obtain ⟨rfl, rfl⟩ := Run.yields_pure.1 given
    rcases form with ⟨same, _⟩ | ⟨added, _, provenance⟩
    · exact absurd ⟨rfl, same⟩ changed
    · exact Or.inr ⟨added, provenance⟩

/-- Asking whether a state is covered hands out no numbers. -/
theorem keepsStates_covered {reached : List (State σ)} {covered : Bool}
    (given : (setting.analysis.withStatistics.stop s reached).Yields before covered after) :
    after.states = before.states := by
  obtain ⟨first, last, stopped, begun, ended⟩ := yields_stop_withStatistics given
  have kept : last.states = first.states :=
    Abstraction.keepsStates_stop (fun _ _ => Run.keepsStates_ofExcept _) _ _ _ stopped
  rw [ended, kept, begun]

/-! ### What is known of the sets -/

section Sets

variable {key : State σ → PartitionKey} {sets next : SearchSets key}

omit [DecidableEq σ] in
/-- Some reached state was merged from the one with the number. -/
def Represented (reached : Reached key) (id : Nat) : Prop :=
  ∃ r ∈ reached.toList, id ∈ r.inner.provenance.mergeOf

/-- Where a search stands that has handed out `n` numbers and may yet admit some states. -/
structure Origins (n : Nat) (coming : List (State σ)) (sets : SearchSets key) : Prop where
  sound : sets.Sound
  waits : ∀ s ∈ sets.frontier.queue, s ∈ sets.reached.toList
  named : ∀ s ∈ sets.reached.toList, s.Named n
  distinct : ∀ s ∈ sets.reached.toList, ∀ t ∈ sets.reached.toList, s.id = t.id → s = t
  known : ∀ s ∈ sets.reached.toList, ∀ id ∈ s.inner.provenance.predecessors,
    Represented sets.reached id
  later : ∀ s ∈ coming, s.Named n ∧ ∀ id ∈ s.inner.provenance.predecessors,
    Represented sets.reached id
  fresh : ∀ s ∈ coming, ∀ t ∈ sets.reached.toList, t.id ≠ s.id
  apart : coming.Pairwise fun s t => s.id ≠ t.id

omit [DecidableEq σ] in
theorem Origins.mono {m : Nat} (origins : Origins n coming sets) (grows : n ≤ m) :
    Origins m coming sets :=
  { origins with
    named := fun s member => (origins.named s member).mono grows
    later := fun s member => (origins.later s member).imp_left fun named => named.mono grows }

/-- A search starts from states with numbers of their own and without predecessors. -/
theorem origins_start (named : ∀ s ∈ states, s.Named n ∧ s.inner.provenance.predecessors = ∅)
    (distinct : ∀ s ∈ states, ∀ t ∈ states, s.id = t.id → s = t) :
    Origins n [] (states.foldl SearchSets.insert ({} : SearchSets key)) := by
  obtain ⟨sound, reached, waiting⟩ := @SearchSets.sound_start _ key _ states
  refine ⟨sound, fun s member => (reached s).2 ((waiting s).1 member),
    fun s member => (named s ((reached s).1 member)).1, fun s first t second => ?_,
    fun s member id inside => ?_, nofun, nofun, .nil⟩
  · exact distinct s ((reached s).1 first) t ((reached t).1 second)
  · rw [(named s ((reached s).1 member)).2] at inside
    simp at inside

theorem Origins.pop (origins : Origins n [] sets) {frontier : Frontier key}
    (popped : sets.frontier.pop? = some (s, frontier)) :
    Origins n [] { sets with frontier } ∧ Represented sets.reached s.id := by
  obtain ⟨queue, sound⟩ := origins.sound.frontier.pop popped
  have waits := origins.waits
  rw [queue] at waits
  refine ⟨{ origins with
    sound := ⟨origins.sound.reached, sound⟩
    waits := fun t member => waits t (List.mem_cons_of_mem s member) }, ?_⟩
  have reached := waits s List.mem_cons_self
  exact ⟨s, reached, (origins.named s reached).own⟩

omit [DecidableEq σ] in
/-- The successors of a state that is represented may come. -/
theorem Origins.follow {m : Nat} (origins : Origins n [] sets) (represented : Represented sets.reached id)
    (grows : n ≤ m) (apart : states.Pairwise fun s t => s.id ≠ t.id)
    (named : ∀ s ∈ states, s.Named m ∧ n ≤ s.id ∧ s.inner.provenance.predecessors = .singleton id) :
    Origins m states sets := by
  refine { origins.mono grows with
    later := fun s member => ?_
    fresh := fun s member t reached => ?_
    apart }
  · obtain ⟨named, _, origin⟩ := named s member
    refine ⟨named, fun other inside => ?_⟩
    rw [origin] at inside
    exact SortedSet.mem_singleton.1 inside ▸ represented
  · have below := (origins.named t reached).handed
    have above := (named s member).2.1
    omega

omit [DecidableEq σ] in
/-- A state may be changed that keeps its place. -/
theorem Origins.widen (origins : Origins n (s :: rest) sets)
    (same : w.inner.provenance = s.inner.provenance) : Origins n (w :: rest) sets := by
  have number : w.id = s.id := congrArg Provenance.id same
  obtain ⟨⟨⟨handed, own⟩, known⟩, later⟩ := List.forall_mem_cons.1 origins.later
  obtain ⟨first, others⟩ := List.pairwise_cons.1 origins.apart
  refine { origins with
    later := List.forall_mem_cons.2 ⟨⟨⟨number ▸ handed, ?_⟩, ?_⟩, later⟩
    fresh := fun t member u reached => ?_
    apart := List.pairwise_cons.2 ⟨fun t member => number ▸ first t member, others⟩ }
  · rw [number, same]
    exact own
  · rw [same]
    exact known
  · rcases List.mem_cons.1 member with rfl | member
    · exact number ▸ origins.fresh s List.mem_cons_self u reached
    · exact origins.fresh t (List.mem_cons_of_mem s member) u reached

omit [DecidableEq σ] in
theorem Origins.skip (origins : Origins n (s :: rest) sets) : Origins n rest sets :=
  { origins with
    later := fun t member => origins.later t (List.mem_cons_of_mem s member)
    fresh := fun t member => origins.fresh t (List.mem_cons_of_mem s member)
    apart := (List.pairwise_cons.1 origins.apart).2 }

/-- What is represented is so by the merge that takes the place of its representative. -/
theorem represented_substitute (sound : sets.Sound) (changed : merged ≠ old)
    (merges : old.inner.provenance.mergeOf ⊆ merged.inner.provenance.mergeOf)
    (represented : Represented sets.reached id) :
    Represented (sets.substitute old merged).reached id := by
  obtain ⟨r, member, merge⟩ := represented
  obtain ⟨_, reached, _⟩ := sound.substitute changed
  by_cases same : r = old
  · exact ⟨merged, (reached merged).2 (Or.inl rfl), merges id (same ▸ merge)⟩
  · exact ⟨r, (reached r).2 (Or.inr ⟨member, same⟩), merge⟩

/-- A merge takes the place of a state under a new number. -/
theorem Origins.substitute (origins : Origins n coming sets) (changed : merged ≠ old)
    (left : ∀ id ∈ w.inner.provenance.predecessors, Represented sets.reached id)
    (right : ∀ id ∈ old.inner.provenance.predecessors, Represented sets.reached id)
    (provenance : merged.inner.provenance =
      { id := n
        predecessors := w.inner.provenance.predecessors ∪ old.inner.provenance.predecessors
        mergeOf := (w.inner.provenance.mergeOf ∪ old.inner.provenance.mergeOf).insert n }) :
    Origins (n + 1) coming (sets.substitute old merged) ∧
      ∀ id, Represented sets.reached id → Represented (sets.substitute old merged).reached id := by
  have number : merged.id = n := congrArg Provenance.id provenance
  obtain ⟨sound, reached, waiting⟩ := origins.sound.substitute changed
  have kept : ∀ id, Represented sets.reached id →
      Represented (sets.substitute old merged).reached id := fun id =>
    represented_substitute origins.sound changed fun id member => by
      rw [provenance]
      exact SortedSet.mem_insert.2 (Or.inr (SortedSet.mem_union.2 (Or.inr member)))
  have below : ∀ t ∈ sets.reached.toList, t.id ≠ n := fun t member =>
    Nat.ne_of_lt (origins.named t member).handed
  refine ⟨⟨sound, fun t member => ?_, fun t member => ?_, fun t first u second same => ?_,
    fun t member id inside => ?_, fun t member => ?_, fun t member u inside => ?_, origins.apart⟩, kept⟩
  · exact (reached t).2 (((waiting t).1 member).imp_right fun ⟨queued, different⟩ =>
      ⟨origins.waits t queued, different⟩)
  · rcases (reached t).1 member with rfl | ⟨member, _⟩
    · refine ⟨number ▸ Nat.lt_succ_self n, ?_⟩
      rw [number, provenance]
      exact SortedSet.mem_insert.2 (Or.inl rfl)
    · exact (origins.named t member).mono (Nat.le_succ n)
  · rcases (reached t).1 first with rfl | ⟨left, _⟩ <;>
      rcases (reached u).1 second with rfl | ⟨right, _⟩
    · rfl
    · exact absurd (same.symm.trans number) (below u right)
    · exact absurd (same.trans number) (below t left)
    · exact origins.distinct t left u right same
  · rcases (reached t).1 member with rfl | ⟨member, _⟩
    · rw [provenance] at inside
      exact kept id ((SortedSet.mem_union.1 inside).elim (left id) (right id))
    · exact kept id (origins.known t member id inside)
  · obtain ⟨named, known⟩ := origins.later t member
    exact ⟨named.mono (Nat.le_succ n), fun id inside => kept id (known id inside)⟩
  · rcases (reached u).1 inside with rfl | ⟨inside, _⟩
    · rw [number]
      exact (Nat.ne_of_lt (origins.later t member).1.handed).symm
    · exact origins.fresh t member u inside

/-- The next state to come may be admitted. -/
theorem Origins.accept (origins : Origins n (w :: rest) sets) {frontier : Frontier key}
    (sound : frontier.Sound) (waits : ∀ s ∈ frontier.queue, s = w ∨ s ∈ sets.frontier.queue) :
    Origins n rest { reached := sets.reached.insert w, frontier } := by
  have members := fun s => @Reached.mem_insert _ _ sets.reached w s _ origins.sound.reached
  obtain ⟨⟨named, known⟩, later⟩ := List.forall_mem_cons.1 origins.later
  obtain ⟨first, others⟩ := List.pairwise_cons.1 origins.apart
  have kept : ∀ id, Represented sets.reached id → Represented (sets.reached.insert w) id :=
    fun id ⟨r, member, merge⟩ => ⟨r, (members r).2 (Or.inr member), merge⟩
  refine ⟨⟨Reached.keyed_insert origins.sound.reached, sound⟩, fun t member => ?_,
    fun t member => ?_, fun t inside u second same => ?_, fun t member id inside => ?_,
    fun t member => ?_, fun t member u inside => ?_, others⟩
  · exact (members t).2 ((waits t member).imp_right (origins.waits t))
  · rcases (members t).1 member with rfl | member
    · exact named
    · exact origins.named t member
  · have away := origins.fresh w List.mem_cons_self
    rcases (members t).1 inside with rfl | left <;>
      rcases (members u).1 second with rfl | right
    · rfl
    · exact absurd same.symm (away u right)
    · exact absurd same (away t left)
    · exact origins.distinct t left u right same
  · rcases (members t).1 member with rfl | member
    · exact kept id (known id inside)
    · exact kept id (origins.known t member id inside)
  · exact (later t member).imp_right fun known id inside => kept id (known id inside)
  · rcases (members u).1 inside with rfl | inside
    · exact first t member
    · exact origins.fresh t (List.mem_cons_of_mem w member) u inside

end Sets

/-! ### Along a search -/

variable {limits : SearchLimits} {first : Context}

theorem Origins.merge {sets next : SearchSets setting.analysis.withStatistics.partitionKey}
    (origins : Origins before.states (w :: rest) sets)
    (given : (setting.analysis.withStatistics.mergeInto w sets).Yields before next after) :
    Origins after.states (w :: rest) next := by
  have known := (origins.later w List.mem_cons_self).2
  refine (Analysis.mergeInto_rule (a := setting.analysis.withStatistics)
    (fun context current => Origins context.states (w :: rest) current ∧
      ∀ id, Represented sets.reached id → Represented current.reached id)
    given ⟨origins, fun _ => id⟩ ?_).1
  rintro c d current old merged ⟨reached, kept⟩ inside wanted merge
  rcases provenance_merge wanted merge with ⟨rfl, same⟩ | ⟨count, provenance⟩
  · rw [if_pos rfl, same]
    exact ⟨reached, kept⟩
  · split
    · exact ⟨reached.mono (count ▸ Nat.le_succ _), kept⟩
    · rename_i changed
      obtain ⟨replaced, more⟩ := reached.substitute changed
        (fun id member => kept id (known id member))
        (fun id member => kept id (origins.known old inside id member)) provenance
      exact ⟨count ▸ replaced, fun id before => more id (kept id before)⟩

/-- The states that a search starts over with keep their numbers. -/
theorem Origins.restart {sets next : SearchSets setting.analysis.withStatistics.partitionKey}
    (origins : Origins n rest sets)
    (refined : @Refiner.refine _ setting.analysis.withStatistics.partitionKey setting.refiner sets s =
      .ok (true, next)) : Origins n [] next := by
  obtain ⟨_, found, initial, _, _, _, rootless, rfl⟩ := refinePrecision_eq_ok refined
  refine origins_start (fun t member => ?_) fun t first u second same => ?_
  · obtain ⟨t, inside, rfl⟩ := List.mem_map.1 member
    obtain ⟨reached, empty⟩ := rootless t inside
    have named := origins.named t reached
    exact ⟨⟨named.handed, named.own⟩, empty⟩
  · obtain ⟨t, left, rfl⟩ := List.mem_map.1 first
    obtain ⟨u, right, rfl⟩ := List.mem_map.1 second
    rw [origins.distinct t (rootless t left).1 u (rootless u right).1 same]

/-- Where a search stands at a moment of its course. -/
structure Placed {key : State σ → PartitionKey} (n : Nat) (m : Course key) : Prop where
  origins : Origins n m.phase.coming m.search.toSearchSets
  popped : ∀ s, m.phase = .popped s → Represented m.search.reached s.id

variable {m next : Course setting.analysis.withStatistics.partitionKey}

/-- Every operation hands out new numbers only, and loses none that is named as a predecessor. -/
theorem placed_of_advances (placed : Placed before.states m)
    (advances : setting.analysis.withStatistics.Advances setting.refiner limits before m after next) :
    Placed after.states next := by
  have origins := placed.origins
  cases advances with
  | pop idle popped =>
    rw [idle] at origins
    obtain ⟨rest, represented⟩ := origins.pop popped
    refine ⟨rest, fun s same => ?_⟩
    obtain rfl := Phase.popped.inj same
    exact represented
  | follow popped followed =>
    rw [popped] at origins
    obtain ⟨grows, apart, named⟩ := named_successors followed
    exact ⟨origins.follow (placed.popped _ popped) grows apart named, nofun⟩
  | merge expanding room widened merged =>
    rw [expanding] at origins
    obtain ⟨same, count⟩ := provenance_widen widened
    have origins := origins.widen same
    rw [← count] at origins
    exact ⟨origins.merge merged, nofun⟩
  | cover merged covered =>
    rw [merged, ← keepsStates_covered covered] at origins
    exact ⟨origins.skip, nofun⟩
  | accept merged uncovered =>
    rw [merged, ← keepsStates_covered uncovered] at origins
    obtain ⟨inserted, waiting⟩ := origins.sound.frontier.insert
    exact ⟨origins.accept inserted fun s => (waiting s).1, nofun⟩
  | violate merged uncovered =>
    rw [merged, ← keepsStates_covered uncovered] at origins
    exact ⟨origins.accept origins.sound.frontier fun s => Or.inr, nofun⟩
  | doubt judging =>
    rw [judging] at origins
    exact ⟨{ origins with }, nofun⟩
  | refine judging check budget refined =>
    have restarted := origins.restart refined
    exact ⟨restarted, nofun⟩
  | finish expanding =>
    rw [expanding] at origins
    exact ⟨origins, nofun⟩

theorem placed_of_comes
    (comes : setting.analysis.withStatistics.Comes setting.refiner limits first states after m) :
    Placed after.states m := by
  induction comes with
  | start given =>
    obtain ⟨apart, named⟩ := named_initial given
    have different : (states.map State.id).Nodup := List.pairwise_map.2 apart
    exact ⟨origins_start named fun s inside t other => List.inj_on_of_nodup_map different inside other,
      nofun⟩
  | step _ advances ih => exact placed_of_advances ih advances

/-! ### The relation between reached states -/

/-- The reached states tell where each of them comes from: the relation between them can be built,
it resolves every predecessor to a state that was merged from it, and it has an edge for each of
them that is not a loop. -/
structure Setting.Traces (setting : Setting σ)
    (sets : SearchSets setting.analysis.withStatistics.partitionKey) : Prop where
  distinct : (sets.reached.toList.map State.id).Nodup
  waits : ∀ s ∈ sets.frontier.queue, s ∈ sets.reached.toList
  known : ∀ s ∈ sets.reached.toList, ∀ id ∈ s.inner.provenance.predecessors,
    ∃ r ∈ sets.reached.toList, id ∈ r.inner.provenance.mergeOf
  related : ∃ accessibility,
    setting.analysis.withStatistics.accessibility sets.reached = .ok accessibility ∧
    (∀ v, accessibility.graph.hasVertex v = true ↔ ∃ s ∈ sets.reached.toList, s.id = v) ∧
    (∀ s ∈ sets.reached.toList, ∀ id ∈ s.inner.provenance.predecessors,
      ∃ r ∈ sets.reached.toList, id ∈ r.inner.provenance.mergeOf ∧
        accessibility.resolve id = some r.id ∧
        (r.id ≠ s.id → accessibility.graph.hasEdge r.id s.id = true)) ∧
    ∀ h t, accessibility.graph.hasEdge h t = true → h ≠ t ∧ ∃ s ∈ sets.reached.toList, s.id = t ∧
      ∃ id ∈ s.inner.provenance.predecessors, accessibility.resolve id = some h

theorem Origins.traces {sets : SearchSets setting.analysis.withStatistics.partitionKey}
    (origins : Origins n coming sets) : setting.Traces sets := by
  have provenances : sets.reached.toList.filterMap setting.analysis.withStatistics.provenance =
      sets.reached.toList.map (·.inner.provenance) := congrFun List.filterMap_eq_map' _
  obtain ⟨accessibility, built, representatives, _, vertices, edges⟩ :=
    Accessibility.exists_ofProvenances (sets.reached.toList.map (·.inner.provenance))
  rw [← provenances] at built
  simp only [List.mem_map, exists_exists_and_eq_and] at vertices edges
  have resolves : ∀ id, Represented sets.reached id → ∃ r ∈ sets.reached.toList,
      id ∈ r.inner.provenance.mergeOf ∧ accessibility.resolve id = some r.id := by
    rintro id ⟨r, member, merge⟩
    have listed : r.inner.provenance ∈ sets.reached.toList.map (·.inner.provenance) :=
      List.mem_map.2 ⟨r, member, rfl⟩
    obtain ⟨head, found⟩ := Accessibility.exists_representative listed merge
    obtain ⟨p, inside, rfl, same⟩ := Accessibility.exists_of_representativesOf found
    obtain ⟨u, reached, rfl⟩ := List.mem_map.1 inside
    refine ⟨u, reached, ?_, ?_⟩
    · rcases same with rfl | merged
      · exact (origins.named u reached).own
      · exact merged
    · rw [Accessibility.resolve, representatives, found]
      rfl
  refine ⟨(Reached.nodup_toList origins.sound.reached).map_on origins.distinct, origins.waits,
    origins.known, accessibility, built, vertices, fun s member id inside => ?_, fun h t edge => ?_⟩
  · obtain ⟨r, reached, merge, found⟩ := resolves id (origins.known s member id inside)
    refine ⟨r, reached, merge, found, fun different => ?_⟩
    exact (edges r.id s.id).2 ⟨s, member, rfl, different, id, inside, found⟩
  · obtain ⟨s, member, same, different, found⟩ := (edges h t).1 edge
    exact ⟨different, s, member, same, found⟩

/-- At every moment of a search of the standard stack, with merges and without, the reached states
tell where each of them comes from. -/
theorem traces_of_comes
    (comes : setting.analysis.withStatistics.Comes setting.refiner limits first states after m) :
    setting.Traces m.search.toSearchSets :=
  (placed_of_comes comes).origins.traces

/-- A search leaves the sets as they are at its last moment. -/
theorem eq_of_leaves {sets : SearchSets setting.analysis.withStatistics.partitionKey}
    (leaves : setting.analysis.withStatistics.Leaves setting.refiner m sets) :
    sets = m.search.toSearchSets := by
  rcases leaves with same | ⟨w, _, _, refined⟩
  · exact same
  · exact Refiner.eq_of_refinePrecision (a := setting.analysis) (s := w) refined

/-- A search of the program that sets a variable or asks for its value, with merges. -/
def setOrAskJoined : Bool :=
  setOrAsk.toOption.any fun task => ((Setting.joining task).trace {} 3).any fun (outcome, context) =>
    outcome.reachedStates == 2 && context.statistics.merges == 1 && context.states == 4

theorem setOrAskJoined_eq_true : setOrAskJoined = true := by decide +kernel

/-- Of the four states that the search numbers the two branches are merged into the last one. -/
theorem exists_traces_joined : ∃ (task : Task) (states : List (State Formula)) (context : Context)
    (m : Course (Setting.joining task).analysis.withStatistics.partitionKey),
    setOrAsk = .ok task ∧ m.search.reached.size = 2 ∧
      (Setting.joining task).analysis.withStatistics.Comes (Setting.joining task).refiner {} {} states
        context m ∧ (Setting.joining task).Traces m.search.toSearchSets := by
  obtain ⟨task, created, checked⟩ := (Option.any_eq_true _ _).1 setOrAskJoined_eq_true
  obtain ⟨⟨outcome, after⟩, traced, checked⟩ := (Option.any_eq_true _ _).1 checked
  simp only [Bool.and_eq_true, beq_iff_eq] at checked
  have finds := finds_of_trace traced
  obtain ⟨states, _, ⟨_, same, context, m, sets, comes, _, leaves, size⟩ | ⟨_, _, _, none, _⟩⟩ :=
    Analysis.comes_of_reachability finds
  · obtain rfl := Option.some.inj same
    obtain rfl := eq_of_leaves leaves
    have made := toOption_eq_some_iff.1 created
    exact ⟨task, states, context, m, made, size.symm.trans checked.1.1, comes, traces_of_comes comes⟩
  · cases none

end Verification

end EventCheck
