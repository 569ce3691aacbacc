import EventCheck.Proofs.BackEdges
import EventCheck.Proofs.Building
import EventCheck.Proofs.Runs

/-!
What graphs answer after any changes. Vertices and edges may be put in again, edges may be put in
before their ends, and nothing comes of it: such a change fails before it has touched a table. So
whatever is asked about a vertex is found, and a search from it finds the vertices that a way leads
to.
-/

namespace EventCheck

namespace Graph

variable {ν ε : Type} {g next : Graph ν ε} {s : Spread} {start u v : Nat} {vertices : List Nat}

/-! ### Changes in place -/

/-- What can be done to a graph. -/
inductive Change (ν ε : Type) where
  | vertex (vertex : Nat) (label : ν)
  | edge (head tail : Nat) (label : ε)
  | relabel (head tail : Nat) (f : ε → ε)

namespace Change

/-- The graph that the change leads to. -/
def apply (g : Graph ν ε) : Change ν ε → Except Error (Graph ν ε)
  | vertex v label => g.insertVertex v label
  | edge head tail label => g.insertEdge head tail label
  | relabel head tail f => g.updateEdge head tail f

/-- The change made table by table. -/
def inPlace : Change ν ε → InPlace (Graph ν ε) Unit
  | vertex v label => do
    if (← get).hasVertex v then throw .duplicateVertex
    modify fun g => { g with successors := g.successors.insert v ∅ }
    modify fun g => { g with predecessors := g.predecessors.insert v ∅ }
    modify fun g => { g with vertices := g.vertices.insert v label }
  | edge head tail label => do
    if (← get).hasEdge head tail then throw .duplicateEdge
    if !(← get).hasVertex head then throw (.vertexNotFound head)
    if !(← get).hasVertex tail then throw (.vertexNotFound tail)
    modify fun g => { g with edges := g.edges.insert ⟨head, tail⟩ label }
    modify fun g => { g with
      successors := g.successors.insert head ((g.successors.getD head ∅).insert tail) }
    modify fun g => { g with
      predecessors := g.predecessors.insert tail ((g.predecessors.getD tail ∅).insert head) }
  | relabel head tail f => do
    match (← get).edges.get? ⟨head, tail⟩ with
    | none => throw (.edgeNotFound head tail)
    | some label => modify fun g => { g with edges := g.edges.insert ⟨head, tail⟩ (f label) }

/-- In place a change leads to the same graph, and one that fails leaves the graph as it was. -/
theorem outcome_inPlace (change : Change ν ε) (g : Graph ν ε) :
    change.inPlace.outcome g =
      match change.apply g with
      | .ok next => (.ok (), next)
      | .error error => (.error error, g) := by
  cases change with
  | vertex v label =>
    simp only [inPlace, apply, insertVertex, InPlace.outcome_bind, InPlace.outcome_get]
    split
    · rfl
    · simp only [InPlace.outcome_bind, InPlace.outcome_modify]
  | edge head tail label =>
    simp only [inPlace, apply, insertEdge, InPlace.outcome_bind, InPlace.outcome_get]
    split
    · rfl
    · simp only [InPlace.outcome_bind, InPlace.outcome_get]
      split
      · rfl
      · simp only [InPlace.outcome_bind, InPlace.outcome_get]
        split
        · rfl
        · simp only [InPlace.outcome_bind, InPlace.outcome_modify]
  | relabel head tail f =>
    simp only [inPlace, apply, updateEdge, InPlace.outcome_bind, InPlace.outcome_get]
    cases g.edges.get? ⟨head, tail⟩ <;> rfl

/-- What the change makes of the vertices and edges. An edge only comes between vertices, and what
is there stays. -/
def Effect (g next : Graph ν ε) : Change ν ε → Prop
  | vertex v _ =>
    (∀ u, next.hasVertex u = true ↔ u = v ∨ g.hasVertex u = true) ∧
      ∀ head tail, next.hasEdge head tail = g.hasEdge head tail
  | edge v w _ =>
    (∀ u, next.hasVertex u = g.hasVertex u) ∧
      ∀ head tail, next.hasEdge head tail = true ↔
        ((head = v ∧ tail = w) ∧ g.hasVertex v = true ∧ g.hasVertex w = true) ∨
          g.hasEdge head tail = true
  | relabel .. =>
    (∀ u, next.hasVertex u = g.hasVertex u) ∧
      ∀ head tail, next.hasEdge head tail = g.hasEdge head tail

/-- The graph after the change, whether or not it fails. -/
def after (change : Change ν ε) (g : Graph ν ε) : Graph ν ε := (change.inPlace.outcome g).2

theorem after_eq (change : Change ν ε) (g : Graph ν ε) :
    change.after g = match change.apply g with
      | .ok next => next
      | .error _ => g := by
  rw [after, outcome_inPlace]
  cases change.apply g <;> rfl

end Change

/-- A change that succeeds keeps the tables in agreement. -/
theorem Consistent.apply (consistent : g.Consistent) {change : Change ν ε}
    (applied : change.apply g = .ok next) : next.Consistent ∧ change.Effect g next := by
  cases change with
  | vertex v label =>
    obtain ⟨after, vertices, edges⟩ := consistent.insertVertex applied
    refine ⟨after, fun u => ?_, edges⟩
    rw [vertices, Bool.or_eq_true, beq_iff_eq]
  | edge v w label =>
    obtain ⟨after, vertices, edges⟩ := consistent.insertEdge applied
    refine ⟨after, vertices, fun head tail => (edges head tail).trans (or_congr_left ?_)⟩
    have inserted := (edges v w).2 (Or.inl ⟨rfl, rfl⟩)
    obtain ⟨first, second⟩ := after.ends inserted
    rw [vertices] at first second
    exact (and_iff_left ⟨first, second⟩).symm
  | relabel head tail f => exact consistent.updateEdge applied

/-- A change only fails if there is nothing to change. -/
theorem effect_of_apply_error {change : Change ν ε} {error : Error}
    (failed : change.apply g = .error error) : change.Effect g g := by
  cases change with
  | vertex v label =>
    simp only [Change.apply, insertVertex] at failed
    split at failed
    · rename_i present
      exact ⟨fun u => (or_iff_right_of_imp fun same => same ▸ present).symm, fun _ _ => rfl⟩
    · cases failed
  | edge v w label =>
    refine ⟨fun _ => rfl, fun head tail => (or_iff_right_of_imp ?_).symm⟩
    rintro ⟨⟨rfl, rfl⟩, first, second⟩
    simp only [Change.apply, insertEdge, first, second] at failed
    split at failed
    · assumption
    · cases failed
  | relabel head tail f => exact ⟨fun _ => rfl, fun _ _ => rfl⟩

theorem Consistent.after (consistent : g.Consistent) (change : Change ν ε) :
    (change.after g).Consistent ∧ change.Effect g (change.after g) := by
  rw [Change.after_eq]
  cases applied : change.apply g with
  | ok next => exact consistent.apply applied
  | error error => exact ⟨consistent, effect_of_apply_error applied⟩

/-- The graph after changes made one after the other, those that fail among them. -/
def afterAll (changes : List (Change ν ε)) (g : Graph ν ε) : Graph ν ε :=
  changes.foldl (fun g change => change.after g) g

theorem Consistent.afterAll (consistent : g.Consistent) (changes : List (Change ν ε)) :
    (g.afterAll changes).Consistent := by
  induction changes generalizing g with
  | nil => exact consistent
  | cons change rest ih => exact ih (consistent.after change).1

/-! ### Edges at a vertex -/

/-- The edges to or from all neighbours of a vertex, as they are listed. -/
theorem listed_edges (arcOf : Nat → Arc) {neighbours : List Nat}
    (members : ∀ n, n ∈ neighbours ↔ g.edges.contains (arcOf n) = true) :
    let listed := neighbours.filterMap fun n => (g.edges.get? (arcOf n)).map (arcOf n, ·)
    listed.map (·.1) = neighbours.map arcOf ∧
      ∀ arc label, (arc, label) ∈ listed ↔
        (∃ n, arcOf n = arc) ∧ g.edges.get? arc = some label := by
  intro listed
  constructor
  · have present : ∀ n ∈ neighbours, g.edges.contains (arcOf n) = true := fun n => (members n).1
    clear members
    induction neighbours with
    | nil => rfl
    | cons n rest ih =>
      obtain ⟨here, others⟩ := List.forall_mem_cons.1 present
      obtain ⟨label, found⟩ := SortedMap.contains_iff.1 here
      simp [listed, found, ih others]
  · intro arc label
    simp only [listed, List.mem_filterMap, Option.map_eq_some_iff, Prod.mk.injEq]
    constructor
    · rintro ⟨n, _, _, found, rfl, rfl⟩
      exact ⟨⟨n, rfl⟩, found⟩
    · rintro ⟨⟨n, rfl⟩, found⟩
      exact ⟨n, (members n).2 (SortedMap.contains_iff.2 ⟨label, found⟩), label, found, rfl, rfl⟩

/-- The edges that leave a vertex are found, one for each successor. -/
theorem Consistent.edgesOut (consistent : g.Consistent) (vertex : g.hasVertex v = true) :
    ∃ tails edges, g.successorsOf v = .ok tails ∧ g.edgesOut v = .ok edges ∧
      edges.map (·.1) = tails.toList.map (⟨v, ·⟩) ∧
      ∀ arc label, (arc, label) ∈ edges ↔ arc.head = v ∧ g.edges.get? arc = some label := by
  obtain ⟨tails, known, members⟩ := consistent.successorsOf vertex
  obtain ⟨arcs, listed⟩ := listed_edges (⟨v, ·⟩) members
  refine ⟨tails, _, known, by rw [Graph.edgesOut, known]; rfl, arcs, fun arc label => ?_⟩
  refine (listed arc label).trans (and_congr_left' ⟨?_, ?_⟩)
  · rintro ⟨tail, rfl⟩
    rfl
  · rintro rfl
    exact ⟨arc.tail, rfl⟩

/-- The edges that enter a vertex are found, one for each predecessor. -/
theorem Consistent.edgesIn (consistent : g.Consistent) (vertex : g.hasVertex v = true) :
    ∃ heads edges, g.predecessorsOf v = .ok heads ∧ g.edgesIn v = .ok edges ∧
      edges.map (·.1) = heads.toList.map (⟨·, v⟩) ∧
      ∀ arc label, (arc, label) ∈ edges ↔ arc.tail = v ∧ g.edges.get? arc = some label := by
  obtain ⟨heads, known, members⟩ := consistent.predecessorsOf vertex
  obtain ⟨arcs, listed⟩ := listed_edges (⟨·, v⟩) members
  refine ⟨heads, _, known, by rw [Graph.edgesIn, known]; rfl, arcs, fun arc label => ?_⟩
  refine (listed arc label).trans (and_congr_left' ⟨?_, ?_⟩)
  · rintro ⟨head, rfl⟩
    rfl
  · rintro rfl
    exact ⟨arc.head, rfl⟩

/-! ### What a search reaches -/

theorem mem_reached_reach : u ∈ (s.reach v).reached ↔ u = v ∨ u ∈ s.reached := by
  unfold Spread.reach
  split
  · rename_i present
    exact (or_iff_right_of_imp fun same => same ▸ SortedSet.contains_iff.1 present).symm
  · exact SortedSet.mem_insert

theorem mem_waiting_reach : u ∈ (s.reach v).waiting ↔ u ∈ s.waiting ∨ u = v ∧ u ∉ s.reached := by
  unfold Spread.reach
  split
  · rename_i present
    refine (or_iff_left ?_).symm
    rintro ⟨rfl, fresh⟩
    exact fresh (SortedSet.contains_iff.1 present)
  · rename_i fresh
    rw [List.mem_cons, or_comm]
    refine or_congr_right (iff_self_and.2 ?_)
    rintro rfl present
    exact fresh (SortedSet.contains_iff.2 present)

theorem mem_reached_foldl :
    u ∈ (vertices.foldl Spread.reach s).reached ↔ u ∈ s.reached ∨ u ∈ vertices := by
  induction vertices generalizing s with
  | nil => simp
  | cons first rest ih =>
    rw [List.foldl_cons, ih, mem_reached_reach, List.mem_cons, or_assoc, or_left_comm]

/-- Of the vertices that are reached together those that are new have to wait. -/
theorem mem_waiting_foldl :
    u ∈ (vertices.foldl Spread.reach s).waiting ↔
      u ∈ s.waiting ∨ u ∈ vertices ∧ u ∉ s.reached := by
  induction vertices generalizing s with
  | nil => simp
  | cons first rest ih =>
    rw [List.foldl_cons, ih, mem_waiting_reach, mem_reached_reach, List.mem_cons]
    tauto

/-- What holds at every moment of a search from a vertex: ways lead to what it has reached, and of
the vertices that do not wait the edges have been followed. -/
structure Spreading (g : Graph ν ε) (start : Nat) (s : Spread) : Prop where
  begins : start ∈ s.reached
  way : ∀ v ∈ s.reached, ∃ arcs, g.Way start arcs v
  waiting : ∀ v ∈ s.waiting, v ∈ s.reached
  followed : ∀ v ∈ s.reached, v ∉ s.waiting → ∀ tail, g.hasEdge v tail = true → tail ∈ s.reached

theorem Consistent.hasVertex_of_way (consistent : g.Consistent) (vertex : g.hasVertex u = true)
    {arcs : List Arc} (way : g.Way u arcs v) : g.hasVertex v = true := by
  induction way with
  | nil _ => exact vertex
  | cons edge _ ih => exact ih (consistent.ends edge).2

namespace Spreading

theorem initial (g : Graph ν ε) (start : Nat) :
    g.Spreading start { reached := .singleton start, waiting := [start] } where
  begins := SortedSet.mem_singleton.2 rfl
  way v member := by
    obtain rfl := SortedSet.mem_singleton.1 member
    exact ⟨[], .nil v⟩
  waiting v member := SortedSet.mem_singleton.2 (List.mem_singleton.1 member)
  followed v member away :=
    absurd (List.mem_singleton.2 (SortedSet.mem_singleton.1 member)) away

/-- The edges from one vertex are followed. -/
theorem follow {rest tails : List Nat} (spreading : g.Spreading start s)
    (queue : s.waiting = v :: rest)
    (members : ∀ tail, tail ∈ tails ↔ g.hasEdge v tail = true) :
    g.Spreading start (tails.foldl Spread.reach { s with waiting := rest }) := by
  have here : v ∈ s.reached := spreading.waiting v (queue ▸ List.mem_cons_self)
  constructor
  · exact mem_reached_foldl.2 (Or.inl spreading.begins)
  · intro u member
    rcases mem_reached_foldl.1 member with old | new
    · exact spreading.way u old
    · obtain ⟨arcs, way⟩ := spreading.way v here
      exact ⟨_, way.snoc ((members u).1 new)⟩
  · intro u member
    rcases mem_waiting_foldl.1 member with old | ⟨new, _⟩
    · exact mem_reached_foldl.2 (Or.inl (spreading.waiting u (queue ▸ List.mem_cons_of_mem _ old)))
    · exact mem_reached_foldl.2 (Or.inr new)
  · intro u member away tail edge
    obtain ⟨gone, known⟩ := not_or.1 (mt mem_waiting_foldl.2 away)
    -- a vertex that does not wait now is not new, so its edges were followed now or before
    have old : u ∈ s.reached := by
      rcases mem_reached_foldl.1 member with old | new
      · exact old
      · exact not_not.1 fun fresh => known ⟨new, fresh⟩
    by_cases same : u = v
    · exact mem_reached_foldl.2 (Or.inr ((members tail).2 (same ▸ edge)))
    · have before : u ∉ s.waiting := queue ▸ List.not_mem_cons_of_ne_of_not_mem same gone
      exact mem_reached_foldl.2 (Or.inl (spreading.followed u old before tail edge))

/-- When no vertex waits the search has reached all that ways lead to. -/
theorem mem_iff (spreading : g.Spreading start s) (done : s.waiting = []) :
    v ∈ s.reached ↔ ∃ arcs, g.Way start arcs v := by
  refine ⟨spreading.way v, fun ⟨arcs, way⟩ => ?_⟩
  refine way.induction spreading.begins fun arc _ edge before => ?_
  exact spreading.followed arc.head before (by simp [done]) arc.tail edge

/-- The search finds the entry of each vertex that it comes to, and it comes to an end. -/
theorem exists_spread (consistent : g.Consistent) (vertex : g.hasVertex start = true)
    (spreading : g.Spreading start s) : ∃ reached, g.spread s = .ok reached ∧
      ∀ v, v ∈ reached ↔ ∃ arcs, g.Way start arcs v := by
  fun_induction g.spread s with
  | case1 s done => exact ⟨s.reached, rfl, fun v => spreading.mem_iff done⟩
  | case2 s v rest queue missing =>
    obtain ⟨arcs, way⟩ := spreading.way v (spreading.waiting v (queue ▸ List.mem_cons_self))
    have present := consistent.hasVertex_of_way vertex way
    obtain ⟨tails, known⟩ := SortedMap.contains_iff.1 ((consistent.successors v).trans present)
    rw [missing] at known
    cases known
  | case3 s v rest queue tails known ih =>
    refine ih (spreading.follow queue fun tail => ?_)
    rw [← List.mem_reverse]
    exact consistent.mem_reverse_iff known

end Spreading

theorem Consistent.reachable (consistent : g.Consistent) (vertex : g.hasVertex v = true) :
    ∃ reached, g.reachable v = .ok reached ∧ ∀ u, u ∈ reached ↔ ∃ arcs, g.Way v arcs u := by
  rw [Graph.reachable, if_pos vertex]
  exact (Spreading.initial g v).exists_spread consistent vertex

/-! ### Any changes -/

/-- What is asked about a vertex is found: an edge for each neighbour, so that none is passed over,
and just the vertices that a way of any length leads to. Only what is asked about other numbers is
an error. -/
structure Answers (g : Graph ν ε) : Prop where
  ends : ∀ head tail, g.hasEdge head tail = true →
    g.hasVertex head = true ∧ g.hasVertex tail = true
  out : ∀ v, g.hasVertex v = true →
    ∃ tails edges, g.successorsOf v = .ok tails ∧ g.edgesOut v = .ok edges ∧
      edges.map (·.1) = tails.toList.map (⟨v, ·⟩) ∧
      ∀ arc label, (arc, label) ∈ edges ↔ arc.head = v ∧ g.edges.get? arc = some label
  into : ∀ v, g.hasVertex v = true →
    ∃ heads edges, g.predecessorsOf v = .ok heads ∧ g.edgesIn v = .ok edges ∧
      edges.map (·.1) = heads.toList.map (⟨·, v⟩) ∧
      ∀ arc label, (arc, label) ∈ edges ↔ arc.tail = v ∧ g.edges.get? arc = some label
  reachable : ∀ v, g.hasVertex v = true →
    ∃ reached, g.reachable v = .ok reached ∧ ∀ u, u ∈ reached ↔ ∃ arcs, g.Way v arcs u
  missing : ∀ v, g.hasVertex v = false →
    g.edgesOut v = .error (.vertexNotFound v) ∧ g.edgesIn v = .error (.vertexNotFound v) ∧
      g.reachable v = .error (.vertexNotFound v)

theorem Consistent.answers (consistent : g.Consistent) : g.Answers where
  ends _ _ edge := consistent.ends edge
  out _ vertex := consistent.edgesOut vertex
  into _ vertex := consistent.edgesIn vertex
  reachable _ vertex := consistent.reachable vertex
  missing v absent := by
    have first := SortedMap.contains_eq_false_iff.1 ((consistent.successors v).trans absent)
    have second := SortedMap.contains_eq_false_iff.1 ((consistent.predecessors v).trans absent)
    refine ⟨?_, ?_, by rw [Graph.reachable, absent]; rfl⟩
    · rw [Graph.edgesOut, Graph.successorsOf, first]
      rfl
    · rw [Graph.edgesIn, Graph.predecessorsOf, second]
      rfl

/-- After any changes the tables agree, so that what is asked of the graph is found. Each further
change has its effect, and if it fails the graph stays as it was. -/
theorem answers_after_changes (changes : List (Change ν ε)) :
    let g := (∅ : Graph ν ε).afterAll changes
    g.Consistent ∧ g.Answers ∧
      ∀ change : Change ν ε, change.Effect g (change.after g) ∧
        ∀ error, (change.inPlace.outcome g).1 = .error error → change.after g = g := by
  intro g
  have consistent : g.Consistent := consistent_empty.afterAll changes
  refine ⟨consistent, consistent.answers, fun change => ⟨(consistent.after change).2, ?_⟩⟩
  intro error failed
  rw [Change.outcome_inPlace] at failed
  rw [Change.after_eq]
  cases applied : change.apply g with
  | ok next =>
    rw [applied] at failed
    cases failed
  | error error => rfl

end Graph

end EventCheck
