import EventCheck.Graph.Basic
import EventCheck.Proofs.Runs

/-!
The tables of a graph under insertions. The edges and the two indices of neighbours say the same,
and both ends of an edge are vertices.
-/

namespace EventCheck

namespace Graph

variable {ν ε : Type} {g next : Graph ν ε} {v w head tail : Nat}

/-- The tables of the graph agree. -/
structure Consistent (g : Graph ν ε) : Prop where
  successors : ∀ v, g.successors.contains v = g.hasVertex v
  predecessors : ∀ v, g.predecessors.contains v = g.hasVertex v
  tails : ∀ head tail, g.hasEdge head tail = true ↔ tail ∈ g.successors.getD head ∅
  heads : ∀ head tail, g.hasEdge head tail = true ↔ head ∈ g.predecessors.getD tail ∅

theorem consistent_empty : (∅ : Graph ν ε).Consistent :=
  ⟨fun _ => rfl, fun _ => rfl, fun _ _ => iff_of_false (by nofun) (by nofun),
    fun _ _ => iff_of_false (by nofun) (by nofun)⟩

theorem mem_getD {m : SortedMap Nat (SortedSet Nat)} (member : v ∈ m.getD w ∅) :
    m.contains w = true := by
  rw [SortedMap.contains_iff]
  cases found : m.get? w with
  | some set => exact ⟨set, rfl⟩
  | none => simp [SortedMap.getD, found] at member

/-- Both ends of an edge are vertices. -/
theorem Consistent.ends (consistent : g.Consistent) (edge : g.hasEdge head tail = true) :
    g.hasVertex head = true ∧ g.hasVertex tail = true := by
  rw [← consistent.successors, ← consistent.predecessors]
  exact ⟨mem_getD ((consistent.tails head tail).1 edge),
    mem_getD ((consistent.heads head tail).1 edge)⟩

theorem Consistent.predecessorsOf (consistent : g.Consistent) (vertex : g.hasVertex v = true) :
    ∃ heads, g.predecessorsOf v = .ok heads ∧
      ∀ head, head ∈ heads ↔ g.hasEdge head v = true := by
  obtain ⟨heads, found⟩ := SortedMap.contains_iff.1 ((consistent.predecessors v).trans vertex)
  refine ⟨heads, by rw [Graph.predecessorsOf, found], fun head => ?_⟩
  rw [consistent.heads, SortedMap.getD, found, Option.getD_some]

theorem contains_insert {β : Type} {m : SortedMap Nat β} {b : β} :
    (m.insert v b).contains w = (w == v || m.contains w) := by
  rw [SortedMap.contains, SortedMap.get?_insert]
  by_cases same : w = v <;> simp [same, SortedMap.contains]

theorem getD_insert {m : SortedMap Nat (SortedSet Nat)} {set : SortedSet Nat} :
    (m.insert v set).getD w ∅ = if w = v then set else m.getD w ∅ := by
  rw [SortedMap.getD, SortedMap.get?_insert]
  split <;> rfl

/-- A new vertex has no neighbours. -/
theorem Consistent.insertVertex {label : ν} (consistent : g.Consistent)
    (inserted : g.insertVertex v label = .ok next) : next.Consistent ∧
      (∀ w, next.hasVertex w = (w == v || g.hasVertex w)) ∧
      ∀ head tail, next.hasEdge head tail = g.hasEdge head tail := by
  unfold Graph.insertVertex at inserted
  split at inserted
  · cases inserted
  · rename_i fresh
    obtain rfl := Except.ok.inj inserted
    have away : ∀ {head tail}, g.hasEdge head tail = true → head ≠ v ∧ tail ≠ v := by
      intro head tail edge
      obtain ⟨first, second⟩ := consistent.ends edge
      exact ⟨fun same => fresh (same ▸ first), fun same => fresh (same ▸ second)⟩
    refine ⟨⟨fun w => ?_, fun w => ?_, fun head tail => ?_, fun head tail => ?_⟩,
      fun w => contains_insert, fun _ _ => rfl⟩
    · rw [hasVertex, contains_insert, contains_insert, consistent.successors, hasVertex]
    · rw [hasVertex, contains_insert, contains_insert, consistent.predecessors, hasVertex]
    · rw [getD_insert]
      split
      · rename_i same
        exact iff_of_false (fun edge => (away edge).1 same) (by simp)
      · exact consistent.tails head tail
    · rw [getD_insert]
      split
      · rename_i same
        exact iff_of_false (fun edge => (away edge).2 same) (by simp)
      · exact consistent.heads head tail

theorem Consistent.insertEdge {label : ε} (consistent : g.Consistent)
    (inserted : g.insertEdge v w label = .ok next) : next.Consistent ∧
      (∀ u, next.hasVertex u = g.hasVertex u) ∧
      ∀ head tail, next.hasEdge head tail = true ↔
        (head = v ∧ tail = w) ∨ g.hasEdge head tail = true := by
  unfold Graph.insertEdge at inserted
  split at inserted
  · cases inserted
  split at inserted
  · cases inserted
  split at inserted
  · cases inserted
  rename_i first second
  obtain rfl := Except.ok.inj inserted
  simp only [Bool.not_eq_true', Bool.not_eq_false] at first second
  have edges : ∀ head tail, (g.edges.insert ⟨v, w⟩ label).contains ⟨head, tail⟩ = true ↔
      (head = v ∧ tail = w) ∨ g.hasEdge head tail = true := by
    intro head tail
    rw [SortedMap.contains, SortedMap.get?_insert, hasEdge, SortedMap.contains]
    by_cases same : (⟨head, tail⟩ : Arc) = ⟨v, w⟩
    · exact iff_of_true (by simp [same]) (Or.inl (by simpa using Arc.mk.inj same))
    · rw [if_neg same]
      exact (or_iff_right fun both => same (by rw [both.1, both.2])).symm
  refine ⟨⟨fun u => ?_, fun u => ?_, fun head tail => (edges head tail).trans ?_,
    fun head tail => (edges head tail).trans ?_⟩, fun _ => rfl, edges⟩
  · show (g.successors.insert v _).contains u = g.hasVertex u
    rw [contains_insert, consistent.successors]
    by_cases same : u = v
    · simp [same, first]
    · simp [same]
  · show (g.predecessors.insert w _).contains u = g.hasVertex u
    rw [contains_insert, consistent.predecessors]
    by_cases same : u = w
    · simp [same, second]
    · simp [same]
  · rw [getD_insert, consistent.tails]
    by_cases same : head = v
    · simp [same]
    · simp [same]
  · rw [getD_insert, consistent.heads]
    by_cases same : tail = w
    · simp [same]
    · simp [same]

end Graph

end EventCheck
