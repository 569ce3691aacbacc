import EventCheck.Proofs.Ways
import EventCheck.Search.Accessibility
import Mathlib.Data.List.Perm.Subperm

/-!
Paths through the reached states of a search. The path to a state goes back over predecessors until
all of them are on it. Then the first state has no predecessors, unless it lies on a loop. Without
merges every state stands for itself, and there are no loops.
-/

namespace EventCheck

namespace Accessibility

variable {g next : Graph Unit Unit} {provenances : List Provenance} {v head tail : Nat}
variable {representatives : SortedMap Nat Nat} {a : Accessibility}

/-! ### Edges -/

theorem consistent_addVertex (consistent : g.Consistent)
    (given : provenances.foldlM addVertex g = .ok next) : next.Consistent ∧
      (∀ v, next.hasVertex v = true ↔ g.hasVertex v = true ∨ ∃ p ∈ provenances, p.id = v) ∧
      ∀ head tail, next.hasEdge head tail = g.hasEdge head tail := by
  induction provenances generalizing g with
  | nil =>
    obtain rfl := pure_eq_ok_iff.1 given
    simp [consistent]
  | cons p rest ih =>
    obtain ⟨middle, added, given⟩ := bind_eq_ok_iff.1 given
    unfold addVertex at added
    split at added
    · rename_i present
      obtain rfl := Except.ok.inj added
      obtain ⟨after, vertices, edges⟩ := ih consistent given
      refine ⟨after, fun v => (vertices v).trans ?_, edges⟩
      simp only [List.mem_cons, exists_eq_or_imp]
      constructor
      · exact fun either => either.imp_right Or.inr
      · rintro (before | rfl | later)
        · exact Or.inl before
        · exact Or.inl present
        · exact Or.inr later
    · obtain ⟨changed, grown, kept⟩ := consistent.insertVertex added
      obtain ⟨after, vertices, edges⟩ := ih changed given
      refine ⟨after, fun v => (vertices v).trans ?_, fun h t => (edges h t).trans (kept h t)⟩
      simp only [grown, Bool.or_eq_true, beq_iff_eq, List.mem_cons, exists_eq_or_imp]
      rw [or_assoc, or_left_comm, eq_comm (a := v)]

theorem consistent_addEdge {heads : List Nat} (consistent : g.Consistent)
    (given : heads.foldlM (addEdge representatives tail) g = .ok next) : next.Consistent ∧
      (∀ v, next.hasVertex v = g.hasVertex v) ∧
      ∀ h t, next.hasEdge h t = true ↔ g.hasEdge h t = true ∨
        t = tail ∧ h ≠ tail ∧ ∃ id ∈ heads, representatives.get? id = some h := by
  induction heads generalizing g with
  | nil =>
    obtain rfl := pure_eq_ok_iff.1 given
    simp [consistent]
  | cons id rest ih =>
    obtain ⟨middle, added, given⟩ := bind_eq_ok_iff.1 given
    have first : middle.Consistent ∧ (∀ v, middle.hasVertex v = g.hasVertex v) ∧
        ∀ h t, middle.hasEdge h t = true ↔ g.hasEdge h t = true ∨
          t = tail ∧ h ≠ tail ∧ representatives.get? id = some h := by
      unfold addEdge at added
      split at added
      · rename_i none
        obtain rfl := Except.ok.inj added
        simp [consistent, none]
      · rename_i head found
        split at added
        · rename_i present
          obtain rfl := Except.ok.inj added
          refine ⟨consistent, fun _ => rfl, fun h t => (or_iff_left_of_imp ?_).symm⟩
          rintro ⟨rfl, other, same⟩
          obtain rfl := Option.some.inj (found.symm.trans same)
          simpa [other] using present
        · rename_i absent
          obtain ⟨changed, vertices, edges⟩ := consistent.insertEdge added
          refine ⟨changed, vertices, fun h t => (edges h t).trans ?_⟩
          rw [or_comm]
          refine or_congr_right ⟨?_, ?_⟩
          · rintro ⟨rfl, rfl⟩
            exact ⟨rfl, by simpa using fun same => absent (by simp [same]), found⟩
          · rintro ⟨rfl, _, same⟩
            exact ⟨Option.some.inj (same.symm.trans found), rfl⟩
    obtain ⟨changed, vertices, edges⟩ := first
    obtain ⟨after, kept, more⟩ := ih changed given
    refine ⟨after, fun v => (kept v).trans (vertices v), fun h t => (more h t).trans ?_⟩
    rw [edges, or_assoc]
    refine or_congr_right ?_
    simp only [List.mem_cons, exists_eq_or_imp]
    constructor
    · rintro (⟨here, other, found⟩ | ⟨here, other, found⟩)
      · exact ⟨here, other, Or.inl found⟩
      · exact ⟨here, other, Or.inr found⟩
    · rintro ⟨here, other, found | found⟩
      · exact Or.inl ⟨here, other, found⟩
      · exact Or.inr ⟨here, other, found⟩

theorem consistent_addEdges (consistent : g.Consistent)
    (given : provenances.foldlM (fun g p =>
      p.predecessors.toList.foldlM (addEdge representatives p.id) g) g = .ok next) :
    next.Consistent ∧ (∀ v, next.hasVertex v = g.hasVertex v) ∧
      ∀ h t, next.hasEdge h t = true ↔ g.hasEdge h t = true ∨
        ∃ p ∈ provenances, p.id = t ∧ h ≠ t ∧
          ∃ id ∈ p.predecessors, representatives.get? id = some h := by
  induction provenances generalizing g with
  | nil =>
    obtain rfl := pure_eq_ok_iff.1 given
    simp [consistent]
  | cons p rest ih =>
    obtain ⟨middle, added, given⟩ := bind_eq_ok_iff.1 given
    obtain ⟨changed, vertices, edges⟩ := consistent_addEdge consistent added
    obtain ⟨after, kept, more⟩ := ih changed given
    refine ⟨after, fun v => (kept v).trans (vertices v), fun h t => (more h t).trans ?_⟩
    rw [edges, or_assoc]
    refine or_congr_right ?_
    simp only [List.mem_cons, exists_eq_or_imp]
    refine or_congr_left ⟨?_, ?_⟩
    · rintro ⟨rfl, other, found⟩
      exact ⟨rfl, other, found⟩
    · rintro ⟨rfl, other, found⟩
      exact ⟨rfl, other, found⟩

/-! ### States that stand for themselves -/

/-- The provenances are of states that have not been merged, and their predecessors came before
them. -/
structure Linear (provenances : List Provenance) : Prop where
  alone : ∀ p ∈ provenances, ∀ id ∈ p.mergeOf, id = p.id
  earlier : ∀ p ∈ provenances, ∀ id ∈ p.predecessors, id < p.id ∧ ∃ q ∈ provenances, q.id = id

theorem Linear.get?_representativesOf (linear : Linear provenances) {id : Nat} :
    (representativesOf provenances).get? id = some head ↔
      head = id ∧ ∃ p ∈ provenances, p.id = id := by
  have only : ∀ entry ∈ (provenances.flatMap fun p => p.mergeOf.toList.map (·, p.id)) ++
      provenances.map (fun p => (p.id, p.id)), entry.2 = entry.1 ∧
        ∃ p ∈ provenances, p.id = entry.1 := by
    intro entry member
    rcases List.mem_append.1 member with member | member
    · obtain ⟨p, inside, listed⟩ := List.mem_flatMap.1 member
      obtain ⟨id, merged, rfl⟩ := List.mem_map.1 listed
      obtain rfl := linear.alone p inside id merged
      exact ⟨rfl, p, inside, rfl⟩
    · obtain ⟨p, inside, rfl⟩ := List.mem_map.1 member
      exact ⟨rfl, p, inside, rfl⟩
  constructor
  · exact fun found => only _ (SortedMap.mem_of_get?_ofList found)
  · rintro ⟨rfl, p, inside, rfl⟩
    refine SortedMap.get?_ofList_of_mem ?_ fun other member => (only _ member).1
    exact List.mem_append_right _ (List.mem_map.2 ⟨p, inside, rfl⟩)

/-- The edges of the relation are those from predecessors. -/
theorem Linear.ofProvenances (linear : Linear provenances)
    (given : ofProvenances provenances = .ok a) : a.graph.Consistent ∧
      (∀ v, a.graph.hasVertex v = true ↔ ∃ p ∈ provenances, p.id = v) ∧
      ∀ h t, a.graph.hasEdge h t = true ↔ ∃ p ∈ provenances, p.id = t ∧ h ∈ p.predecessors := by
  obtain ⟨vertices, first, given⟩ := bind_eq_ok_iff.1 given
  obtain ⟨graph, second, built⟩ := bind_eq_ok_iff.1 given
  obtain rfl := pure_eq_ok_iff.1 built
  obtain ⟨before, listed, none⟩ := consistent_addVertex Graph.consistent_empty first
  obtain ⟨after, kept, edges⟩ := consistent_addEdges before second
  refine ⟨after, fun v => ?_, fun h t => (edges h t).trans ?_⟩
  · rw [kept, listed]
    exact or_iff_right (by nofun)
  · rw [none, or_iff_right (by nofun)]
    refine exists_congr fun p => and_congr_right fun inside => and_congr_right fun same => ?_
    subst same
    constructor
    · rintro ⟨_, id, member, found⟩
      exact (linear.get?_representativesOf.1 found).1 ▸ member
    · intro member
      obtain ⟨less, known⟩ := linear.earlier p inside h member
      exact ⟨Nat.ne_of_lt less, h, member, linear.get?_representativesOf.2 ⟨rfl, known⟩⟩

/-! ### Paths -/

/-- The numbers are of vertices, consecutive ones are ends of edges, and no edge leads to the first
one. -/
structure IsPath (a : Accessibility) (path : List Nat) : Prop where
  vertices : ∀ v ∈ path, a.graph.hasVertex v = true
  edges : path.IsChain fun head tail => a.graph.hasEdge head tail = true
  begins : ∀ first, path.head? = some first → ∀ head, a.graph.hasEdge head first = false

/-- Every vertex but the last is the smallest predecessor of the next one, of those that are not on
the path from there. -/
def TakesSmallest (a : Accessibility) : List Nat → Prop
  | head :: tail :: rest =>
    (∀ other, a.graph.hasEdge other tail = true → other ∉ tail :: rest → head ≤ other) ∧
      a.TakesSmallest (tail :: rest)
  | _ => True

/-- The path goes back along edges to one new vertex after the other, the smallest each time. -/
structure Retraces (a : Accessibility) (path : List Nat) : Prop where
  vertices : ∀ v ∈ path, a.graph.hasVertex v = true
  edges : path.IsChain fun head tail => a.graph.hasEdge head tail = true
  distinct : path.Nodup
  smallest : a.TakesSmallest path

section Retracing

variable {current fuel first : Nat} {later path : List Nat}

theorem le_of_find? {keep : Nat → Bool} {s : SortedSet Nat} {other : Nat}
    (found : s.toList.find? keep = some first) (member : other ∈ s) (kept : keep other = true) :
    first ≤ other := by
  obtain ⟨_, before, after, listed, dropped⟩ := List.find?_eq_some_iff_append.1 found
  have increasing := s.increasing
  rw [listed] at increasing
  rw [SortedSet.mem_def, listed] at member
  rcases List.mem_append.1 member with member | member
  · have skipped := dropped other member
    rw [kept] at skipped
    cases skipped
  · rcases List.mem_cons.1 member with rfl | member
    · exact Nat.le_refl other
    · have above := (List.pairwise_cons.1 (List.pairwise_append.1 increasing).2.1).1 other member
      exact Nat.le_of_lt (Nat.compare_eq_lt.1 above)

theorem retraces_singleton (vertex : a.graph.hasVertex v = true) : a.Retraces [v] :=
  ⟨by simpa using vertex, .singleton v, List.nodup_singleton v, trivial⟩

/-- A path that visits no vertex twice is no longer than there are vertices. -/
theorem Retraces.length_le (retraces : a.Retraces path) : path.length ≤ a.size := by
  have inside : path ⊆ a.graph.vertices.keys := fun v member =>
    SortedMap.mem_keys_iff.2 (SortedMap.contains_iff.1 (retraces.vertices v member))
  have bound := (List.subperm_of_subset retraces.distinct inside).length_le
  rwa [SortedMap.keys, List.length_map] at bound

/-- Going back ends where all predecessors are on the path. -/
theorem Retraces.exists_extendBack (consistent : a.graph.Consistent)
    (retraces : a.Retraces (current :: later))
    (room : (current :: later).length + fuel = a.size + 1) :
    ∃ first rest, a.extendBack fuel current (current :: later) = .ok (first :: rest) ∧
      a.Retraces (first :: rest) ∧
      (first :: rest).getLast? = (current :: later).getLast? ∧
      ∀ head, a.graph.hasEdge head first = true → head ∈ first :: rest := by
  induction fuel generalizing current later with
  | zero =>
    have bound := retraces.length_le
    omega
  | succ fuel ih =>
    obtain ⟨heads, listed, members⟩ :=
      consistent.predecessorsOf (retraces.vertices current List.mem_cons_self)
    simp only [extendBack, predecessors, listed, bind, Except.bind]
    split
    · rename_i head found
      have edge := (members head).1 (List.mem_of_find?_eq_some found)
      have fresh : head ∉ current :: later := by
        have kept := List.find?_some found
        simpa using kept
      have longer : a.Retraces (head :: current :: later) := by
        refine ⟨fun v member => ?_, .cons_cons edge retraces.edges,
          List.nodup_cons.2 ⟨fresh, retraces.distinct⟩, fun other before away => ?_,
          retraces.smallest⟩
        · rcases List.mem_cons.1 member with rfl | member
          · exact (consistent.ends edge).1
          · exact retraces.vertices v member
        · exact le_of_find? found ((members other).2 before) (by simpa using away)
      obtain ⟨first, rest, given, goes, last, ends⟩ := ih longer (by rw [List.length_cons]; omega)
      exact ⟨first, rest, given, goes, by rw [last, List.getLast?_cons_cons], ends⟩
    · rename_i none
      refine ⟨current, later, rfl, retraces, rfl, fun head edge => ?_⟩
      have visited := List.find?_eq_none.1 none head ((members head).2 edge)
      rwa [Bool.not_eq_true, Bool.not_eq_false', List.contains_iff_mem] at visited

theorem exists_pathTo (consistent : a.graph.Consistent) (vertex : a.graph.hasVertex v = true) :
    ∃ first rest, a.pathTo v = .ok (first :: rest) ∧ a.Retraces (first :: rest) ∧
      (first :: rest).getLast? = some v ∧
      ∀ head, a.graph.hasEdge head first = true → head ∈ first :: rest :=
  (retraces_singleton vertex).exists_extendBack consistent (by rw [List.length_singleton]; omega)

/-- Where all predecessors of the first vertex are on the path, it has none or lies on a loop. -/
theorem Retraces.begins_iff {rest : List Nat} (retraces : a.Retraces (first :: rest))
    (ends : ∀ head, a.graph.hasEdge head first = true → head ∈ first :: rest) :
    (∀ head, a.graph.hasEdge head first = false) ↔ ∀ around, ¬a.graph.Loop first around := by
  constructor
  · intro begins around loop
    obtain ⟨head, edge⟩ := loop.exists_hasEdge
    rw [begins head] at edge
    cases edge
  · intro loopless head
    refine Bool.eq_false_iff.2 fun edge => ?_
    obtain ⟨arcs, way⟩ := Graph.exists_way_of_mem retraces.edges (ends head edge)
    exact loopless _ ⟨way.snoc edge, by simp⟩

/-- Edges to larger numbers only close no loop. -/
theorem le_of_way {g : Graph Unit Unit} {arcs : List Arc}
    (descends : ∀ head tail, g.hasEdge head tail = true → head < tail) (way : g.Way v arcs tail) :
    v + arcs.length ≤ tail := by
  induction way with
  | nil _ => exact Nat.le_refl _
  | cons edge _ ih =>
    have less := descends _ _ edge
    rw [List.length_cons]
    omega

theorem isPath_of_pathTo (consistent : a.graph.Consistent)
    (descends : ∀ head tail, a.graph.hasEdge head tail = true → head < tail)
    (vertex : a.graph.hasVertex current = true) (given : a.pathTo current = .ok path) :
    a.IsPath path ∧ path.getLast? = some current := by
  obtain ⟨first, rest, found, retraces, last, ends⟩ := exists_pathTo consistent vertex
  obtain rfl := Except.ok.inj (found.symm.trans given)
  have begins := (retraces.begins_iff ends).2 fun around loop => by
    have bound := le_of_way descends loop.way
    have proper := List.length_pos_iff.2 loop.proper
    omega
  refine ⟨⟨retraces.vertices, retraces.edges, fun start same => ?_⟩, last⟩
  obtain rfl := Option.some.inj same
  exact begins

end Retracing

end Accessibility

end EventCheck
