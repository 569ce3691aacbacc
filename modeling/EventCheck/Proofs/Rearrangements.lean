import EventCheck.Proofs.Representatives
import EventCheck.Search.Witness

/-!
Reached states in another order. The relation between them and the table of their numbers depend on
the order only where several states were merged from one: of these the last represents it. So lists
that have such states in the same order give the same relation.
-/

namespace EventCheck

/-! ### Tables and graphs -/

/-- Only the entries with a key bear on what a list of entries has there. -/
theorem SortedMap.get?_ofList_filter {κ β : Type} [Ord κ] [Std.TransOrd κ] [Std.LawfulEqOrd κ]
    [DecidableEq κ] {entries : List (κ × β)} {k : κ} :
    (SortedMap.ofList (entries.filter (·.1 = k))).get? k = (SortedMap.ofList entries).get? k := by
  have insertions : ∀ m n : SortedMap κ β, m.get? k = n.get? k →
      ((entries.filter (·.1 = k)).foldl (fun m p => m.insert p.1 p.2) m).get? k =
        (entries.foldl (fun m p => m.insert p.1 p.2) n).get? k := by
    induction entries with
    | nil => exact fun _ _ same => same
    | cons entry rest ih =>
      intro m n same
      by_cases here : entry.1 = k
      · rw [List.filter_cons_of_pos (by simpa using here)]
        refine ih _ _ ?_
        rw [SortedMap.get?_insert, SortedMap.get?_insert, if_pos here.symm, if_pos here.symm]
      · rw [List.filter_cons_of_neg (by simpa using here)]
        refine ih _ _ ?_
        rw [SortedMap.get?_insert, if_neg (Ne.symm here)]
        exact same
  exact insertions ∅ ∅ rfl

/-- Lists of entries give one table if they have the entries of each key in the same order. -/
theorem SortedMap.ofList_congr {κ β : Type} [Ord κ] [Std.TransOrd κ] [Std.LawfulEqOrd κ]
    [DecidableEq κ] {first second : List (κ × β)}
    (same : ∀ k, first.filter (·.1 = k) = second.filter (·.1 = k)) :
    SortedMap.ofList first = SortedMap.ofList second :=
  SortedMap.ext_get? fun k => by
    rw [← SortedMap.get?_ofList_filter, same, SortedMap.get?_ofList_filter]

theorem SortedMap.eq_of_contains {κ : Type} [Ord κ] [Std.TransOrd κ] [Std.LawfulEqOrd κ]
    [DecidableEq κ] {m n : SortedMap κ Unit} (same : ∀ k, m.contains k = n.contains k) : m = n :=
  SortedMap.ext_get? fun k => by
    have present := same k
    unfold SortedMap.contains at present
    cases left : m.get? k <;> cases right : n.get? k <;> simp_all

/-- Indices of neighbours are equal that have the same vertices with the same neighbours. -/
theorem Graph.eq_of_mem_getD {m n : SortedMap Nat (SortedSet Nat)}
    (vertices : ∀ v, m.contains v = n.contains v)
    (members : ∀ v w, w ∈ m.getD v ∅ ↔ w ∈ n.getD v ∅) : m = n := by
  refine SortedMap.ext_get? fun v => ?_
  have present := vertices v
  have same := SortedSet.ext_mem (members v)
  unfold SortedMap.contains at present
  unfold SortedMap.getD at same
  cases left : m.get? v <;> cases right : n.get? v <;> simp_all

/-- A graph without labels is made up by its vertices and edges. -/
theorem Graph.Consistent.eq_of_hasEdge {g h : Graph Unit Unit} (left : g.Consistent)
    (right : h.Consistent) (vertices : ∀ v, g.hasVertex v = h.hasVertex v)
    (edges : ∀ v w, g.hasEdge v w = h.hasEdge v w) : g = h := by
  have arcs : ∀ arc : Arc, g.edges.contains arc = h.edges.contains arc := fun ⟨v, w⟩ => edges v w
  have successors : g.successors = h.successors := by
    refine Graph.eq_of_mem_getD (fun v => ?_) fun v w => ?_
    · rw [left.successors, right.successors, vertices]
    · rw [← left.tails, ← right.tails, edges]
  have predecessors : g.predecessors = h.predecessors := by
    refine Graph.eq_of_mem_getD (fun v => ?_) fun v w => ?_
    · rw [left.predecessors, right.predecessors, vertices]
    · rw [← left.heads, ← right.heads, edges]
  cases g
  cases h
  congr
  · exact SortedMap.eq_of_contains vertices
  · exact SortedMap.eq_of_contains arcs

/-! ### Provenances -/

/-- Both lists have the states that were merged from one with the same number in the same order. -/
structure Rearranged (first second : List Provenance) : Prop where
  own : ∀ p ∈ first, p.id ∈ p.mergeOf
  others : ∀ p ∈ second, p.id ∈ p.mergeOf
  same : ∀ k, first.filter (k ∈ ·.mergeOf) = second.filter (k ∈ ·.mergeOf)

namespace Rearranged

variable {first second : List Provenance}

theorem symm (rearranged : Rearranged first second) : Rearranged second first :=
  ⟨rearranged.others, rearranged.own, fun k => (rearranged.same k).symm⟩

theorem subset (rearranged : Rearranged first second) : first ⊆ second := by
  intro p member
  have among : p ∈ first.filter (p.id ∈ ·.mergeOf) :=
    List.mem_filter.2 ⟨member, decide_eq_true (rearranged.own p member)⟩
  rw [rearranged.same] at among
  exact (List.mem_filter.1 among).1

theorem mem_iff (rearranged : Rearranged first second) {p : Provenance} : p ∈ first ↔ p ∈ second :=
  ⟨fun member => rearranged.subset member, fun member => rearranged.symm.subset member⟩

/-- The state with a number is at the same place among those merged from one. -/
theorem filter_id (rearranged : Rearranged first second) (k : Nat) :
    first.filter (·.id = k) = second.filter (·.id = k) := by
  have narrow : ∀ {provenances : List Provenance}, (∀ p ∈ provenances, p.id ∈ p.mergeOf) →
      provenances.filter (·.id = k) =
        (provenances.filter (k ∈ ·.mergeOf)).filter (·.id = k) := by
    intro provenances own
    rw [List.filter_filter]
    refine List.filter_congr fun p member => ?_
    by_cases here : p.id = k
    · simp [here, here ▸ own p member]
    · simp [here]
  rw [narrow rearranged.own, narrow rearranged.others, rearranged.same]

theorem representativesOf_eq (rearranged : Rearranged first second) :
    Accessibility.representativesOf first = Accessibility.representativesOf second := by
  have merges : ∀ (provenances : List Provenance) (k : Nat),
      (provenances.flatMap fun p => p.mergeOf.toList.map (·, p.id)).filter (·.1 = k) =
        ((provenances.filter (k ∈ ·.mergeOf)).flatMap fun p =>
          p.mergeOf.toList.map (·, p.id)).filter (·.1 = k) := by
    intro provenances k
    induction provenances with
    | nil => rfl
    | cons p rest ih =>
      by_cases inside : k ∈ p.mergeOf
      · rw [List.filter_cons_of_pos (by simpa using inside), List.flatMap_cons, List.flatMap_cons,
          List.filter_append, List.filter_append, ih]
      · rw [List.filter_cons_of_neg (by simpa using inside), List.flatMap_cons, List.filter_append,
          ih]
        refine List.append_left_eq_self.2 (List.filter_eq_nil_iff.2 fun entry listed => ?_)
        obtain ⟨number, member, rfl⟩ := List.mem_map.1 listed
        simpa using fun here : number = k => inside (here ▸ member)
  unfold Accessibility.representativesOf
  refine SortedMap.ofList_congr fun k => ?_
  rw [List.filter_append, List.filter_append, merges first, merges second, rearranged.same,
    List.filter_map, List.filter_map]
  exact congrArg (fun own => _ ++ own.map fun p : Provenance => (p.id, p.id))
    (rearranged.filter_id k)

/-- The relation is the same. -/
theorem ofProvenances_eq (rearranged : Rearranged first second) :
    Accessibility.ofProvenances first = Accessibility.ofProvenances second := by
  obtain ⟨a, left, represented, consistent, vertices, edges⟩ :=
    Accessibility.exists_ofProvenances first
  obtain ⟨b, right, named, sound, ends, arcs⟩ := Accessibility.exists_ofProvenances second
  have representatives : a.representatives = b.representatives := by
    rw [represented, named, rearranged.representativesOf_eq]
  have graphs : a.graph = b.graph := by
    refine consistent.eq_of_hasEdge sound (fun v => ?_) fun h t => ?_
    · rw [Bool.eq_iff_iff, vertices, ends]
      exact exists_congr fun p => and_congr_left fun _ => rearranged.mem_iff
    · rw [Bool.eq_iff_iff, edges, arcs]
      refine exists_congr fun p => and_congr rearranged.mem_iff ?_
      simp only [Accessibility.resolve, representatives]
  rw [left, right]
  cases a
  cases b
  simp_all

end Rearranged

end EventCheck
