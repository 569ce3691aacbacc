import EventCheck.Proofs.Representatives

/-!
Where the paths to reached states begin when states have been merged. Going back takes the smallest
new predecessor each time and never gives one up, so it ends at a state without predecessors unless
it runs into a loop. Then it ends on the loop, also where another choice would have led to a state
without predecessors.
-/

namespace EventCheck

namespace Accessibility

/-- For any provenances the path to a reached state goes back along edges, without a repetition,
until all predecessors of its first state are on it. That state has no predecessors exactly if it
lies on no loop. -/
theorem retraces_of_pathTo (provenances : List Provenance) : ∃ a,
    ofProvenances provenances = .ok a ∧ ∀ p ∈ provenances, ∃ first rest,
      a.pathTo p.id = .ok (first :: rest) ∧ a.Retraces (first :: rest) ∧
      (first :: rest).getLast? = some p.id ∧
      (∀ head, a.graph.hasEdge head first = true → head ∈ first :: rest) ∧
      ((∀ head, a.graph.hasEdge head first = false) ↔
        ∀ around, ¬a.graph.Loop first around) := by
  obtain ⟨a, given, _, consistent, vertices, _⟩ := exists_ofProvenances provenances
  refine ⟨a, given, fun p member => ?_⟩
  obtain ⟨first, rest, found, retraces, last, ends⟩ :=
    exists_pathTo consistent ((vertices p.id).2 ⟨p, member, rfl⟩)
  exact ⟨first, rest, found, retraces, last, ends, retraces.begins_iff ends⟩

/-! ### A loop of merged states -/

/-- States of a search: 1 and 4 have been merged into 6, and 2 and 7 into 8. So 6 follows 0 and 8,
while 8 follows 6 and 3, and 3 and 9 follow 8. -/
def mergedInLoop : List Provenance :=
  [{ id := 0, mergeOf := .singleton 0 },
    { id := 3, predecessors := .singleton 2, mergeOf := .singleton 3 },
    { id := 6, predecessors := .ofList [0, 2], mergeOf := .ofList [1, 4, 6] },
    { id := 8, predecessors := .ofList [1, 3], mergeOf := .ofList [2, 7, 8] },
    { id := 9, predecessors := .singleton 2, mergeOf := .singleton 9 }]

theorem exists_mergedInLoop : ∃ a, ofProvenances mergedInLoop = .ok a ∧
    a.pathTo 9 = .ok [3, 8, 9] ∧ a.graph.hasVertex 0 = true ∧ a.graph.predecessors.getD 0 ∅ = ∅ ∧
    ∀ arc ∈ [Arc.mk 0 6, ⟨6, 8⟩, ⟨8, 9⟩, ⟨3, 8⟩, ⟨8, 3⟩],
      a.graph.hasEdge arc.head arc.tail = true := by
  refine ⟨_, rfl, rfl, rfl, rfl, ?_⟩
  decide

/-- The path to the last state begins on the loop of 3 and 8. -/
theorem retraces_mergedInLoop : ∃ a, ofProvenances mergedInLoop = .ok a ∧
    a.pathTo 9 = .ok [3, 8, 9] ∧ a.Retraces [3, 8, 9] ∧
    (∀ head, a.graph.hasEdge head 3 = true → head ∈ [3, 8, 9]) ∧
    ∃ around, a.graph.Loop 3 around := by
  obtain ⟨a, given, path, _, _, edges⟩ := exists_mergedInLoop
  obtain ⟨same, found, paths⟩ := retraces_of_pathTo mergedInLoop
  obtain rfl := Except.ok.inj (given.symm.trans found)
  obtain ⟨first, rest, goes, retraces, _, ends, begins⟩ :=
    paths { id := 9, predecessors := .singleton 2, mergeOf := .singleton 9 }
      (by simp [mergedInLoop])
  obtain ⟨rfl, rfl⟩ := List.cons.inj (Except.ok.inj (goes.symm.trans path))
  refine ⟨a, given, path, retraces, ends, ?_⟩
  by_contra none
  have root := begins.2 (fun around loop => none ⟨around, loop⟩) 8
  rw [edges ⟨8, 3⟩ (by simp)] at root
  cases root

/-- Back from the last state the choice of 6 would have led to the first one, which has no
predecessors. -/
theorem not_isPath_mergedInLoop : ¬∀ (provenances : List Provenance) (a : Accessibility),
    ofProvenances provenances = .ok a → ∀ p ∈ provenances,
      (∃ root arcs, a.graph.hasVertex root = true ∧
        (∀ head, a.graph.hasEdge head root = false) ∧ a.graph.Way root arcs p.id) →
      ∃ path, a.pathTo p.id = .ok path ∧ a.IsPath path ∧ path.Nodup ∧
        path.getLast? = some p.id := by
  intro claim
  obtain ⟨a, given, path, vertex, root, edges⟩ := exists_mergedInLoop
  obtain ⟨same, found, _, consistent, _⟩ := exists_ofProvenances mergedInLoop
  obtain rfl := Except.ok.inj (given.symm.trans found)
  have way : a.graph.Way 0 [⟨0, 6⟩, ⟨6, 8⟩, ⟨8, 9⟩] 9 :=
    .cons (edges ⟨0, 6⟩ (by simp)) (.cons (edges ⟨6, 8⟩ (by simp))
      (.cons (edges ⟨8, 9⟩ (by simp)) (.nil 9)))
  have begins : ∀ head, a.graph.hasEdge head 0 = false := by
    intro head
    refine Bool.eq_false_iff.2 fun edge => ?_
    rw [consistent.heads, root] at edge
    exact SortedSet.not_mem_empty head edge
  obtain ⟨other, found, isPath, _⟩ := claim mergedInLoop a given
    { id := 9, predecessors := .singleton 2, mergeOf := .singleton 9 } (by simp [mergedInLoop])
    ⟨0, _, vertex, begins, way⟩
  obtain rfl := Except.ok.inj (path.symm.trans found)
  have none := isPath.begins 3 rfl 8
  rw [edges ⟨8, 3⟩ (by simp)] at none
  cases none

end Accessibility

end EventCheck
