import EventCheck.Proofs.Paths

/-!
The relation between reached states of which some have been merged. It can always be built. A number
that some state was merged from has a reached state that represents it, and there is an edge from the
representative of each predecessor, unless it would be a loop.
-/

namespace EventCheck

theorem exists_foldlM {α β : Type} {f : β → α → Except Error β} {elements : List α} {start : β}
    (kept : β → Prop) (base : kept start)
    (step : ∀ a ∈ elements, ∀ b, kept b → ∃ c, f b a = .ok c ∧ kept c) :
    ∃ last, elements.foldlM f start = .ok last ∧ kept last := by
  induction elements generalizing start with
  | nil => exact ⟨start, rfl, base⟩
  | cons a rest ih =>
    obtain ⟨middle, here, holds⟩ := step a List.mem_cons_self start base
    obtain ⟨last, later, kept⟩ := ih holds fun b member => step b (List.mem_cons_of_mem a member)
    exact ⟨last, bind_eq_ok_iff.2 ⟨middle, here, later⟩, kept⟩

namespace Accessibility

variable {provenances : List Provenance} {p : Provenance} {id head : Nat}

/-! ### Representatives -/

/-- A representative is the state itself, or one that it was merged into. -/
theorem exists_of_representativesOf (found : (representativesOf provenances).get? id = some head) :
    ∃ p ∈ provenances, p.id = head ∧ (id = p.id ∨ id ∈ p.mergeOf) := by
  rcases List.mem_append.1 (SortedMap.mem_of_get?_ofList found) with merged | own
  · obtain ⟨p, inside, listed⟩ := List.mem_flatMap.1 merged
    obtain ⟨number, member, same⟩ := List.mem_map.1 listed
    obtain ⟨rfl, rfl⟩ := Prod.mk.inj same
    exact ⟨p, inside, rfl, Or.inr member⟩
  · obtain ⟨p, inside, same⟩ := List.mem_map.1 own
    obtain ⟨rfl, rfl⟩ := Prod.mk.inj same
    exact ⟨p, inside, rfl, Or.inl rfl⟩

theorem exists_representative (inside : p ∈ provenances) (merged : id ∈ p.mergeOf) :
    ∃ head, (representativesOf provenances).get? id = some head := by
  refine SortedMap.exists_get?_foldl_insert (Or.inl ⟨p.id, List.mem_append_left _ ?_⟩)
  exact List.mem_flatMap.2 ⟨p, inside, List.mem_map.2 ⟨id, merged, rfl⟩⟩

/-! ### The relation -/

theorem exists_addVertices (provenances : List Provenance) :
    ∃ g : Graph Unit Unit, provenances.foldlM addVertex ∅ = .ok g := by
  have step : ∀ p ∈ provenances, ∀ g : Graph Unit Unit, True → ∃ next, addVertex g p = .ok next ∧
      True := by
    intro p _ g _
    unfold addVertex Graph.insertVertex
    split
    · exact ⟨_, rfl, trivial⟩
    · exact ⟨_, rfl, trivial⟩
  obtain ⟨g, built, _⟩ := exists_foldlM (fun _ => True) trivial step
  exact ⟨g, built⟩

/-- Between vertices an edge is added, unless it is there or would be a loop. -/
theorem exists_addEdge {representatives : SortedMap Nat Nat} {g : Graph Unit Unit} {state : Nat}
    (vertex : g.hasVertex state = true)
    (heads : ∀ head, representatives.get? id = some head → g.hasVertex head = true) :
    ∃ next, addEdge representatives state g id = .ok next ∧
      ∀ v, next.hasVertex v = g.hasVertex v := by
  unfold addEdge
  split
  · exact ⟨g, rfl, fun _ => rfl⟩
  · rename_i head found
    split
    · exact ⟨g, rfl, fun _ => rfl⟩
    · rename_i absent
      simp only [Bool.or_eq_true, not_or, Bool.not_eq_true] at absent
      unfold Graph.insertEdge
      rw [absent.2, heads head found, vertex]
      exact ⟨_, rfl, fun _ => rfl⟩

theorem exists_addEdges {representatives : SortedMap Nat Nat} {g : Graph Unit Unit}
    (vertices : ∀ p ∈ provenances, g.hasVertex p.id = true)
    (heads : ∀ id head, representatives.get? id = some head → g.hasVertex head = true) :
    ∃ next, provenances.foldlM (fun g p =>
      p.predecessors.toList.foldlM (addEdge representatives p.id) g) g = .ok next := by
  let kept := fun h : Graph Unit Unit => ∀ v, h.hasVertex v = g.hasVertex v
  have step : ∀ p ∈ provenances, ∀ h, kept h → ∃ next,
      p.predecessors.toList.foldlM (addEdge representatives p.id) h = .ok next ∧ kept next := by
    intro p inside h same
    refine exists_foldlM kept same fun id _ middle same => ?_
    obtain ⟨next, added, vertex⟩ := @exists_addEdge id representatives middle p.id ((same p.id).trans (vertices p inside))
      fun head found => (same head).trans (heads id head found)
    exact ⟨next, added, fun v => (vertex v).trans (same v)⟩
  obtain ⟨next, built, _⟩ := exists_foldlM kept (fun _ => rfl) step
  exact ⟨next, built⟩

/-- The relation of any provenances. -/
theorem exists_ofProvenances (provenances : List Provenance) : ∃ a,
    ofProvenances provenances = .ok a ∧ a.representatives = representativesOf provenances ∧
      a.graph.Consistent ∧
      (∀ v, a.graph.hasVertex v = true ↔ ∃ p ∈ provenances, p.id = v) ∧
      ∀ h t, a.graph.hasEdge h t = true ↔ ∃ p ∈ provenances, p.id = t ∧ h ≠ t ∧
        ∃ id ∈ p.predecessors, a.resolve id = some h := by
  obtain ⟨vertices, listed⟩ := exists_addVertices provenances
  obtain ⟨consistent, members, none⟩ := consistent_addVertex Graph.consistent_empty listed
  have vertex : ∀ p ∈ provenances, vertices.hasVertex p.id = true := fun p inside =>
    (members p.id).2 (Or.inr ⟨p, inside, rfl⟩)
  obtain ⟨graph, connected⟩ := exists_addEdges vertex fun id head found => by
      obtain ⟨p, inside, rfl, _⟩ := exists_of_representativesOf found
      exact vertex p inside
  obtain ⟨after, kept, edges⟩ := consistent_addEdges consistent connected
  refine ⟨{ graph, representatives := representativesOf provenances },
    bind_eq_ok_iff.2 ⟨vertices, listed, bind_eq_ok_iff.2 ⟨graph, connected, rfl⟩⟩, rfl, after,
    fun v => ?_, fun h t => (edges h t).trans ?_⟩
  · rw [kept, members]
    exact or_iff_right nofun
  · rw [none]
    exact or_iff_right nofun

end Accessibility

end EventCheck
