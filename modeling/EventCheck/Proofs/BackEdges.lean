import EventCheck.Graph.BackEdge
import EventCheck.Proofs.Ways

/-!
The back edges that a depth-first walk finds. The walk leaves a vertex when all edges from it have
been taken, so in the order in which vertices are left every edge leads to a vertex that has been
left before, unless its tail is still on the path: then it closes a loop over the path.
-/

namespace EventCheck

namespace Graph

variable {ν ε : Type} {g : Graph ν ε} {roots : List Nat} {w : Walk} {path outer : List PathEntry}
variable {v next : Nat} {later finished seen wider : List Nat} {arcs more : SortedSet Arc}

/-- The tails in the order in which a walk takes them. -/
theorem Consistent.mem_reverse_iff {tails : SortedSet Nat} (consistent : g.Consistent)
    (known : g.successors.get? v = some tails) :
    next ∈ tails.toList.reverse ↔ g.hasEdge v next = true := by
  rw [consistent.tails, SortedMap.getD, known, Option.getD_some, List.mem_reverse,
    SortedSet.mem_def]

/-- Some way leads from a root to the vertex. -/
def ReachedFrom (g : Graph ν ε) (roots : List Nat) (v : Nat) : Prop :=
  ∃ root ∈ roots, ∃ arcs, g.Way root arcs v

theorem ReachedFrom.extend (reached : g.ReachedFrom roots v) (edge : g.hasEdge v next = true) :
    g.ReachedFrom roots next := by
  obtain ⟨root, member, arcs, way⟩ := reached
  exact ⟨root, member, _, way.snoc edge⟩

/-- The edges lie on loops, and every loop has one of them, where loops count that can be reached
from a root. -/
structure CutsLoops (g : Graph ν ε) (roots : List Nat) (arcs : SortedSet Arc) : Prop where
  cuts : ∀ v around, g.ReachedFrom roots v → g.Loop v around → ∃ arc ∈ around, arc ∈ arcs
  closes : ∀ arc ∈ arcs, g.ReachedFrom roots arc.head ∧
    ∃ around, g.Loop arc.head (arc :: around) ∧ Simple (arc :: around)

/-! ### Vertices in the order of leaving -/

/-- From each vertex edges lead to later ones of the list, unless they are among certain ones. -/
def Settled (g : Graph ν ε) (arcs : SortedSet Arc) : List Nat → Prop
  | [] => True
  | v :: rest =>
    (∀ tail, g.hasEdge v tail = true → ⟨v, tail⟩ ∈ arcs ∨ tail ∈ rest) ∧ g.Settled arcs rest

theorem Settled.mono (settled : g.Settled arcs finished) (within : ∀ arc ∈ arcs, arc ∈ more) :
    g.Settled more finished := by
  induction finished with
  | nil => trivial
  | cons v rest ih =>
    exact ⟨fun tail edge => (settled.1 tail edge).imp_left (within _), ih settled.2⟩

theorem Settled.edge (settled : g.Settled arcs finished) (member : v ∈ finished)
    (edge : g.hasEdge v next = true) : ⟨v, next⟩ ∈ arcs ∨ next ∈ finished := by
  induction finished with
  | nil => simp at member
  | cons first rest ih =>
    rcases List.mem_cons.1 member with rfl | member
    · exact (settled.1 next edge).imp_right (List.mem_cons_of_mem _)
    · exact (ih settled.2 member).imp_right (List.mem_cons_of_mem _)

/-- A way that leaves the vertices of the list takes one of the edges. -/
theorem Settled.way {u : Nat} {around : List Arc} (settled : g.Settled arcs finished)
    (way : g.Way u around v) (member : u ∈ finished) :
    (∃ arc ∈ around, arc ∈ arcs) ∨ v ∈ finished := by
  by_cases taken : ∃ arc ∈ around, arc ∈ arcs
  · exact Or.inl taken
  · refine Or.inr (way.induction member fun arc inside edge before => ?_)
    exact (settled.edge before edge).resolve_left fun back => taken ⟨arc, inside, back⟩

/-- The other edges only lead on in the list, so they close no loop. -/
theorem Settled.loop {around : List Arc} (settled : g.Settled arcs finished)
    (loop : g.Loop v around) (member : v ∈ finished) : ∃ arc ∈ around, arc ∈ arcs := by
  induction finished with
  | nil => simp at member
  | cons first rest ih =>
    by_cases again : v ∈ rest
    · exact ih settled.2 again
    obtain rfl := (List.mem_cons.1 member).resolve_right again
    obtain ⟨way, proper⟩ := loop
    cases way with
    | nil _ => exact absurd rfl proper
    | @cons _ tail _ around edge way =>
      rcases settled.1 tail edge with back | inside
      · exact ⟨_, List.mem_cons_self, back⟩
      · obtain ⟨arc, taken, back⟩ := (settled.2.way way inside).resolve_right again
        exact ⟨arc, List.mem_cons_of_mem _ taken, back⟩

/-- The edges from the vertices on a path have been taken, unless their tails are pending: they
are among certain ones, or they led to a vertex that has been seen or is further in on the path. -/
def Taken (g : Graph ν ε) (arcs : SortedSet Arc) : List Nat → List PathEntry → Prop
  | _, [] => True
  | seen, (v, later) :: outer =>
    (∀ tail, g.hasEdge v tail = true → tail ∈ later ∨ ⟨v, tail⟩ ∈ arcs ∨ tail ∈ seen) ∧
      g.Taken arcs (v :: seen) outer

theorem Taken.mono (taken : g.Taken arcs seen path) (within : ∀ arc ∈ arcs, arc ∈ more)
    (visible : ∀ v ∈ seen, v ∈ wider) : g.Taken more wider path := by
  induction path generalizing seen wider with
  | nil => trivial
  | cons entry outer ih =>
    refine ⟨fun tail edge => ?_, ih taken.2 fun v member => ?_⟩
    · exact (taken.1 tail edge).imp_right (Or.imp (within _) (visible tail))
    · rcases List.mem_cons.1 member with rfl | member
      · exact List.mem_cons_self
      · exact List.mem_cons_of_mem _ (visible v member)

/-- A pending successor has been dealt with. -/
theorem Taken.drop (taken : g.Taken arcs seen ((v, next :: later) :: outer))
    (within : ∀ arc ∈ arcs, arc ∈ more) (visible : ∀ v ∈ seen, v ∈ wider)
    (done : ⟨v, next⟩ ∈ more ∨ next ∈ wider) : g.Taken more wider ((v, later) :: outer) := by
  have grown := taken.mono within visible
  refine ⟨fun tail edge => ?_, grown.2⟩
  rcases grown.1 tail edge with pending | elsewhere
  · rcases List.mem_cons.1 pending with rfl | pending
    · exact Or.inr done
    · exact Or.inl pending
  · exact Or.inr elsewhere

/-! ### Steps of a walk -/

/-- The vertices on the path of a walk, the innermost one first. -/
def onPath (path : List PathEntry) : List Nat := path.map (·.1)

@[simp] theorem onPath_cons : onPath ((v, later) :: outer) = v :: onPath outer := rfl

theorem any_iff_onPath :
    (next = v ∨ outer.any (·.1 == next) = true) ↔ next ∈ v :: onPath outer := by
  rw [List.mem_cons, List.any_eq_true, onPath, List.mem_map]
  simp only [beq_iff_eq]

/-- What holds at every moment of a walk that has left the `finished` vertices, the one left last
first. -/
structure Walking (g : Graph ν ε) (roots : List Nat) (w : Walk) (path : List PathEntry)
    (finished : List Nat) : Prop where
  visited : ∀ v, v ∈ w.visited ↔ v ∈ onPath path ∨ v ∈ finished
  reached : ∀ v ∈ w.visited, g.ReachedFrom roots v
  distinct : (onPath path).Nodup
  line : (onPath path).IsChain fun inner outer => g.hasEdge outer inner = true
  pending : ∀ entry ∈ path, ∀ next ∈ entry.2, g.hasEdge entry.1 next = true
  tails : ∀ arc ∈ w.backEdges, arc.tail ∈ w.visited
  closes : ∀ arc ∈ w.backEdges, g.ReachedFrom roots arc.head ∧
    ∃ around, g.Loop arc.head (arc :: around) ∧ Simple (arc :: around)
  settled : g.Settled w.backEdges finished

namespace Walking

theorem start (g : Graph ν ε) (roots : List Nat) : g.Walking roots {} [] [] where
  visited := by simp [onPath]
  reached := by simp
  distinct := List.nodup_nil
  line := .nil
  pending := by simp
  tails := by simp
  closes := by simp
  settled := trivial

/-- A vertex whose edges have all been taken is left. -/
theorem leave (walking : g.Walking roots w ((v, []) :: outer) finished)
    (taken : g.Taken w.backEdges finished ((v, []) :: outer)) :
    g.Walking roots w outer (v :: finished) where
  visited u := by
    rw [walking.visited, onPath_cons, List.mem_cons, List.mem_cons]
    exact or_right_comm.trans or_comm
  reached := walking.reached
  distinct := (List.nodup_cons.1 walking.distinct).2
  line := walking.line.tail
  pending entry member := walking.pending entry (List.mem_cons_of_mem _ member)
  tails := walking.tails
  closes := walking.closes
  settled := ⟨fun tail edge => (taken.1 tail edge).resolve_left List.not_mem_nil, walking.settled⟩

/-- Which successors are pending is of no account for what has been seen. -/
theorem drop (walking : g.Walking roots w ((v, next :: later) :: outer) finished) :
    g.Walking roots w ((v, later) :: outer) finished :=
  { walking with
    pending := by
      intro entry member successor pending
      rcases List.mem_cons.1 member with rfl | member
      · exact walking.pending _ List.mem_cons_self successor (List.mem_cons_of_mem _ pending)
      · exact walking.pending entry (List.mem_cons_of_mem _ member) successor pending }

/-- An edge back to the path closes a loop. -/
theorem close (walking : g.Walking roots w ((v, later) :: outer) finished)
    (edge : g.hasEdge v next = true) (back : next ∈ v :: onPath outer) :
    g.Walking roots { w with backEdges := w.backEdges.insert ⟨v, next⟩ } ((v, later) :: outer)
      finished :=
  { walking with
    tails := by
      intro arc member
      rcases SortedSet.mem_insert.1 member with rfl | member
      · exact (walking.visited next).2 (Or.inl back)
      · exact walking.tails arc member
    closes := by
      intro arc member
      rcases SortedSet.mem_insert.1 member with rfl | member
      · obtain ⟨around, loop, simple, _⟩ :=
          exists_loop_of_isChain walking.line walking.distinct edge back
        refine ⟨walking.reached v ?_, around, loop, simple⟩
        exact (walking.visited v).2 (Or.inl List.mem_cons_self)
      · exact walking.closes arc member
    settled := walking.settled.mono fun _ member => SortedSet.mem_insert.2 (Or.inr member) }

/-- A new vertex comes on the path with all of its successors pending. -/
theorem enter (consistent : g.Consistent) {tails : SortedSet Nat}
    (walking : g.Walking roots w path finished) (fresh : next ∉ w.visited)
    (reached : g.ReachedFrom roots next)
    (line : (next :: onPath path).IsChain fun inner outer => g.hasEdge outer inner = true)
    (known : g.successors.get? next = some tails) :
    g.Walking roots { w with visited := w.visited.insert next }
      ((next, tails.toList.reverse) :: path) finished :=
  { walking with
    visited := by
      intro u
      rw [SortedSet.mem_insert, walking.visited, onPath_cons, List.mem_cons, or_assoc]
    reached := by
      intro u member
      rcases SortedSet.mem_insert.1 member with rfl | member
      · exact reached
      · exact walking.reached u member
    distinct := by
      refine List.nodup_cons.2 ⟨fun member => fresh ?_, walking.distinct⟩
      exact (walking.visited next).2 (Or.inl member)
    line
    pending := by
      intro entry member successor pending
      rcases List.mem_cons.1 member with rfl | member
      · exact (consistent.mem_reverse_iff known).1 pending
      · exact walking.pending entry member successor pending
    tails := fun arc member => SortedSet.mem_insert.2 (Or.inr (walking.tails arc member)) }

/-- The successors of a vertex that has just been entered are all pending. -/
theorem taken_enter (consistent : g.Consistent) {tails : SortedSet Nat}
    (known : g.successors.get? next = some tails) (taken : g.Taken arcs (next :: seen) path) :
    g.Taken arcs seen ((next, tails.toList.reverse) :: path) :=
  ⟨fun _ edge => Or.inl ((consistent.mem_reverse_iff known).2 edge), taken⟩

/-- A walk along a path comes to an end, with the vertices of the path left. -/
theorem walk (consistent : g.Consistent) (walking : g.Walking roots w path finished)
    (taken : g.Taken w.backEdges finished path) :
    ∃ last left, g.walk w path = .ok last ∧ g.Walking roots last [] left ∧
      ∀ v ∈ w.visited, v ∈ last.visited := by
  fun_induction g.walk w path generalizing finished with
  | case1 w => exact ⟨w, finished, rfl, walking, fun _ member => member⟩
  | case2 w v outer ih => exact ih (walking.leave taken) taken.2
  | case3 w v next later outer back ih =>
    have edge := walking.pending _ List.mem_cons_self next List.mem_cons_self
    have inserted : (⟨v, next⟩ : Arc) ∈ w.backEdges.insert ⟨v, next⟩ :=
      SortedSet.mem_insert.2 (Or.inl rfl)
    refine ih (walking.drop.close edge (any_iff_onPath.1 back)) ?_
    refine taken.drop (fun arc member => ?_) (fun _ => id) (Or.inl inserted)
    exact SortedSet.mem_insert.2 (Or.inr member)
  | case4 w v next later outer away known ih =>
    have left : next ∈ finished := by
      refine ((walking.visited next).1 (SortedSet.contains_iff.1 known)).resolve_left ?_
      exact fun member => away (any_iff_onPath.2 member)
    exact ih walking.drop (taken.drop (fun _ => id) (fun _ => id) (Or.inr left))
  | case5 w v next later outer away fresh missing =>
    have edge := walking.pending _ List.mem_cons_self next List.mem_cons_self
    obtain ⟨tails, known⟩ :=
      SortedMap.contains_iff.1 ((consistent.successors next).trans (consistent.ends edge).2)
    rw [missing] at known
    cases known
  | case6 w v next later outer away fresh tails known ih =>
    have edge := walking.pending _ List.mem_cons_self next List.mem_cons_self
    have reached := walking.reached v ((walking.visited v).2 (Or.inl List.mem_cons_self))
    have new : next ∉ w.visited := fun member => fresh (SortedSet.contains_iff.2 member)
    have entered := walking.drop.enter consistent new (reached.extend edge)
      (.cons_cons edge walking.line) known
    have dropped : g.Taken w.backEdges (next :: finished) ((v, later) :: outer) :=
      taken.drop (fun _ => id) (fun _ => List.mem_cons_of_mem _) (Or.inr List.mem_cons_self)
    obtain ⟨last, left, walked, after, kept⟩ := ih entered (taken_enter consistent known dropped)
    refine ⟨last, left, walked, after, fun u member => kept u ?_⟩
    exact SortedSet.mem_insert.2 (Or.inr member)

/-- A walk from a root visits it. -/
theorem walkFrom (consistent : g.Consistent) (walking : g.Walking roots w [] finished)
    (vertex : g.hasVertex next = true) (root : next ∈ roots) :
    ∃ last left, g.walkFrom w next = .ok last ∧ g.Walking roots last [] left ∧
      next ∈ last.visited ∧ ∀ v ∈ w.visited, v ∈ last.visited := by
  obtain ⟨tails, known⟩ := SortedMap.contains_iff.1 ((consistent.successors next).trans vertex)
  simp only [Graph.walkFrom, Graph.successorsOf, known, bind, Except.bind, pure, Except.pure]
  split
  · rename_i present
    exact ⟨w, finished, rfl, walking, SortedSet.contains_iff.1 present, fun _ member => member⟩
  · rename_i fresh
    have entered := walking.enter consistent (fun member => fresh (SortedSet.contains_iff.2 member))
      ⟨next, root, [], .nil next⟩ (.singleton next) known
    obtain ⟨last, left, walked, after, kept⟩ :=
      entered.walk consistent (taken_enter consistent known trivial)
    exact ⟨last, left, walked, after, kept next (SortedSet.mem_insert.2 (Or.inl rfl)),
      fun u member => kept u (SortedSet.mem_insert.2 (Or.inr member))⟩

theorem exists_foldlM {remaining : List Nat} (consistent : g.Consistent)
    (vertices : ∀ root ∈ remaining, g.hasVertex root = true)
    (members : ∀ root ∈ remaining, root ∈ roots) (walking : g.Walking roots w [] finished) :
    ∃ last left, remaining.foldlM g.walkFrom w = .ok last ∧ g.Walking roots last [] left ∧
      (∀ root ∈ remaining, root ∈ last.visited) ∧ ∀ v ∈ w.visited, v ∈ last.visited := by
  induction remaining generalizing w finished with
  | nil => exact ⟨w, finished, rfl, walking, by simp, fun _ member => member⟩
  | cons root rest ih =>
    obtain ⟨middle, _, first, between, here, kept⟩ := walking.walkFrom consistent
      (vertices root List.mem_cons_self) (members root List.mem_cons_self)
    obtain ⟨last, left, later, after, roots, stays⟩ :=
      ih (fun r member => vertices r (List.mem_cons_of_mem _ member))
        (fun r member => members r (List.mem_cons_of_mem _ member)) between
    refine ⟨last, left, bind_eq_ok_iff.2 ⟨middle, first, later⟩, after, ?_, fun v member =>
      stays v (kept v member)⟩
    intro r member
    rcases List.mem_cons.1 member with rfl | member
    · exact stays r here
    · exact roots r member

/-- After the walks from all roots, what can be reached has been left. -/
theorem cutsLoops (walking : g.Walking roots w [] finished)
    (visited : ∀ root ∈ roots, root ∈ w.visited) : g.CutsLoops roots w.backEdges := by
  have left : ∀ {v}, v ∈ w.visited ↔ v ∈ finished := fun {v} =>
    (walking.visited v).trans (or_iff_right List.not_mem_nil)
  refine ⟨fun v around reached loop => ?_, walking.closes⟩
  obtain ⟨root, member, arcs, way⟩ := reached
  have inside : v ∈ w.visited := by
    refine way.induction (visited root member) fun arc _ edge before => ?_
    exact (walking.settled.edge (left.1 before) edge).elim (walking.tails _) left.2
  exact walking.settled.loop loop (left.1 inside)

end Walking

/-- The back edges are found, and they cut the loops. -/
theorem exists_backEdges (consistent : g.Consistent)
    (vertices : ∀ root ∈ roots, g.hasVertex root = true) :
    ∃ arcs, g.backEdges roots = .ok arcs ∧ g.CutsLoops roots arcs := by
  obtain ⟨last, left, walked, after, visited, _⟩ :=
    (Walking.start g roots).exists_foldlM consistent vertices fun _ member => member
  exact ⟨last.backEdges, by rw [backEdges, walked]; rfl, after.cutsLoops visited⟩

/-! ### Graphs with the same edges -/

section Alike

variable {ν' ε' : Type} {h : Graph ν' ε'}

theorem successors_congr (left : g.Consistent) (right : h.Consistent)
    (edges : ∀ head tail, g.hasEdge head tail = h.hasEdge head tail)
    (vertex : g.hasVertex v = true) (other : h.hasVertex v = true) :
    g.successors.get? v = h.successors.get? v := by
  obtain ⟨tails, known⟩ := SortedMap.contains_iff.1 ((left.successors v).trans vertex)
  obtain ⟨others, found⟩ := SortedMap.contains_iff.1 ((right.successors v).trans other)
  rw [known, found]
  refine congrArg some (SortedSet.ext_mem fun tail => ?_)
  rw [SortedSet.mem_def, SortedSet.mem_def, ← List.mem_reverse, left.mem_reverse_iff known, edges,
    ← right.mem_reverse_iff found, List.mem_reverse]

/-- Edges lead to vertices of both graphs. -/
theorem hasVertex_of_pending (left : g.Consistent) (right : h.Consistent)
    (edges : ∀ head tail, g.hasEdge head tail = h.hasEdge head tail) {tails : SortedSet Nat}
    (known : g.successors.get? v = some tails) (pending : next ∈ tails.toList.reverse) :
    g.hasVertex next = true ∧ h.hasVertex next = true := by
  have edge := (left.mem_reverse_iff known).1 pending
  exact ⟨(left.ends edge).2, (right.ends (edges v next ▸ edge)).2⟩

/-- A walk depends on the edges of the graph only. -/
theorem walk_congr (left : g.Consistent) (right : h.Consistent)
    (edges : ∀ head tail, g.hasEdge head tail = h.hasEdge head tail)
    (inside : ∀ entry ∈ path, ∀ next ∈ entry.2, g.hasVertex next = true ∧ h.hasVertex next = true) :
    g.walk w path = h.walk w path := by
  have dropped : ∀ {v next : Nat} {later : List Nat} {outer : List PathEntry},
      (∀ entry ∈ (v, next :: later) :: outer, ∀ t ∈ entry.2,
        g.hasVertex t = true ∧ h.hasVertex t = true) →
      ∀ entry ∈ (v, later) :: outer, ∀ t ∈ entry.2,
        g.hasVertex t = true ∧ h.hasVertex t = true := by
    intro v next later outer inside entry member t pending
    rcases List.mem_cons.1 member with rfl | member
    · exact inside _ List.mem_cons_self t (List.mem_cons_of_mem _ pending)
    · exact inside entry (List.mem_cons_of_mem _ member) t pending
  fun_induction g.walk w path with
  | case1 w => rw [walk]
  | case2 w v outer ih =>
    rw [walk]
    exact ih fun entry member => inside entry (List.mem_cons_of_mem _ member)
  | case3 w v next later outer back ih =>
    rw [walk, if_pos back]
    exact ih (dropped inside)
  | case4 w v next later outer away known ih =>
    rw [walk, if_neg away, if_pos known]
    exact ih (dropped inside)
  | case5 w v next later outer away fresh missing =>
    obtain ⟨vertex, _⟩ := inside _ List.mem_cons_self next List.mem_cons_self
    obtain ⟨tails, known⟩ := SortedMap.contains_iff.1 ((left.successors next).trans vertex)
    rw [missing] at known
    cases known
  | case6 w v next later outer away fresh tails known ih =>
    obtain ⟨vertex, other⟩ := inside _ List.mem_cons_self next List.mem_cons_self
    have found := (successors_congr left right edges vertex other).symm.trans known
    rw [walk, if_neg away, if_neg fresh]
    split
    · rename_i missing
      rw [found] at missing
      cases missing
    · rename_i others same
      obtain rfl := Option.some.inj (found.symm.trans same)
      refine ih fun entry member t pending => ?_
      rcases List.mem_cons.1 member with rfl | member
      · exact hasVertex_of_pending left right edges known pending
      · exact dropped inside entry member t pending

/-- The back edges depend on the edges of the graph and on the roots only. -/
theorem backEdges_congr (left : g.Consistent) (right : h.Consistent)
    (edges : ∀ head tail, g.hasEdge head tail = h.hasEdge head tail)
    (vertices : ∀ root ∈ roots, g.hasVertex root = true ∧ h.hasVertex root = true) :
    g.backEdges roots = h.backEdges roots := by
  have same : ∀ w, roots.foldlM g.walkFrom w = roots.foldlM h.walkFrom w := by
    induction roots with
    | nil => exact fun _ => rfl
    | cons root rest ih =>
      intro w
      obtain ⟨vertex, other⟩ := vertices root List.mem_cons_self
      obtain ⟨tails, known⟩ := SortedMap.contains_iff.1 ((left.successors root).trans vertex)
      have found := (successors_congr left right edges vertex other).symm.trans known
      have first : g.walkFrom w root = h.walkFrom w root := by
        simp only [walkFrom, successorsOf, known, found, bind, Except.bind]
        split
        · rfl
        · refine walk_congr left right edges fun entry member t pending => ?_
          obtain rfl := List.mem_singleton.1 member
          exact hasVertex_of_pending left right edges known pending
      rw [List.foldlM_cons, List.foldlM_cons, first]
      exact congrArg _ (funext fun next => ih (fun r member =>
        vertices r (List.mem_cons_of_mem _ member)) next)
  rw [backEdges, backEdges, same]

end Alike

end Graph

end EventCheck
