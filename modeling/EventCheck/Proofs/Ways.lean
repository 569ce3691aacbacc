import EventCheck.Proofs.Graph
import Mathlib.Data.List.Chain
import Mathlib.Data.List.Nodup

/-!
Ways through a graph as sequences of edges, among them those that lead back to where they start. A
list of vertices each of which has an edge to the one before is walked back along such a way.
-/

namespace EventCheck

namespace Graph

variable {ν ε : Type} {g : Graph ν ε} {u v w : Nat} {arc : Arc} {arcs more : List Arc}

/-- Edges from one vertex to another, each of which begins where the one before ends. -/
inductive Way (g : Graph ν ε) : Nat → List Arc → Nat → Prop
  | nil (v : Nat) : Way g v [] v
  | cons {head tail target : Nat} {arcs : List Arc} (edge : g.hasEdge head tail = true)
    (rest : Way g tail arcs target) : Way g head (⟨head, tail⟩ :: arcs) target

/-- A way from a vertex back to it, with an edge at least. -/
structure Loop (g : Graph ν ε) (v : Nat) (arcs : List Arc) : Prop where
  way : g.Way v arcs v
  proper : arcs ≠ []

/-- No vertex is passed twice. -/
def Simple (arcs : List Arc) : Prop := (arcs.map Arc.head).Nodup

theorem Way.append (first : g.Way u arcs v) (second : g.Way v more w) :
    g.Way u (arcs ++ more) w := by
  induction first with
  | nil _ => exact second
  | cons edge _ ih => exact .cons edge (ih second)

theorem Way.snoc (way : g.Way u arcs v) (edge : g.hasEdge v w = true) :
    g.Way u (arcs ++ [⟨v, w⟩]) w :=
  way.append (.cons edge (.nil w))

/-- What holds of a vertex and is kept by edges holds wherever a way leads. -/
theorem Way.induction {kept : Nat → Prop} (way : g.Way u arcs v) (start : kept u)
    (step : ∀ arc ∈ arcs, g.hasEdge arc.head arc.tail = true → kept arc.head → kept arc.tail) :
    kept v := by
  induction way with
  | nil _ => exact start
  | @cons head tail _ arcs edge _ ih =>
    refine ih (step ⟨head, tail⟩ List.mem_cons_self edge start) fun arc member => ?_
    exact step arc (List.mem_cons_of_mem _ member)

/-- Some edge leads back to where a loop starts. -/
theorem Loop.exists_hasEdge (loop : g.Loop v arcs) : ∃ u, g.hasEdge u v = true := by
  have entered : ∀ {u w arcs}, g.Way u arcs w → arcs ≠ [] → ∃ t, g.hasEdge t w = true := by
    intro u w arcs way
    induction way with
    | nil _ => exact absurd rfl
    | @cons head _ _ arcs edge rest ih =>
      intro _
      cases rest with
      | nil _ => exact ⟨head, edge⟩
      | cons _ _ => exact ih (by simp)
  exact entered loop.way loop.proper

/-- A list of vertices with edges between consecutive ones is a way to each of them. -/
theorem exists_way_of_mem {later : List Nat}
    (line : (v :: later).IsChain fun head tail => g.hasEdge head tail = true)
    (member : u ∈ v :: later) : ∃ arcs, g.Way v arcs u := by
  induction later generalizing v with
  | nil =>
    obtain rfl := List.mem_singleton.1 member
    exact ⟨[], .nil u⟩
  | cons next rest ih =>
    rcases List.mem_cons.1 member with rfl | member
    · exact ⟨[], .nil u⟩
    · obtain ⟨edge, line⟩ := List.isChain_cons_cons.1 line
      obtain ⟨arcs, way⟩ := ih line member
      exact ⟨_, .cons edge way⟩

/-- Along a list of vertices, each with an edge to the one before it, the way back to the first one
passes only the others. -/
theorem exists_way_of_isChain {outer : List Nat}
    (line : (v :: outer).IsChain fun inner outer => g.hasEdge outer inner = true)
    (distinct : (v :: outer).Nodup) (member : u ∈ v :: outer) :
    ∃ arcs, g.Way u arcs v ∧ Simple arcs ∧ ∀ arc ∈ arcs, arc.head ∈ outer := by
  induction outer generalizing v with
  | nil =>
    obtain rfl := List.mem_singleton.1 member
    exact ⟨[], .nil u, List.nodup_nil, by simp⟩
  | cons next rest ih =>
    rcases List.mem_cons.1 member with rfl | member
    · exact ⟨[], .nil u, List.nodup_nil, by simp⟩
    obtain ⟨edge, line⟩ := List.isChain_cons_cons.1 line
    have distinct := (List.nodup_cons.1 distinct).2
    obtain ⟨arcs, way, simple, inside⟩ := ih line distinct member
    refine ⟨arcs ++ [⟨next, v⟩], way.snoc edge, ?_, fun arc member => ?_⟩
    · have fresh : next ∉ arcs.map Arc.head := by
        intro passed
        obtain ⟨arc, member, same⟩ := List.mem_map.1 passed
        exact (List.nodup_cons.1 distinct).1 (same ▸ inside arc member)
      rw [Simple, List.map_append]
      exact simple.append (List.nodup_singleton next) (List.disjoint_singleton.2 fresh)
    · rcases List.mem_append.1 member with member | member
      · exact List.mem_cons_of_mem _ (inside arc member)
      · rw [List.mem_singleton.1 member]
        exact List.mem_cons_self

/-- An edge from the first of such vertices to any of them closes a loop. -/
theorem exists_loop_of_isChain {outer : List Nat}
    (line : (v :: outer).IsChain fun inner outer => g.hasEdge outer inner = true)
    (distinct : (v :: outer).Nodup) (edge : g.hasEdge v u = true) (member : u ∈ v :: outer) :
    ∃ arcs, g.Loop v (⟨v, u⟩ :: arcs) ∧ Simple (⟨v, u⟩ :: arcs) ∧
      ∀ arc ∈ arcs, arc.head ∈ outer := by
  obtain ⟨arcs, way, simple, inside⟩ := exists_way_of_isChain line distinct member
  refine ⟨arcs, ⟨.cons edge way, by simp⟩, List.nodup_cons.2 ⟨fun passed => ?_, simple⟩, inside⟩
  obtain ⟨arc, member, same⟩ := List.mem_map.1 passed
  have same : arc.head = v := same
  exact (List.nodup_cons.1 distinct).1 (same ▸ inside arc member)

end Graph

end EventCheck
