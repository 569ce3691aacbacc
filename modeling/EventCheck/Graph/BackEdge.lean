import EventCheck.Graph.Basic

/-!
The edges that close a loop, found by a depth-first walk: an edge is a back edge if its tail is
on the walk's path when the edge is taken. The tails of the back edges are the loop heads.
-/

namespace EventCheck

namespace Graph

variable {ν ε : Type}

/-- A vertex on the path of a walk, with the successors that are still to be taken. -/
abbrev PathEntry := Nat × List Nat

/-- What a walk has seen. -/
structure Walk where
  visited : SortedSet Nat := ∅
  backEdges : SortedSet Arc := ∅

/-- How many steps a walk has still to take from a vertex: none if it has visited it, and otherwise
one to each successor and one back. -/
def stepsFrom (visited : SortedSet Nat) (vertex : Nat × SortedSet Nat) : Nat :=
  if visited.contains vertex.1 then 0 else vertex.2.toList.length + 1

def ahead (visited : SortedSet Nat) : List (Nat × SortedSet Nat) → Nat
  | [] => 0
  | vertex :: rest => stepsFrom visited vertex + ahead visited rest

/-- How many successors are to be taken, counting one for leaving each vertex. -/
def pending : List PathEntry → Nat
  | [] => 0
  | entry :: rest => entry.2.length + 1 + pending rest

theorem stepsFrom_insert_le {visited : SortedSet Nat} {vertex : Nat}
    {other : Nat × SortedSet Nat} :
    stepsFrom (visited.insert vertex) other ≤ stepsFrom visited other := by
  unfold stepsFrom
  by_cases seen : visited.contains other.1 = true
  · have kept : (visited.insert vertex).contains other.1 = true :=
      SortedSet.contains_iff.2 (SortedSet.mem_insert.2 (Or.inr (SortedSet.contains_iff.1 seen)))
    simp [kept, seen]
  · simp only [seen]
    split
    · exact Nat.zero_le _
    · exact Nat.le_refl _

theorem ahead_insert_le {visited : SortedSet Nat} {vertex : Nat}
    {vertices : List (Nat × SortedSet Nat)} :
    ahead (visited.insert vertex) vertices ≤ ahead visited vertices := by
  induction vertices with
  | nil => exact Nat.le_refl _
  | cons other rest ih => exact Nat.add_le_add stepsFrom_insert_le ih

/-- What is ahead gets less by the steps from a vertex when that is visited. -/
theorem ahead_insert {visited : SortedSet Nat} {vertex : Nat} {tails : SortedSet Nat}
    {vertices : List (Nat × SortedSet Nat)} (member : (vertex, tails) ∈ vertices)
    (fresh : ¬visited.contains vertex = true) :
    ahead (visited.insert vertex) vertices + (tails.toList.length + 1) ≤
      ahead visited vertices := by
  induction vertices with
  | nil => simp at member
  | cons other rest ih =>
    rcases List.mem_cons.1 member with rfl | member
    · have seen : (visited.insert vertex).contains vertex = true :=
        SortedSet.contains_iff.2 (SortedSet.mem_insert.2 (Or.inl rfl))
      have before : stepsFrom visited (vertex, tails) = tails.toList.length + 1 := by
        simp [stepsFrom, fresh]
      have after : stepsFrom (visited.insert vertex) (vertex, tails) = 0 := by
        simp [stepsFrom, seen]
      have others := @ahead_insert_le visited vertex rest
      simp only [ahead, before, after]
      omega
    · have first := @stepsFrom_insert_le visited vertex other
      have others := ih member
      simp only [ahead]
      omega

/-- Continues a walk along its path, the innermost vertex first. Of the successors of a vertex
the largest is taken first. -/
def walk (g : Graph ν ε) (w : Walk) : List PathEntry → Except Error Walk
  | [] => .ok w
  | (_, []) :: path => g.walk w path
  | (vertex, next :: later) :: path =>
    if next = vertex ∨ path.any (·.1 == next) then
      g.walk { w with backEdges := w.backEdges.insert ⟨vertex, next⟩ } ((vertex, later) :: path)
    else if w.visited.contains next then
      g.walk w ((vertex, later) :: path)
    else
      match _known : g.successors.get? next with
      | none => .error (.vertexNotFound next)
      | some tails =>
        g.walk { w with visited := w.visited.insert next }
          ((next, tails.toList.reverse) :: (vertex, later) :: path)
-- One number, not a pair in lexicographic order, so `decide` can evaluate walks of given graphs.
termination_by path => ahead w.visited g.successors.toList + pending path
decreasing_by
  · simp [pending]
  · simp [pending]
  · simp [pending]
  · have fewer := ahead_insert (SortedMap.get?_eq_some_iff.1 _known) ‹_›
    simp only [pending, List.length_reverse, List.length_cons]
    omega

/-- Walks from a root, unless an earlier walk has been there. -/
def walkFrom (g : Graph ν ε) (w : Walk) (root : Nat) : Except Error Walk := do
  let tails ← g.successorsOf root
  if w.visited.contains root then return w
  g.walk { w with visited := w.visited.insert root } [(root, tails.toList.reverse)]

/-- The back edges of the walks from the roots, in the order of the roots. -/
def backEdges (g : Graph ν ε) (roots : List Nat) : Except Error (SortedSet Arc) :=
  (·.backEdges) <$> roots.foldlM g.walkFrom {}

/-- The tails of the back edges. -/
def loopHeads (g : Graph ν ε) (roots : List Nat) : Except Error (SortedSet Nat) :=
  (fun arcs => .ofList (arcs.toList.map Arc.tail)) <$> g.backEdges roots

end Graph

end EventCheck
