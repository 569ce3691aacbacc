import EventCheck.Error
import EventCheck.Sorted.Map

/-!
Directed graphs over numbered vertices, at most one edge from one vertex to another. Both
directions are indexed.
-/

namespace EventCheck

/-- The ends of an edge. -/
structure Arc where
  head : Nat
  tail : Nat
deriving DecidableEq, Repr, Inhabited

namespace Arc

/-- By head, then by tail. -/
def order : Arc → Arc → Ordering := compareLex (compareOn head) (compareOn tail)

instance : Ord Arc := ⟨order⟩

instance : Std.TransOrd Arc :=
  inferInstanceAs (Std.TransCmp (compareLex (compareOn head) (compareOn tail)))

instance : Std.LawfulEqOrd Arc where
  compare_self := cmp_self (compareLex (compareOn head) (compareOn tail))
  eq_of_compare {a b} same := by
    have same : order a b = .eq := same
    simp only [order, compareLex, compareOn, Ordering.then_eq_eq] at same
    have heads := Std.LawfulEqOrd.eq_of_compare (α := Nat) same.1
    have tails := Std.LawfulEqOrd.eq_of_compare (α := Nat) same.2
    cases a; cases b; simp_all

end Arc

/-- A directed graph with vertices labelled by `ν` and edges by `ε`. -/
structure Graph (ν ε : Type) where
  vertices : SortedMap Nat ν := ∅
  edges : SortedMap Arc ε := ∅
  /-- For each vertex the tails of the edges that leave it. -/
  successors : SortedMap Nat (SortedSet Nat) := ∅
  /-- For each vertex the heads of the edges that enter it. -/
  predecessors : SortedMap Nat (SortedSet Nat) := ∅
deriving DecidableEq

namespace Graph

variable {ν ε : Type}

instance : EmptyCollection (Graph ν ε) := ⟨⟨∅, ∅, ∅, ∅⟩⟩

instance : Inhabited (Graph ν ε) := ⟨∅⟩

def hasVertex (g : Graph ν ε) (vertex : Nat) : Bool := g.vertices.contains vertex

def hasEdge (g : Graph ν ε) (head tail : Nat) : Bool := g.edges.contains ⟨head, tail⟩

/-- Adds a vertex that is not yet there. -/
def insertVertex (g : Graph ν ε) (vertex : Nat) (label : ν) : Except Error (Graph ν ε) :=
  if g.hasVertex vertex then .error .duplicateVertex
  else .ok { g with
    vertices := g.vertices.insert vertex label
    successors := g.successors.insert vertex ∅
    predecessors := g.predecessors.insert vertex ∅ }

/-- Adds an edge that is not yet there between two vertices that are. -/
def insertEdge (g : Graph ν ε) (head tail : Nat) (label : ε) : Except Error (Graph ν ε) :=
  if g.hasEdge head tail then .error .duplicateEdge
  else if !g.hasVertex head then .error (.vertexNotFound head)
  else if !g.hasVertex tail then .error (.vertexNotFound tail)
  else .ok { g with
    edges := g.edges.insert ⟨head, tail⟩ label
    successors := g.successors.insert head ((g.successors.getD head ∅).insert tail)
    predecessors := g.predecessors.insert tail ((g.predecessors.getD tail ∅).insert head) }

/-- Changes the label of an edge. -/
def updateEdge (g : Graph ν ε) (head tail : Nat) (f : ε → ε) : Except Error (Graph ν ε) :=
  match g.edges.get? ⟨head, tail⟩ with
  | some label => .ok { g with edges := g.edges.insert ⟨head, tail⟩ (f label) }
  | none => .error (.edgeNotFound head tail)

def vertex (g : Graph ν ε) (index : Nat) : Except Error ν :=
  match g.vertices.get? index with
  | some label => .ok label
  | none => .error (.vertexNotFound index)

def edge (g : Graph ν ε) (head tail : Nat) : Except Error ε :=
  match g.edges.get? ⟨head, tail⟩ with
  | some label => .ok label
  | none => .error (.edgeNotFound head tail)

def successorsOf (g : Graph ν ε) (index : Nat) : Except Error (SortedSet Nat) :=
  match g.successors.get? index with
  | some tails => .ok tails
  | none => .error (.vertexNotFound index)

def predecessorsOf (g : Graph ν ε) (index : Nat) : Except Error (SortedSet Nat) :=
  match g.predecessors.get? index with
  | some heads => .ok heads
  | none => .error (.vertexNotFound index)

/-- The edges that leave a vertex, by tail. -/
def edgesOut (g : Graph ν ε) (index : Nat) : Except Error (List (Arc × ε)) := do
  let tails ← g.successorsOf index
  return tails.toList.filterMap fun tail => (g.edges.get? ⟨index, tail⟩).map (⟨index, tail⟩, ·)

/-- The edges that enter a vertex, by head. -/
def edgesIn (g : Graph ν ε) (index : Nat) : Except Error (List (Arc × ε)) := do
  let heads ← g.predecessorsOf index
  return heads.toList.filterMap fun head => (g.edges.get? ⟨head, index⟩).map (⟨head, index⟩, ·)

/-- The vertices that no edge enters. -/
def roots (g : Graph ν ε) : List (Nat × ν) :=
  g.vertices.toList.filter fun entry => (g.predecessors.getD entry.1 ∅).isEmpty

/-! ### Reachable vertices -/

/-- The vertices that a search has reached, and those of them whose edges it has yet to follow, the
one reached last first. -/
structure Spread where
  reached : SortedSet Nat
  waiting : List Nat

/-- Reaches a vertex. If it is new, its edges are to be followed. -/
def Spread.reach (s : Spread) (vertex : Nat) : Spread :=
  if s.reached.contains vertex then s
  else { reached := s.reached.insert vertex, waiting := vertex :: s.waiting }

/-- The tails of all edges. -/
def edgeTails (g : Graph ν ε) : List Nat := g.successors.values.flatMap (·.toList)

/-- How many vertices a search may still have to follow the edges of: those that wait and those that
it has not reached. -/
def outstanding (g : Graph ν ε) (s : Spread) : Nat :=
  (g.edgeTails.countP fun vertex => !s.reached.contains vertex) + s.waiting.length

theorem countP_lt_of_mem {α : Type} {p q : α → Bool} {elements : List α} {a : α}
    (implies : ∀ b, p b = true → q b = true) (member : a ∈ elements)
    (dropped : p a = false) (kept : q a = true) : elements.countP p < elements.countP q := by
  induction elements with
  | nil => simp at member
  | cons b rest ih =>
    have below : rest.countP p ≤ rest.countP q := List.countP_mono_left fun c _ => implies c
    rcases List.mem_cons.1 member with rfl | member
    · simp only [List.countP_cons, dropped, kept]
      simp
      omega
    · have := ih member
      have step : (if p b = true then 1 else 0) ≤ if q b = true then 1 else 0 := by
        by_cases h : p b = true
        · simp [h, implies b h]
        · simp [h]
      simp only [List.countP_cons]
      omega

/-- Fewer vertices are left over with each of them that is put into a set. -/
theorem countP_insert_lt {vertices : List Nat} {set : SortedSet Nat} {vertex : Nat}
    (member : vertex ∈ vertices) (fresh : ¬set.contains vertex = true) :
    (vertices.countP fun v => !(set.insert vertex).contains v) <
      vertices.countP fun v => !set.contains v := by
  refine countP_lt_of_mem ?_ member ?_ ?_
  · intro other
    simp only [Bool.not_eq_true', ← Bool.not_eq_true, SortedSet.contains_iff,
      SortedSet.mem_insert]
    exact fun absent present => absent (Or.inr present)
  · simp [SortedSet.contains_iff.2 (SortedSet.mem_insert.2 (Or.inl rfl))]
  · simpa using fresh

theorem outstanding_reach_le {g : Graph ν ε} {s : Spread} {vertex : Nat}
    (tail : vertex ∈ g.edgeTails) : g.outstanding (s.reach vertex) ≤ g.outstanding s := by
  unfold Spread.reach
  split
  · exact Nat.le_refl _
  · rename_i fresh
    have fewer := countP_insert_lt tail fresh
    simp only [outstanding, List.length_cons]
    omega

theorem outstanding_foldl_le {g : Graph ν ε} {s : Spread} {vertices : List Nat}
    (tails : ∀ vertex ∈ vertices, vertex ∈ g.edgeTails) :
    g.outstanding (vertices.foldl Spread.reach s) ≤ g.outstanding s := by
  induction vertices generalizing s with
  | nil => exact Nat.le_refl _
  | cons first rest ih =>
    obtain ⟨tail, others⟩ := List.forall_mem_cons.1 tails
    exact Nat.le_trans (ih others) (outstanding_reach_le tail)

theorem mem_edgeTails {g : Graph ν ε} {vertex tail : Nat} {tails : SortedSet Nat}
    (known : g.successors.get? vertex = some tails) (member : tail ∈ tails.toList) :
    tail ∈ g.edgeTails := by
  have listed := SortedMap.get?_eq_some_iff.1 known
  exact List.mem_flatMap.2 ⟨tails, List.mem_map.2 ⟨_, listed, rfl⟩, member⟩

/-- Follows the edges of the vertices that wait, until none does. A vertex without an entry among
the successors is an error. -/
def spread (g : Graph ν ε) (s : Spread) : Except Error (SortedSet Nat) :=
  match _queue : s.waiting with
  | [] => .ok s.reached
  | vertex :: rest =>
    match _known : g.successors.get? vertex with
    | none => .error (.vertexNotFound vertex)
    | some tails => g.spread (tails.toList.foldl Spread.reach { s with waiting := rest })
termination_by g.outstanding s
decreasing_by
  refine Nat.lt_of_le_of_lt (outstanding_foldl_le fun _ => mem_edgeTails _known) ?_
  simp [outstanding, _queue]

/-- The vertices that can be reached from a vertex in any number of steps. -/
def reachable (g : Graph ν ε) (index : Nat) : Except Error (SortedSet Nat) :=
  if g.hasVertex index then g.spread { reached := .singleton index, waiting := [index] }
  else .error (.vertexNotFound index)

end Graph

end EventCheck
