import EventCheck.Analysis.Basic
import EventCheck.Graph.Dot

/-!
Which reached state was computed from which. A state that has been merged away is represented
by the state that it was merged into, so edges from it start there.
-/

namespace EventCheck

/-- The reached states, by number, with the edges between them. -/
structure Accessibility where
  graph : Graph Unit Unit := ∅
  /-- For each number the reached state that represents it. -/
  representatives : SortedMap Nat Nat := ∅
deriving DecidableEq

namespace Accessibility

/-- The vertices of the states. -/
def addVertex (g : Graph Unit Unit) (p : Provenance) : Except Error (Graph Unit Unit) :=
  if g.hasVertex p.id then .ok g else g.insertVertex p.id ()

/-- A state represents those that it was merged from, unless they are reached themselves. -/
def representativesOf (provenances : List Provenance) : SortedMap Nat Nat :=
  let merged := provenances.flatMap fun p => p.mergeOf.toList.map (·, p.id)
  .ofList (merged ++ provenances.map fun p => (p.id, p.id))

/-- An edge from the representative of a predecessor, if it has one. -/
def addEdge (representatives : SortedMap Nat Nat) (state : Nat) (g : Graph Unit Unit)
    (predecessor : Nat) : Except Error (Graph Unit Unit) :=
  match representatives.get? predecessor with
  | none => .ok g
  | some head => if head = state || g.hasEdge head state then .ok g else g.insertEdge head state ()

/-- The relation between the states with the given provenances. -/
def ofProvenances (provenances : List Provenance) : Except Error Accessibility := do
  let representatives := representativesOf provenances
  let vertices ← provenances.foldlM addVertex ∅
  let graph ← provenances.foldlM (fun g p =>
    p.predecessors.toList.foldlM (addEdge representatives p.id) g) vertices
  return { graph, representatives }

/-- The reached state that represents a number. -/
def resolve (a : Accessibility) (id : Nat) : Option Nat := a.representatives.get? id

def predecessors (a : Accessibility) (id : Nat) : Except Error (SortedSet Nat) :=
  a.graph.predecessorsOf id

def successors (a : Accessibility) (id : Nat) : Except Error (SortedSet Nat) :=
  a.graph.successorsOf id

def size (a : Accessibility) : Nat := a.graph.vertices.size

def isEmpty (a : Accessibility) : Bool := a.size == 0

/-- Extends a path to the front by the smallest predecessor that is not on it, again and again,
`current` being its first state. -/
def extendBack (a : Accessibility) : Nat → Nat → List Nat → Except Error (List Nat)
  | 0, current, path => do
    let _ ← a.predecessors current
    return path
  | fuel + 1, current, path => do
    match (← a.predecessors current).toList.find? (!path.contains ·) with
    | some predecessor => a.extendBack fuel predecessor (predecessor :: path)
    | none => return path

/-- A path to a state that goes back as far as it can without a repetition. It has at most all
states on it. -/
def pathTo (a : Accessibility) (id : Nat) : Except Error (List Nat) :=
  a.extendBack a.size id [id]

/-- The relation as a drawing. -/
def dot (a : Accessibility) : String :=
  a.graph.dot (fun vertex _ => toString vertex) (fun _ _ => "")

end Accessibility

end EventCheck
