import EventCheck.Graph.BackEdge
import EventCheck.Graph.Dot

/-!
The control flow of a script or method: a graph over locations. Each edge carries operations,
every one of which is a way of going from its head to its tail.
-/

namespace EventCheck

/-- A control location. Over a whole task a location belongs to one control flow at most. -/
abbrev Location := Nat

/-- One way of leaving a location. -/
structure Exit where
  operation : Nat
  target : Location
deriving DecidableEq, Repr, Inhabited

/-- Locations, the operations that lead from one to another, and where execution starts. -/
structure ControlFlow where
  graph : Graph Unit (List Nat) := ∅
  entries : SortedSet Location := ∅
  /-- The loop heads of the graph seen from the entries. -/
  loopHeads : SortedSet Location := ∅
deriving DecidableEq, Inhabited

namespace ControlFlow

/-- The control flow without locations. -/
def empty : ControlFlow := ⟨∅, ∅, ∅⟩

/-- Finds the loop heads anew. -/
def updateLoopHeads (flow : ControlFlow) : Except Error ControlFlow := do
  let heads ← flow.graph.loopHeads flow.entries.toList
  return { flow with loopHeads := heads }

/-- Adds a location unless it is there. -/
def addLocation (flow : ControlFlow) (location : Location) : Except Error ControlFlow :=
  if flow.graph.hasVertex location then .ok flow
  else do
    let graph ← flow.graph.insertVertex location ()
    return { flow with graph := graph }

/-- Makes a location one where execution may start. -/
def addEntry (flow : ControlFlow) (location : Location) : Except Error ControlFlow := do
  let flow ← flow.addLocation location
  updateLoopHeads { flow with entries := flow.entries.insert location }

/-- Adds an operation to the edge between two locations. -/
def addTransition (flow : ControlFlow) (head : Location) (operation : Nat) (tail : Location) :
    Except Error ControlFlow := do
  let flow ← flow.addLocation head
  let flow ← flow.addLocation tail
  let graph ←
    if flow.graph.hasEdge head tail then
      flow.graph.updateEdge head tail fun operations =>
        if operations.contains operation then operations else operations ++ [operation]
    else flow.graph.insertEdge head tail [operation]
  updateLoopHeads { flow with graph := graph }

/-- The control flow with the given entries and transitions from head over operation to tail. -/
def ofTransitions (entries : List Location) (transitions : List (Location × Nat × Location)) :
    Except Error ControlFlow := do
  let flow ← entries.foldlM addEntry empty
  transitions.foldlM (fun flow (head, operation, tail) => flow.addTransition head operation tail)
    flow

def hasLocation (flow : ControlFlow) (location : Location) : Bool := flow.graph.hasVertex location

def locations (flow : ControlFlow) : List Location := flow.graph.vertices.keys

/-- All ways of leaving a location, by target and then in the order they were added. -/
def exits (flow : ControlFlow) (location : Location) : Except Error (List Exit) := do
  let edges ← flow.graph.edgesOut location
  return edges.flatMap fun (arc, operations) => operations.map (⟨·, arc.tail⟩)

/-- Whether the location can be left. -/
def hasExits (flow : ControlFlow) (location : Location) : Except Error Bool := do
  let tails ← flow.graph.successorsOf location
  return !tails.isEmpty

def isLoopHead (flow : ControlFlow) (location : Location) : Bool := flow.loopHeads.contains location

/-- The operations on all transitions. -/
def operations (flow : ControlFlow) : SortedSet Nat := .ofList flow.graph.edges.values.flatten

/-- The locations and operations as a drawing. -/
def dot (flow : ControlFlow) : String :=
  flow.graph.dot (fun location _ => "L" ++ toString location)
    (fun _ operations => ", ".intercalate (operations.map toString))

end ControlFlow

end EventCheck
