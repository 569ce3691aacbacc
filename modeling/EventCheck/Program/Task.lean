import EventCheck.Program.Actor

/-!
A task: the program under verification with its observers, checked to be well formed.
-/

namespace EventCheck

/-- A program with its observers. -/
structure Task where
  name : String
  actors : List Actor
  operations : SortedMap Nat Operation
deriving DecidableEq, Inhabited

namespace Task

/-- The table of the operations; no number may occur twice. -/
def operationTable (operations : List Operation) : Except Error (SortedMap Nat Operation) :=
  operations.foldlM (fun table operation =>
    if table.contains operation.id then .error (.duplicateOperation operation.id)
    else .ok (table.insert operation.id operation)) ∅

/-- The names of the actors and the owners of the locations that have been checked. -/
structure Checked where
  actors : SortedSet String := ∅
  owners : SortedMap Location String := ∅

/-- Claims a location for a control flow. -/
def checkLocation (owner : String) (checked : Checked) (location : Location) :
    Except Error Checked :=
  match checked.owners.get? location with
  | some other => .error (.sharedLocation location other owner)
  | none => .ok { checked with owners := checked.owners.insert location owner }

/-- Checks that the operations of a control flow exist and that its locations are its own. -/
def checkFlow (operations : SortedMap Nat Operation) (checked : Checked)
    (owned : String × ControlFlow) : Except Error Checked :=
  match owned.2.operations.toList.find? fun id => !operations.contains id with
  | some missing => .error (.operationNotFound missing)
  | none => owned.2.locations.foldlM (checkLocation owned.1) checked

/-- Checks that the name of an actor is its own, and its control flows. -/
def checkActor (operations : SortedMap Nat Operation) (checked : Checked) (actor : Actor) :
    Except Error Checked :=
  if checked.actors.contains actor.name then .error (.duplicateActor actor.name)
  else actor.flows.foldlM (checkFlow operations)
    { checked with actors := checked.actors.insert actor.name }

/-- The task of the given actors and operations. Names of actors and numbers of operations have
to be unique, operations on transitions have to exist, and no location may belong to more than
one control flow. -/
def create (name : String) (actors : List Actor) (operations : List Operation) :
    Except Error Task := do
  let table ← operationTable operations
  let _ ← actors.foldlM (checkActor table) {}
  return { name, actors, operations := table }

def actor (task : Task) (name : String) : Except Error Actor :=
  match task.actors.find? (·.name == name) with
  | some actor => .ok actor
  | none => .error (.actorNotFound name)

def operation (task : Task) (id : Nat) : Except Error Operation :=
  match task.operations.get? id with
  | some operation => .ok operation
  | none => .error (.operationNotFound id)

end Task

end EventCheck
