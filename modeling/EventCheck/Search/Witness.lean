import EventCheck.Json.Basic
import EventCheck.Search.Accessibility
import EventCheck.Search.Reached

/-!
Error witnesses: the path to a violation, with the values of the variables at each of its states
and the inputs with which a replay follows it.
-/

namespace EventCheck

/-- The values of an actor's variables. -/
structure ActorValues where
  name : String
  «variables» : SortedMap String Json

/-- A state on the path to a violation. -/
structure WitnessStep where
  id : Nat
  /-- How many states come before it. -/
  timestamp : Nat
  /-- The operations that led to it. -/
  action : String
  actors : List ActorValues

/-- What a replay has to provide. -/
inductive Mock where
  | returnValues (function : String) (values : List Json)
  | actorAssignments (actor : String) (assignments : List (SortedMap String Json))

structure ErrorWitness where
  programName : String := ""
  violations : List String := []
  steps : List WitnessStep := []
  mocks : List Mock := []
deriving Inhabited

/-- A constant as a plain value. Integers of more than 64 bits are written as text. -/
def Constant.plain : Constant → Json
  | .int n => if -Int.pow 2 63 ≤ n ∧ n < Int.pow 2 63 then .int n else .string (toString n)
  | .bool b => .bool b
  | .str s => .string s

namespace ErrorWitness

variable {σ : Type}

/-- The value in the model of the current version of a variable. Of a variable that was never
written there is none at a state. -/
def modelValue? (a : Analysis σ) (s : σ) (model : Model) (base : Variable) : Option Constant :=
  match a.instantiate s (.var base) with
  | .var v => if v.version.getD 0 = 0 then none else model.get? v
  | _ => none

/-- The values at a state: those that the analysis knows, and for other variables those of the
model. -/
def valuesAt (a : Analysis σ) (s : σ) (model : Model) : Model :=
  let known := a.values s
  let bases := SortedSet.ofList (model.keys.map Variable.base)
  bases.toList.foldl (fun values base =>
    if known.contains base then values
    else
      match modelValue? a s model base with
      | some c => values.insert base c
      | none => values) known

/-- The values as documents, by actor and by name within the actor. -/
def byActor (values : List (Variable × Constant)) : SortedMap String (SortedMap String Json) :=
  values.foldl (fun actors (v, c) =>
    actors.insert v.actor ((actors.getD v.actor ∅).insert v.localName c.plain)) ∅

/-- Variables that were never written are inputs of the program, set before it starts. -/
def inputMocks (model : Model) : List Mock :=
  let inputs := model.toList.filter fun (v, _) => v.version == some 0
  (byActor inputs).toList.map fun (actor, values) => .actorAssignments actor [values]

/-- The operations of a step in words. -/
def actionOf (label : List Transfer) : String :=
  if label.isEmpty then "initial"
  else "; ".intercalate (label.map fun t => "T" ++ toString t.thread ++ ": " ++ t.statement.text)

def stepOf (a : Analysis σ) (model : Model) (id timestamp : Nat) (s : σ) : WitnessStep where
  id
  timestamp
  action := actionOf (a.label s)
  actors := (byActor (valuesAt a s model).toList).toList.map fun (name, values) =>
    { name, «variables» := values }

/-- The reached states by number. -/
def statesById (a : Analysis σ) (reached : List σ) : SortedMap Nat σ :=
  .ofList (reached.filterMap fun s => (a.provenance s).map (·.id, s))

def stepById (a : Analysis σ) (model : Model) (states : SortedMap Nat σ) (entry : Nat × Nat) :
    Except Error WitnessStep :=
  match states.get? entry.1 with
  | some s => .ok (stepOf a model entry.1 entry.2 s)
  | none => .error (.unreachedState entry.1)

/-- The witness for the path to a reached state that violates the properties, the model being one
of its formula. -/
def build (a : Analysis σ) (task : Task) (reached : List σ) (accessibility : Accessibility)
    (target : σ) (violations : SortedSet Property) (model : Model) :
    Except Error ErrorWitness := do
  match a.provenance target with
  | none => throw .witnessWithoutProvenance
  | some provenance =>
    let path ← accessibility.pathTo provenance.id
    let states := statesById a reached
    let steps ← path.zipIdx.mapM (stepById a model states)
    return { programName := task.name, violations := violations.toList.map (·.name), steps,
             mocks := inputMocks model }

end ErrorWitness

end EventCheck
