import EventCheck.Program.ControlFlow

/-!
Actors, their scripts and methods, and the events that start scripts.
-/

namespace EventCheck

/-- What starts a script. -/
inductive Event where
  /-- The start of the program. -/
  | bootstrap
  /-- The broadcast of a message. -/
  | message (text : String)
  /-- Any statement of the program; for observers. -/
  | afterStatement
  | never
deriving DecidableEq, Repr, Inhabited

namespace Event

def text : Event → String
  | bootstrap => "bootstrap"
  | message text => "message " ++ Text.quoted text
  | afterStatement => "after statement"
  | never => "never"

def rank : Event → Nat
  | bootstrap => 0
  | message _ => 1
  | afterStatement => 2
  | never => 3

def message? : Event → Option String
  | message text => some text
  | _ => none

/-- In the order of declaration, messages by their text. -/
def order : Event → Event → Ordering := compareLex (compareOn rank) (compareOn message?)

instance : Ord Event := ⟨order⟩

instance : Std.TransOrd Event :=
  inferInstanceAs (Std.TransCmp (compareLex (compareOn rank) (compareOn message?)))

instance : Std.LawfulEqOrd Event where
  compare_self := cmp_self (compareLex (compareOn rank) (compareOn message?))
  eq_of_compare {a b} same := by
    have same : order a b = .eq := same
    simp only [order, compareLex, compareOn, Ordering.then_eq_eq] at same
    have ranks := Std.LawfulEqOrd.eq_of_compare (α := Nat) same.1
    have messages := Std.LawfulEqOrd.eq_of_compare (α := Option String) same.2
    cases a <;> cases b <;> simp_all [rank, message?]

end Event

/-- A piece of the program that an event starts. -/
structure Script where
  id : Nat
  event : Event
  /-- Whether a running instance starts over when the event occurs again. -/
  restartOnTrigger : Bool := true
  flow : ControlFlow
deriving DecidableEq, Inhabited

/-- Whether the broadcast of the message starts the script. -/
def Script.isTriggeredBy (script : Script) (message : String) : Bool :=
  script.event == .message message

/-- A procedure of an actor. -/
structure Method where
  name : String
  parameters : List Variable
  /-- Whether the method runs without giving way to other threads. -/
  atomic : Bool := false
  flow : ControlFlow
deriving DecidableEq, Inhabited

/-- An actor of the program, or an observer that checks its properties. -/
structure Actor where
  name : String
  isObserver : Bool := false
  scripts : List Script := []
  methods : SortedMap String Method := ∅
deriving DecidableEq, Inhabited

namespace Actor

def addScript (actor : Actor) (script : Script) : Except Error Actor :=
  if actor.scripts.any (·.id == script.id) then .error (.duplicateScript actor.name script.id)
  else .ok { actor with scripts := actor.scripts ++ [script] }

def addMethod (actor : Actor) (method : Method) : Except Error Actor :=
  if actor.methods.contains method.name then .error (.duplicateMethod actor.name method.name)
  else .ok { actor with methods := actor.methods.insert method.name method }

def script (actor : Actor) (id : Nat) : Except Error Script :=
  match actor.scripts.find? (·.id == id) with
  | some script => .ok script
  | none => .error (.scriptNotFound id)

def method (actor : Actor) (name : String) : Except Error Method :=
  match actor.methods.get? name with
  | some method => .ok method
  | none => .error (.methodNotFound actor.name name)

/-- The control flows of the actor's scripts and methods, each with words for its owner. -/
def flows (actor : Actor) : List (String × ControlFlow) :=
  actor.scripts.map (fun script => (actor.name ++ " script " ++ toString script.id, script.flow))
    ++ actor.methods.values.map fun method => (actor.name ++ " method " ++ method.name, method.flow)

end Actor

end EventCheck
