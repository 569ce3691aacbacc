import EventCheck.Program.Task

/-!
Threads of control: each runs a script from one of its entries.
-/

namespace EventCheck

/-- What a thread is doing. -/
inductive Status where
  | unknown
  | running
  /-- Inside a method that does not give way. -/
  | runningAtomic
  /-- Waiting for its event or for other threads. -/
  | wait
  | done
  /-- Ready to run when its turn comes. -/
  | yield
  /-- Stopped after reporting a violation. -/
  | failure
deriving DecidableEq, Repr, Inhabited

namespace Status

/-- A small number for use in keys. -/
def code : Status → Nat
  | unknown => 0
  | running => 1
  | runningAtomic => 2
  | wait => 3
  | done => 4
  | yield => 5
  | failure => 6

def text : Status → String
  | unknown => "UNKNOWN"
  | running => "RUNNING"
  | runningAtomic => "RUNNING_ATOMIC"
  | wait => "WAIT"
  | done => "DONE"
  | yield => "YIELD"
  | failure => "FAILURE"

/-- The name in documents. -/
def name : Status → String
  | unknown => "Unknown"
  | running => "Running"
  | runningAtomic => "RunningAtomic"
  | wait => "Wait"
  | done => "Done"
  | yield => "Yield"
  | failure => "Failure"

def all : List Status := [unknown, running, runningAtomic, wait, done, yield, failure]

def isRunning : Status → Bool
  | running | runningAtomic => true
  | _ => false

/-- Running or ready to run. -/
def isActive (s : Status) : Bool := s.isRunning || s == yield

/-- Stopped until started over, if ever. -/
def isFinished : Status → Bool
  | done | failure => true
  | _ => false

end Status

/-- A method that a thread is in. -/
structure Call where
  callFrom : Location
  returnTo : Location
  actor : String
  method : String
  /-- The variable for the result. -/
  result : Option Variable
  atomic : Bool
deriving DecidableEq, Inhabited

/-- The control state of a script that runs, or may. -/
structure Thread where
  id : Nat
  actor : String
  script : Nat
  entry : Location
  isObserver : Bool
  location : Location := entry
  status : Status
  /-- The threads whose end it waits for. -/
  waitingFor : SortedSet Nat := ∅
  /-- The properties that it has reported as violated. -/
  failedFor : SortedSet Property := ∅
  /-- The methods that it is in, the innermost one first. -/
  calls : List Call := []
  /-- The scopes that it is in, the innermost one first and its actor last. -/
  scopes : List String := [actor]
deriving DecidableEq, Inhabited

namespace Thread

def text (t : Thread) : String :=
  "T" ++ toString t.id ++ "(" ++ t.actor ++ " script " ++ toString t.script ++ " @ "
    ++ toString t.location ++ ", " ++ t.status.text ++ ")"

/-- Enters a method. -/
def pushCall (t : Thread) (call : Call) : Thread :=
  { t with calls := call :: t.calls, scopes := (call.actor ++ "." ++ call.method) :: t.scopes }

/-- Leaves the innermost method. -/
def popCall (t : Thread) : Thread :=
  match t.calls with
  | [] => t
  | _ :: calls => { t with calls, scopes := t.scopes.drop 1 }

/-- Running, ready to run, or waiting for threads that it started. -/
def isInProgress (t : Thread) : Bool :=
  t.status.isActive || (t.status == .wait && !t.waitingFor.isEmpty)

def inAtomicCall (t : Thread) : Bool := t.calls.any (·.atomic)

/-- Reports violations and stops. -/
def fail (t : Thread) (properties : SortedSet Property) : Thread :=
  { t with failedFor := t.failedFor ∪ properties, status := .failure }

/-- Waits for the end of other threads. -/
def waitFor (t : Thread) (threads : SortedSet Nat) : Thread :=
  { t with waitingFor := threads, status := .wait }

/-- Stops waiting for threads that are finished; with none left the thread is ready again. -/
def release (finished : SortedSet Nat) (t : Thread) : Thread :=
  if t.status ≠ .wait ∨ t.waitingFor.isEmpty then t
  else
    let left := t.waitingFor.filter fun id => !finished.contains id
    if left.isEmpty then { t with waitingFor := ∅, status := .yield }
    else { t with waitingFor := left }

/-- Starts the script over. -/
def restart (t : Thread) : Thread :=
  { t with
    location := t.entry
    status := .yield
    waitingFor := ∅
    calls := []
    scopes := [t.actor] }

end Thread

end EventCheck
