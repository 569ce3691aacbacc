import EventCheck.Control.Options
import EventCheck.Control.Settled

/-!
Who runs next, and what a step does to the threads. While an observer can move no thread of the
program does. Of the program's threads one runs at a time, in turn; it gives way after each step
unless it is inside an atomic method.
-/

namespace EventCheck

/-- Whether the thread is one of the program that runs. -/
def Thread.runsProgram (t : Thread) : Bool := !t.isObserver && t.status.isRunning

/-- Whether the thread is one of the program that waits for its turn. -/
def Thread.isReady (t : Thread) : Bool := !t.isObserver && t.status == .yield

namespace Task

/-! ### Choosing a thread -/

/-- The first observer that can move. -/
def chooseObserverFrom (task : Task) : List (Thread × Nat) → Except Error (Option Nat)
  | [] => .ok none
  | (t, index) :: rest =>
    if t.isObserver && t.status.isActive then do
      if ← task.hasLeaving t then return some index else task.chooseObserverFrom rest
    else task.chooseObserverFrom rest

/-- Observers step before any thread of the program, in the order of the task. -/
def chooseObserver (task : Task) (threads : List Thread) : Except Error (Option Nat) :=
  task.chooseObserverFrom threads.zipIdx

/-- The running thread of the program. -/
def chooseThread (task : Task) (threads : List Thread) : Except Error (Option Nat) :=
  match threads.zipIdx.filter (·.1.runsProgram) with
  | [] => .ok none
  | [(t, index)] => do
    if ← task.hasLeaving t then return some index else throw (.stuckThread t.text)
  | running => .error (.runningAtOnce running.length)

/-- The thread that steps next: an observer if one can, or else the running thread. -/
def chooseStepping (task : Task) (threads : List Thread) : Except Error (Option Nat) := do
  match ← task.chooseObserver threads with
  | some index => return some index
  | none => task.chooseThread threads

/-! ### Scheduling -/

/-- The indices of `count` threads in turn, those after `index` first and `index` last. -/
def turns (index count : Nat) : List Nat := (List.range count).map fun k => (index + k + 1) % count

/-- The ready thread whose turn it is. One inside an atomic method goes first. -/
def nextReady (threads : List Thread) (index : Nat) : Option Nat :=
  let order := turns index threads.length
  let atomic := order.find? fun i => threads[i]?.any fun t => t.isReady && t.inAtomicCall
  atomic <|> order.find? fun i => threads[i]?.any (·.isReady)

/-- Lets a ready thread run, atomically if it is inside an atomic method. -/
def startThread (t : Thread) : Thread :=
  { t with status := if t.inAtomicCall then .runningAtomic else .running }

/-- Lets the next ready thread of the program run, unless one is running. -/
def schedule (threads : List Thread) (index : Nat) : List Thread :=
  if threads.any (·.runsProgram) then threads
  else
    match nextReady threads index with
    | some next => threads.modify next startThread
    | none => threads

/-- Refuses a running thread that cannot move. -/
def checkMoves (task : Task) : List Thread → Except Error Unit
  | [] => .ok ()
  | t :: rest =>
    if t.status.isRunning then do
      if ← task.hasLeaving t then task.checkMoves rest else throw (.stuckThread t.text)
    else task.checkMoves rest

/-- At most one thread of the program runs, and every running thread can move. -/
def checkSchedule (task : Task) (threads : List Thread) : Except Error Unit :=
  let running := threads.countP (·.runsProgram)
  if running > 1 then .error (.runningAtOnce running) else task.checkMoves threads

/-! ### Effects of a step -/

/-- The message of a broadcast, which has to be a text. -/
def messageOf : Expression → Except Error String
  | .const (.str message) => .ok message
  | e => .error (.computedMessage e)

/-- Whether a message starts the thread's script over. A thread that has failed stays so, and one
in progress may only start over if its script allows it. -/
def isEligible (script : Script) (message : String) (t : Thread) : Bool :=
  script.isTriggeredBy message && t.status != .failure
    && !(t.isInProgress && !script.restartOnTrigger)

/-- Starts over the threads other than the sender that the message starts; also gives their
numbers. -/
def trigger (task : Task) (sender : Nat) (message : String) :
    List (Thread × Nat) → Except Error (List Thread × SortedSet Nat)
  | [] => .ok ([], ∅)
  | (t, index) :: rest =>
    if index = sender then do
      let (threads, started) ← task.trigger sender message rest
      return (t :: threads, started)
    else do
      let script ← task.scriptOf t
      let (threads, started) ← task.trigger sender message rest
      return if isEligible script message t then (t.restart :: threads, started.insert t.id)
        else (t :: threads, started)

/-- The effect of a statement on the threads. A sender that waits does so only for threads that
its message has started. -/
def applyEffect (task : Task) (policy : WaitPolicy) (threads : List Thread) (index : Nat)
    (effect : Statement) : Except Error (List Thread) :=
  match effect with
  | .signalFailure properties => .ok (threads.modify index (·.fail properties))
  | .broadcast message => do
    return (← task.trigger index (← messageOf message) threads.zipIdx).1
  | .broadcastAndWait message => do
    let (threads, started) ← task.trigger index (← messageOf message) threads.zipIdx
    return if started.isEmpty then threads else threads.modify index (·.waitFor started)
  | .waitUntil _ | .waitSecs _ =>
    match policy with
    | .approximate => .ok threads
    | .reject => .error (.rejectedWait effect)
  | _ => .ok threads

/-- Moves a thread along a step, into or out of a method. -/
def move (step : Step) (t : Thread) : Thread :=
  let moved := { t with location := step.target }
  match step.kind with
  | .plain | .finish => moved
  | .call call =>
    let inside := moved.pushCall call
    if call.atomic then { inside with status := .runningAtomic } else inside
  | .return =>
    let outside := moved.popCall
    if outside.status = .runningAtomic ∧ !outside.inAtomicCall then
      { outside with status := .running }
    else outside

/-- The status of a thread after its step: one that has nothing left to do is done, and one that
may be interrupted gives way. -/
def statusAfter (task : Task) (step : Step) (t : Thread) : Except Error Status :=
  match t.status with
  | .failure => .ok .failure
  | .wait => .ok .wait
  | status => do
    if step.kind = .finish then return .done
    if !(← task.hasLeaving t) then return .done
    return if status = .runningAtomic then .runningAtomic
      else if t.isObserver then .running else .yield

/-- Starts an observer of all statements over once it is done. -/
def restartObserver (task : Task) (t : Thread) : Except Error Thread :=
  if t.isObserver && t.status == .done then do
    return if (← task.scriptOf t).event = .afterStatement then t.restart else t
  else .ok t

/-- The threads after the step of one of them, with the next one running. -/
def applyStep (task : Task) (policy : WaitPolicy) (threads : List Thread) (index : Nat)
    (step : Step) : Except Error (List Thread) := do
  let threads ← task.applyEffect policy (threads.modify index (move step)) index step.effect
  match threads[index]? with
  | none => return threads
  | some stepped =>
    let status ← task.statusAfter step stepped
    let threads := threads.set index { stepped with status }
    let threads ←
      if stepped.isObserver then pure threads else mapThreads task.restartObserver threads
    let threads := schedule (← task.settle threads) index
    task.checkSchedule threads
    return threads

/-! ### Start -/

/-- How a script's thread starts. Scripts other than those of the start, and observers of
statements, wait for their event. -/
def initialStatus (actor : Actor) (script : Script) : Status :=
  match script.event with
  | .bootstrap => .yield
  | .afterStatement => if actor.isObserver then .yield else .wait
  | _ => .wait

/-- One thread for each entry of each script, in the order of the task, numbered from `first`. -/
def newThreads (task : Task) (first : Nat) : List Thread :=
  let entries := task.actors.flatMap fun actor => actor.scripts.flatMap fun script =>
    script.flow.entries.toList.map fun entry => (actor, script, entry)
  entries.zipIdx.map fun ((actor, script, entry), index) =>
    { id := first + index, actor := actor.name, script := script.id, entry,
      isObserver := actor.isObserver, status := initialStatus actor script }

/-- The threads at the start, with the first ready one running. -/
def startThreads (task : Task) (threads : List Thread) : Except Error (List Thread) := do
  let threads := schedule (← task.settle threads) (threads.length - 1)
  task.checkSchedule threads
  return threads

end Task

end EventCheck
