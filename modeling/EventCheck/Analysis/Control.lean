import EventCheck.Analysis.Basic
import EventCheck.Control.Scheduler

/-!
The scheduler as an analysis: a successor steps one thread of the program along one transition
and hands each of its operations to the analysis inside.
-/

namespace EventCheck

/-- The threads and the properties they have reported, around a state of the analysis inside. -/
structure ControlState (σ : Type) where
  threads : List Thread
  inner : σ
  targets : SortedSet Property := ∅
deriving DecidableEq

namespace Control

variable {σ : Type}

/-- The properties that some thread has reported as violated. -/
def targetsOf (threads : List Thread) : SortedSet Property := .unionMap threads (·.failedFor)

/-- Hands the operations of a step to the analysis inside, one after the other. -/
def follow (a : LabeledAnalysis σ) (thread bigStep : Nat) :
    Bool → List (Option Nat × Statement) → List σ → Except Error (List σ)
  | _, [], states => .ok states
  | stepStart, (operation, statement) :: rest, states => do
    let next ← states.mapM fun s =>
      a.step s { thread, operation, statement, bigStep, stepStart }
    follow a thread bigStep false rest next.flatten

/-- The caveat under which the effect of a statement is approximate. -/
def caveat? : Statement → Option Caveat
  | .waitUntil _ => some .approximateWaitUntil
  | .waitSecs _ => some .waitSecsIgnored
  | _ => none

/-- Reports that a wait is approximate. -/
def reportWait (policy : WaitPolicy) (effect : Statement) : Run Unit :=
  match policy, caveat? effect with
  | .approximate, some caveat => Run.report caveat
  | _, _ => pure ()

/-- The states after a step of the thread with the given index. -/
def stepSuccessors (task : Task) (policy : WaitPolicy) (a : LabeledAnalysis σ)
    (s : ControlState σ) (index : Nat) (thread : Thread) (bigStep : Nat) (step : Step) :
    Run (List (ControlState σ)) := do
  let inner ← .ofExcept (follow a thread.id bigStep true step.operations [s.inner])
  if inner.isEmpty then return []
  reportWait policy step.effect
  let threads ← .ofExcept (task.applyStep policy s.threads index step)
  return inner.map fun inner => { threads, inner, targets := targetsOf threads }

/-- The states after each step that the chosen thread can take. -/
def successors (task : Task) (policy : WaitPolicy) (a : LabeledAnalysis σ) (s : ControlState σ) :
    Run (List (ControlState σ)) := do
  match ← .ofExcept (task.chooseStepping s.threads) with
  | none => return []
  | some index =>
    match s.threads[index]? with
    | none => return []
    | some thread =>
      let bigStep ← Run.newStep
      let steps ← .ofExcept (task.leavingSteps thread)
      let states ← steps.mapM (stepSuccessors task policy a s index thread bigStep)
      return states.flatten

/-- Threads of the program that share the time are never interrupted. -/
def reportThreads (threads : List Thread) : Run Unit :=
  if 2 ≤ threads.countP (!·.isObserver) then Run.report .workTimeBudgetIgnored else pure ()

/-- New threads at their start. -/
def initialThreads (task : Task) : Run (List Thread) := do
  let first ← Run.newThreads (task.newThreads 0).length
  let threads := task.newThreads first
  reportThreads threads
  .ofExcept (task.startThreads threads)

def initial (task : Task) (a : LabeledAnalysis σ) : Run (List (ControlState σ)) := do
  let threads ← initialThreads task
  return a.initial.map fun inner => { threads, inner, targets := targetsOf threads }

def join (a : LabeledAnalysis σ) (s t : ControlState σ) : Except Error (ControlState σ) :=
  if s.threads ≠ t.threads then .error .differentThreads
  else do
    return { threads := t.threads, inner := ← a.join s.inner t.inner,
             targets := s.targets ∪ t.targets }

/-- States with different threads do not merge. -/
def merge (a : LabeledAnalysis σ) (s t : ControlState σ) : Except Error (ControlState σ) :=
  if s.threads ≠ t.threads then .ok t
  else do
    return { threads := t.threads, inner := ← a.merge s.inner t.inner,
             targets := s.targets ∪ t.targets }

/-- Whether one reached state covers the state: it has the same threads, and its data covers. -/
def coveredBy (a : LabeledAnalysis σ) (s r : ControlState σ) : Except Error Bool :=
  if r.threads = s.threads then a.stop s.inner [r.inner] else .ok false

/-- The location and the status of every thread. -/
def partitionKey (s : ControlState σ) : PartitionKey :=
  s.threads.flatMap fun t => [t.location, t.status.code]

/-- Whether an active thread is at a loop head of the control flow that it is in. -/
def isLoopHead (task : Task) (s : ControlState σ) : Bool :=
  s.threads.any fun t => t.status.isActive &&
    match task.flowOf t with
    | .ok flow => flow.isLoopHead t.location
    | .error _ => false

end Control

open Control in
/-- Schedules the threads of a task around an analysis of their operations. -/
def LabeledAnalysis.scheduled {σ : Type} (a : LabeledAnalysis σ) (task : Task)
    (policy : WaitPolicy) : Analysis (ControlState σ) where
  initial := Control.initial task a
  successors := Control.successors task policy a
  join s t := .ofExcept (Control.join a s t)
  shouldMerge s t := .ok (decide (s.threads = t.threads) && a.shouldMerge s.inner t.inner)
  merge s t := .ofExcept (Control.merge a s t)
  stop s reached := .ofExcept (reached.anyM (coveredBy a s))
  widen s _ := pure s
  target s := s.targets
  partitionKey := Control.partitionKey
  formula s := a.formula s.inner
  resetPath s := .ok { s with inner := a.resetPath s.inner }
  isLoopHead := Control.isLoopHead task
  instantiate s := a.instantiate s.inner
  label s := a.label s.inner
  values s := a.values s.inner
  provenance _ := none

/-- Schedules the threads of a task as the options say. Transitions of atomic methods cannot be
aggregated. -/
def LabeledAnalysis.withControl {σ : Type} (a : LabeledAnalysis σ) (task : Task)
    (options : ControlOptions) : Except Error (Analysis (ControlState σ)) :=
  if options.aggregateAtomicTransitions then .error .aggregation
  else .ok (a.scheduled task options.waitPolicy)

end EventCheck
