import EventCheck.Sorted.Set
import EventCheck.Error

/-!
What a run of an analysis hands out and collects on the way: numbers for threads, states and
steps, the caveats of its verdict, and counts. All of it survives errors.
-/

namespace EventCheck

/-- A construct that is not analysed exactly; a verdict holds only under it. -/
inductive Caveat where
  | workTimeBudgetIgnored
  | approximateWaitUntil
  | waitSecsIgnored
deriving DecidableEq, Repr, Inhabited

namespace Caveat

def rank : Caveat → Nat
  | workTimeBudgetIgnored => 0
  | approximateWaitUntil => 1
  | waitSecsIgnored => 2

instance : Ord Caveat := ⟨compareOn rank⟩

instance : Std.TransOrd Caveat := inferInstanceAs (Std.TransCmp (compareOn rank))

instance : Std.LawfulEqOrd Caveat where
  compare_self := cmp_self (compareOn rank)
  eq_of_compare {a b} same := by
    have := Std.LawfulEqOrd.eq_of_compare (α := Nat) same
    cases a <;> cases b <;> simp [rank] at this ⊢

def all : List Caveat := [workTimeBudgetIgnored, approximateWaitUntil, waitSecsIgnored]

def name : Caveat → String
  | workTimeBudgetIgnored => "WorkTimeBudgetIgnored"
  | approximateWaitUntil => "ApproximateWaitUntil"
  | waitSecsIgnored => "WaitSecsIgnored"

def text : Caveat → String
  | workTimeBudgetIgnored => "preemption on exhausted work-time budget is not modelled"
  | approximateWaitUntil => "wait until is modelled as a yield"
  | waitSecsIgnored => "wait seconds is modelled as a yield"

end Caveat

/-- How often an analysis was asked for what. -/
structure Statistics where
  successorComputations : Nat := 0
  statesComputed : Nat := 0
  merges : Nat := 0
  stopChecks : Nat := 0
  statesCovered : Nat := 0
  widenings : Nat := 0
  transferTimeMs : Nat := 0
  refinements : Nat := 0
  reachedStates : Nat := 0
deriving DecidableEq, Repr, Inhabited

/-- How many numbers of each kind have been handed out, and what has been collected. -/
structure Context where
  threads : Nat := 0
  states : Nat := 0
  steps : Nat := 0
  caveats : SortedSet Caveat := ∅
  statistics : Statistics := {}
deriving DecidableEq, Inhabited

/-- A computation that may fail and that keeps the context in either case. -/
abbrev Run := ExceptT Error (StateM Context)

namespace Run

/-- A computation that leaves the context alone. -/
def ofExcept {α : Type} : Except Error α → Run α
  | .ok a => pure a
  | .error e => throw e

/-- The next number for a state. -/
def newState : Run Nat :=
  modifyGet fun context => (context.states, { context with states := context.states + 1 })

/-- The next number for a step. -/
def newStep : Run Nat :=
  modifyGet fun context => (context.steps, { context with steps := context.steps + 1 })

/-- The first of `count` new numbers for threads. -/
def newThreads (count : Nat) : Run Nat :=
  modifyGet fun context => (context.threads, { context with threads := context.threads + count })

def report (caveat : Caveat) : Run Unit :=
  modify fun context => { context with caveats := context.caveats.insert caveat }

def count (f : Statistics → Statistics) : Run Unit :=
  modify fun context => { context with statistics := f context.statistics }

end Run

end EventCheck
