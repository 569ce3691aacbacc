import EventCheck.Analysis.Context
import EventCheck.Lattice.Formula
import EventCheck.Program.Task

/-!
What an analysis offers to the search. Analyses are stacked: one works on the data of the
program, and each of the others wraps a single analysis, adds one concern to it and hands on
all else. Below the scheduler an analysis follows single operations.
-/

namespace EventCheck

/-- Only states with equal keys are compared. -/
abbrev PartitionKey := List Nat

def PartitionKey.text (key : PartitionKey) : String :=
  "[" ++ ", ".intercalate (key.map toString) ++ "]"

/-- Where a state came from. -/
structure Provenance where
  id : Nat
  predecessors : SortedSet Nat := ∅
  /-- The states that it was merged from, itself among them. -/
  mergeOf : SortedSet Nat := ∅
deriving DecidableEq, Inhabited

/-- An operation that a step applied. -/
structure Transfer where
  thread : Nat
  /-- The operation of the task, unless the scheduler made it up. -/
  operation : Option Nat
  statement : Statement
  /-- The step that it belongs to. -/
  bigStep : Nat
deriving DecidableEq, Inhabited

/-- An operation handed from the scheduler to the analyses below it. -/
structure LabeledOperation extends Transfer where
  /-- Whether it is the first one of its step. -/
  stepStart : Bool := false
deriving DecidableEq, Inhabited

/-- An operation that no thread executes. -/
def LabeledOperation.synthesized (statement : Statement) : LabeledOperation :=
  { thread := 0, operation := none, statement, bigStep := 0 }

/-- An analysis as the search sees it. -/
structure Analysis (σ : Type) where
  initial : Run (List σ)
  successors : σ → Run (List σ)
  join : σ → σ → Run σ
  shouldMerge : σ → σ → Except Error Bool
  /-- Merges the first state into the second one. -/
  merge : σ → σ → Run σ
  /-- Whether the state is covered by one of the reached states. -/
  stop : σ → List σ → Run Bool
  widen : σ → List σ → Run σ
  /-- The properties that the state violates. -/
  target : σ → SortedSet Property
  partitionKey : σ → PartitionKey
  /-- A formula that all environments of the state satisfy. -/
  formula : σ → Except Error Formula
  /-- Forgets what is known of the data. -/
  resetPath : σ → Except Error σ
  /-- Whether a thread is at a loop head. -/
  isLoopHead : σ → Bool
  /-- A predicate over the variables as they are in the state. -/
  instantiate : σ → Expression → Expression
  /-- The operations of the step that led to the state. -/
  label : σ → List Transfer
  /-- The known values of the program's variables. -/
  values : σ → Model
  provenance : σ → Option Provenance

/-- An analysis below the scheduler: it follows operations, knows nothing of threads and needs
no context. -/
structure LabeledAnalysis (σ : Type) where
  initial : List σ
  step : σ → LabeledOperation → Except Error (List σ)
  /-- Steps without an operation, which no such analysis takes. -/
  successors : σ → Except Error (List σ)
  join : σ → σ → Except Error σ
  shouldMerge : σ → σ → Bool
  merge : σ → σ → Except Error σ
  stop : σ → List σ → Except Error Bool
  formula : σ → Except Error Formula
  resetPath : σ → σ
  instantiate : σ → Expression → Expression
  label : σ → List Transfer
  values : σ → Model

/-- An analysis below the scheduler, seen by itself. -/
def LabeledAnalysis.toAnalysis {σ : Type} (a : LabeledAnalysis σ) : Analysis σ where
  initial := pure a.initial
  successors s := .ofExcept (a.successors s)
  join s t := .ofExcept (a.join s t)
  shouldMerge s t := .ok (a.shouldMerge s t)
  merge s t := .ofExcept (a.merge s t)
  stop s reached := .ofExcept (a.stop s reached)
  widen s _ := pure s
  target _ := ∅
  partitionKey _ := []
  formula := a.formula
  resetPath s := .ok (a.resetPath s)
  isLoopHead _ := false
  instantiate := a.instantiate
  label := a.label
  values := a.values
  provenance _ := none

end EventCheck
