import EventCheck.Analysis.Basic

/-!
Step labels: each state records the operations of the step that led to it.
-/

namespace EventCheck

/-- The operations of the last step, around a state of the analysis inside. -/
structure LabelState (σ : Type) where
  transfers : List Transfer := []
  inner : σ
deriving DecidableEq

namespace StepLabel

/-- The transfers of the second list, then those of the first one that it lacks. -/
def union (first second : List Transfer) : List Transfer :=
  first.foldl (fun transfers transfer =>
    if transfers.contains transfer then transfers else transfers ++ [transfer]) second

/-- Follows an operation and records it, after forgetting those of an earlier step. -/
def step {σ : Type} (a : LabeledAnalysis σ) (s : LabelState σ) (operation : LabeledOperation) :
    Except Error (List (LabelState σ)) := do
  let transfers := (if operation.stepStart then [] else s.transfers) ++ [operation.toTransfer]
  return (← a.step s.inner operation).map fun inner => { transfers, inner }

end StepLabel

/-- Records the operations that the analysis follows. -/
def LabeledAnalysis.withLabels {σ : Type} (a : LabeledAnalysis σ) :
    LabeledAnalysis (LabelState σ) where
  initial := a.initial.map fun inner => { inner }
  step := StepLabel.step a
  successors s := do return (← a.successors s.inner).map fun inner => { s with inner }
  join s t := do
    return { transfers := StepLabel.union s.transfers t.transfers, inner := ← a.join s.inner t.inner }
  shouldMerge s t := a.shouldMerge s.inner t.inner
  merge s t := do
    return { transfers := StepLabel.union s.transfers t.transfers, inner := ← a.merge s.inner t.inner }
  stop s reached := a.stop s.inner (reached.map (·.inner))
  formula s := a.formula s.inner
  resetPath s := { s with inner := a.resetPath s.inner }
  instantiate s := a.instantiate s.inner
  label s := s.transfers
  values s := a.values s.inner

end EventCheck
