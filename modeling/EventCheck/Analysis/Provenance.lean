import EventCheck.Analysis.Basic

/-!
Provenance: every state has a number of its own and remembers the numbers of the states that it
was computed from and merged from.
-/

namespace EventCheck

/-- Where the state came from, around a state of the analysis inside. -/
structure ProvenanceState (σ : Type) where
  provenance : Provenance
  inner : σ
deriving DecidableEq

namespace ProvenanceState

variable {σ : Type}

/-- A state with a new number, merged from itself and the given states. -/
def fresh (predecessors mergeOf : SortedSet Nat) (inner : σ) : Run (ProvenanceState σ) := do
  let id ← Run.newState
  return { provenance := { id, predecessors, mergeOf := mergeOf.insert id }, inner }

/-- A new state with the predecessors of both states, merged from both. -/
def combined (s t : ProvenanceState σ) (inner : σ) : Run (ProvenanceState σ) :=
  fresh (s.provenance.predecessors ∪ t.provenance.predecessors)
    (s.provenance.mergeOf ∪ t.provenance.mergeOf) inner

end ProvenanceState

open ProvenanceState in
/-- Records where each state comes from. A merge that changes nothing keeps the second state. -/
def Analysis.withProvenance {σ : Type} [DecidableEq σ] (a : Analysis σ) :
    Analysis (ProvenanceState σ) where
  initial := do (← a.initial).mapM (fresh ∅ ∅)
  successors s := do (← a.successors s.inner).mapM (fresh (.singleton s.provenance.id) ∅)
  join s t := do combined s t (← a.join s.inner t.inner)
  shouldMerge s t := a.shouldMerge s.inner t.inner
  merge s t := do
    let inner ← a.merge s.inner t.inner
    if inner = t.inner then return t else combined s t inner
  stop s reached := a.stop s.inner (reached.map (·.inner))
  widen s reached := do
    return { s with inner := ← a.widen s.inner (reached.map (·.inner)) }
  target s := a.target s.inner
  partitionKey s := a.partitionKey s.inner
  formula s := a.formula s.inner
  resetPath s := do return { s with inner := ← a.resetPath s.inner }
  isLoopHead s := a.isLoopHead s.inner
  instantiate s := a.instantiate s.inner
  label s := a.label s.inner
  values s := a.values s.inner
  provenance s := some s.provenance

end EventCheck
