import EventCheck.Analysis.Basic
import EventCheck.Lattice.Predicates

/-!
Predicate abstraction over blocks of the program. At an abstraction point the formula of the
block that ends there is abstracted, together with the summary that the block was entered with,
over the predicates of the state; then the analysis inside forgets its data, so the next block
starts from the summary alone. The conjunction of all finished blocks is kept as the path, which
tells whether a violation can be reached.
-/

namespace EventCheck

/-- Where summaries are computed. -/
inductive AbstractionPoints where
  | always
  | loopHeads
deriving DecidableEq, Repr, Inhabited

/-- The summary of all before the current block, around a state of the analysis inside. -/
structure AbstractionState (σ : Type) where
  summary : Formula := .top
  /-- The formulas of all finished blocks. -/
  path : Formula := .top
  inner : σ
  /-- The key of the abstraction point that the block started at. -/
  blockId : PartitionKey
  /-- The predicates of summaries, without versions. -/
  precision : Precision := ∅
deriving DecidableEq

/-- The formula without versions, so that summaries of different blocks compare. -/
def Formula.stripVersions (f : Formula) : Except Error Formula :=
  ofExpression (f.toExpression.rename Variable.base)

namespace Abstraction

variable {σ : Type}

def isPoint (a : Analysis σ) (points : AbstractionPoints) (s : AbstractionState σ) : Bool :=
  match points with
  | .always => true
  | .loopHeads => a.isLoopHead s.inner

/-- Below a false summary there is nothing. -/
def successors (a : Analysis σ) (s : AbstractionState σ) : Run (List (AbstractionState σ)) := do
  if s.summary.isFalse then return []
  return (← a.successors s.inner).map fun inner => { s with inner }

/-- States merge within a block that they entered with one summary; the analysis inside decides
about the data of the block. -/
def shouldMerge (a : Analysis σ) (s t : AbstractionState σ) : Except Error Bool :=
  if s.blockId = t.blockId ∧ s.precision = t.precision ∧ s.summary = t.summary
      ∧ a.partitionKey s.inner = a.partitionKey t.inner then
    a.shouldMerge s.inner t.inner
  else .ok false

/-- A merge that changes neither the summary nor the inner state keeps the second state. -/
def merge [DecidableEq σ] (a : Analysis σ) (s t : AbstractionState σ) :
    Run (AbstractionState σ) := do
  let summary := s.summary.disjunction t.summary
  let path := s.path.disjunction t.path
  let inner ← a.merge s.inner t.inner
  if summary = t.summary ∧ inner = t.inner then return t
  else return { t with summary, path, inner }

/-- Looks for a reached state of the same block whose summary includes the given one and whose
inner state covers. -/
def coveredIn (domain : PredicateDomain) (a : Analysis σ) (s : AbstractionState σ)
    (summary : Formula) : List (AbstractionState σ) → Run Bool
  | [] => return false
  | r :: rest => do
    if r.blockId ≠ s.blockId then coveredIn domain a s summary rest
    else
      let other ← .ofExcept r.summary.stripVersions
      if ← .ofExcept (domain.included summary other) then
        if ← a.stop s.inner [r.inner] then return true
        else coveredIn domain a s summary rest
      else coveredIn domain a s summary rest

/-- States with a false summary are unreachable, so they are covered whatever is reached. -/
def stop (domain : PredicateDomain) (a : Analysis σ) (s : AbstractionState σ)
    (reached : List (AbstractionState σ)) : Run Bool := do
  if s.summary.isFalse then return true
  coveredIn domain a s (← .ofExcept s.summary.stripVersions) reached

/-- Summarises the block that ends at an abstraction point. -/
def summarize (domain : PredicateDomain) (a : Analysis σ) (points : AbstractionPoints)
    (s : AbstractionState σ) : Except Error (AbstractionState σ) :=
  if !isPoint a points s then .ok s
  else do
    let block ← a.formula s.inner
    let predicates := .ofList (s.precision.toList.map (a.instantiate s.inner))
    let summary ← domain.widen (s.summary.conjunction block) predicates
    let inner ← a.resetPath s.inner
    return { s with summary, path := s.path.conjunction block, inner,
                    blockId := a.partitionKey inner }

end Abstraction

/-- The same state with other predicates. -/
def AbstractionState.withPrecision {σ : Type} (s : AbstractionState σ) (precision : Precision) :
    AbstractionState σ := { s with precision }

open Abstraction in
/-- Abstracts the blocks of an analysis over predicates. -/
def Analysis.withAbstraction {σ : Type} [DecidableEq σ] (a : Analysis σ)
    (domain : PredicateDomain) (points : AbstractionPoints) : Analysis (AbstractionState σ) where
  initial := do
    return (← a.initial).map fun inner => { inner, blockId := a.partitionKey inner }
  successors := Abstraction.successors a
  join s t := do
    return { summary := s.summary.disjunction t.summary, path := s.path.disjunction t.path,
             inner := ← a.join s.inner t.inner, blockId := t.blockId,
             precision := s.precision ∪ t.precision }
  shouldMerge := Abstraction.shouldMerge a
  merge := Abstraction.merge a
  stop := Abstraction.stop domain a
  widen s _ := .ofExcept (summarize domain a points s)
  target s := if s.summary.isFalse then ∅ else a.target s.inner
  partitionKey s := a.partitionKey s.inner
  formula s := do return (s.path.conjunction s.summary).conjunction (← a.formula s.inner)
  resetPath s := .ok s
  isLoopHead s := a.isLoopHead s.inner
  instantiate s := a.instantiate s.inner
  label s := a.label s.inner
  values s := a.values s.inner
  provenance s := a.provenance s.inner

end EventCheck
