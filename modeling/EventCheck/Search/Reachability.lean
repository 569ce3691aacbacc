import EventCheck.Search.Refiner
import EventCheck.Search.Verdict

/-!
The search for violations. States are expanded in the order of their arrival. Each successor is
widened, merged into the reached states of its partition, and admitted unless it is covered. An
admitted violation that is feasible ends the search with a witness; one that is not refines the
analysis and starts the search over.

With an analysis that merges the search need not end, so it is given a number of expansions.
-/

namespace EventCheck

/-- The limits of a search. -/
structure SearchLimits where
  maxStates : Nat := 100000
  maxRefinements : Nat := 16
deriving DecidableEq, Repr, Inhabited

/-- A search under way. -/
structure SearchState {σ : Type} (key : σ → PartitionKey) extends SearchSets key where
  refinements : Nat := 0
  /-- Why the first violation that could not be decided was not. -/
  undecided : Option String := none

/-- How a search goes on. -/
inductive SearchStep {σ : Type} (key : σ → PartitionKey) where
  /-- With the next successor of the state being expanded. -/
  | next (search : SearchState key)
  /-- From the beginning. -/
  | restart (search : SearchState key)
  | finished (outcome : SearchOutcome)

namespace SearchState

variable {σ : Type} {key : σ → PartitionKey}

/-- The outcome of a search that ends now. -/
def finish (search : SearchState key) (verdict : Verdict) : SearchOutcome where
  verdict
  refinements := search.refinements
  reachedStates := search.reached.size

/-- The verdict once no state is left to expand. -/
def exhausted (search : SearchState key) : SearchOutcome :=
  search.finish <|
    match search.undecided with
    | some reason => .inconclusive reason
    | none => .safe

end SearchState

namespace Analysis

variable {σ : Type} [DecidableEq σ]

/-- The relation between the reached states. -/
def accessibility (a : Analysis σ) (reached : Reached a.partitionKey) :
    Except Error Accessibility :=
  Accessibility.ofProvenances (reached.toList.filterMap a.provenance)

/-- Starts over after an infeasible violation. -/
def refineFor (a : Analysis σ) (refiner : Refiner a.partitionKey) (limits : SearchLimits)
    (search : SearchState a.partitionKey) (s : σ) :
    Except Error (SearchStep a.partitionKey) := do
  if limits.maxRefinements ≤ search.refinements then
    return .finished (search.finish (.inconclusive "refinement budget exhausted"))
  let (progress, sets) ← refiner.refine search.toSearchSets s
  let search := { search with refinements := search.refinements + 1, toSearchSets := sets }
  if progress then return .restart search
  else return .finished (search.finish (.inconclusive "refinement found no new predicates"))

/-- Decides about a violation that has just been admitted. -/
def judge (a : Analysis σ) (refiner : Refiner a.partitionKey) (task : Task)
    (limits : SearchLimits) (search : SearchState a.partitionKey) (s : σ) :
    Except Error (SearchStep a.partitionKey) := do
  let accessibility ← a.accessibility search.reached
  match ← refiner.feasibility search.reached accessibility s with
  | .feasible model =>
    let properties := a.target s
    let witness ←
      ErrorWitness.build a task search.reached.toList accessibility s properties model
    return .finished (search.finish (.violated properties witness))
  | .infeasible => a.refineFor refiner limits search s
  | .inconclusive reason =>
    return .next { search with undecided := search.undecided <|> some reason }

/-- Widens and merges a successor, and admits it unless it is covered. -/
def consider (a : Analysis σ) (refiner : Refiner a.partitionKey) (task : Task)
    (limits : SearchLimits) (search : SearchState a.partitionKey) (successor : σ) :
    Run (SearchStep a.partitionKey) := do
  if limits.maxStates ≤ search.reached.size then
    return .finished (search.finish (.inconclusive "state budget exhausted"))
  let s ← a.widen successor (search.reached.partitionOf successor)
  let sets ← a.mergeInto s search.toSearchSets
  let search := { search with toSearchSets := sets }
  if ← a.stop s (search.reached.partitionOf s) then return .next search
  let search := { search with reached := search.reached.insert s }
  if (a.target s).isEmpty then
    return .next { search with frontier := search.frontier.insert s }
  else .ofExcept (a.judge refiner task limits search s)

/-- Takes the successors of a state one after the other. -/
def considerAll (a : Analysis σ) (refiner : Refiner a.partitionKey) (task : Task)
    (limits : SearchLimits) : SearchState a.partitionKey → List σ →
    Run (SearchStep a.partitionKey)
  | search, [] => return .restart search
  | search, successor :: rest => do
    match ← a.consider refiner task limits search successor with
    | .next search => a.considerAll refiner task limits search rest
    | step => return step

/-- Expands waiting states, at most as many as given. If states are still waiting then, there is
no outcome. -/
def search (a : Analysis σ) (refiner : Refiner a.partitionKey) (task : Task)
    (limits : SearchLimits) : Nat → SearchState a.partitionKey → Run (Option SearchOutcome)
  | expansions, search =>
    match search.frontier.pop?, expansions with
    | none, _ => return some search.exhausted
    | some _, 0 => return none
    | some (s, frontier), expansions + 1 => do
      let search := { search with frontier }
      match ← a.considerAll refiner task limits search (← a.successors s) with
      | .next search | .restart search => a.search refiner task limits expansions search
      | .finished outcome => return some outcome

/-- Searches from the initial states, with at most the given number of expansions. -/
def reachability (a : Analysis σ) (refiner : Refiner a.partitionKey) (task : Task)
    (limits : SearchLimits) (expansions : Nat) : Run (Option SearchOutcome) := do
  let sets := (← a.initial).foldl SearchSets.insert {}
  a.search refiner task limits expansions { sets with }

end Analysis

end EventCheck
