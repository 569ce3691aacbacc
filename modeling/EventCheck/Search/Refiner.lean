import EventCheck.Analysis.Abstraction
import EventCheck.Search.Accessibility
import EventCheck.Search.Merge

/-!
What to do about a violation that the search has reached: check whether it is feasible in the
program, and if not, make the analysis precise enough to leave it out.
-/

namespace EventCheck

/-- Whether a path to a reached state is possible in the program. -/
inductive Feasibility where
  /-- It is, with these values of the versioned variables. -/
  | feasible (model : Model)
  /-- The state was only reached for lack of precision. -/
  | infeasible
  | inconclusive (reason : String)
deriving DecidableEq

/-- A way to check violations and to refine. -/
structure Refiner {σ : Type} (key : σ → PartitionKey) where
  feasibility : Reached key → Accessibility → σ → Except Error Feasibility
  /-- Whether there is progress to be made, and what becomes of the sets. If there is, the search
  starts over with them; if not, it ends with them. -/
  refine : SearchSets key → σ → Except Error (Bool × SearchSets key)

namespace Feasibility

/-- Asks the solver about a formula of the path. -/
def ofFormula (solver : Solver) (f : Formula) : Feasibility :=
  match solver.check f with
  | .sat => .feasible ((solver.model f).getD ∅)
  | .unsat => .infeasible
  | .unknown => .inconclusive "solver could not decide path feasibility"

end Feasibility

namespace Refiner

variable {σ : Type}

/-- Checks the formula that the analysis keeps of the path. There is nothing to refine. -/
def data (a : Analysis σ) (solver : Solver) : Refiner a.partitionKey where
  feasibility _ _ s := do return .ofFormula solver (← a.formula s)
  refine _ _ := .error .noPrecision

/-- The atoms of a formula that speak of variables, without versions. -/
def predicatesOf (f : Formula) : Precision :=
  .ofList <| (f.atoms.toList.filter fun atom => !atom.variables.isEmpty).map
    fun atom => atom.rename Variable.base

/-- The reached states that were computed from no other one. -/
def initialStates (a : Analysis σ) : List σ → Except Error (List σ)
  | [] => .ok []
  | s :: rest =>
    match a.provenance s with
    | none => .error .refinementWithoutProvenance
    | some provenance => do
      let others ← initialStates a rest
      return if provenance.predecessors.isEmpty then s :: others else others

variable [DecidableEq σ]

/-- Adds the predicates of an infeasible path and starts over from the initial states with
them. Without new predicates the sets stay as they are. -/
def refinePrecision (a : Analysis (AbstractionState σ)) (sets : SearchSets a.partitionKey)
    (s : AbstractionState σ) : Except Error (Bool × SearchSets a.partitionKey) := do
  let found := (predicatesOf (← a.formula s)).filter (!s.precision.contains ·)
  if found.isEmpty then return (false, sets)
  match ← initialStates a sets.reached.toList with
  | [] => throw .noInitialState
  | states =>
    let precision := s.precision ∪ found
    return (true,
      states.foldl (fun sets state => sets.insert (state.withPrecision precision)) {})

/-- Refines the predicates of an abstraction with the atoms of infeasible paths. -/
def abstraction (a : Analysis (AbstractionState σ)) (solver : Solver) :
    Refiner a.partitionKey where
  feasibility _ _ s := do return .ofFormula solver (← a.formula s)
  refine := refinePrecision a

end Refiner

end EventCheck
