import EventCheck.Analysis.Control
import EventCheck.Analysis.KnownValues
import EventCheck.Analysis.Provenance
import EventCheck.Analysis.SingleAssignment
import EventCheck.Analysis.Statistics
import EventCheck.Analysis.StepLabel
import EventCheck.Analysis.SymbolicMemory
import EventCheck.Search.Config
import EventCheck.Solver.Enumeration
import EventCheck.Solver.External

/-!
Verification of a task: the standard stack of analyses for a configuration, and the search
through its states.
-/

namespace EventCheck

/-- The solver of a configuration; `run` starts the external one. -/
def SolverOptions.solver (options : SolverOptions) (run : String → Option String) : Solver :=
  match options.kind with
  | .enumeration => .enumeration options.integerRange
  | .z3 => .external run

namespace Verification

variable {σ : Type} [DecidableEq σ]

/-- The states of the standard stack around an analysis of the data. -/
abbrev State (σ : Type) := AbstractionState (ProvenanceState (ControlState (LabelState (SsaState σ))))

/-- The standard stack without its counts. -/
def stack (config : Config) (solver : Solver) (task : Task) (data : LabeledAnalysis σ) :
    Except Error (Analysis (State σ)) := do
  let control ← data.withVersions.withLabels.withControl task config.control
  let abstraction ← AbstractionType.ofName config.abstraction.abstractionType
  return control.withProvenance.withAbstraction { solver, abstraction }
    config.abstraction.abstractionPoints

/-- Searches through the states of the standard stack. -/
def run (config : Config) (solver : Solver) (task : Task) (expansions : Nat)
    (data : LabeledAnalysis σ) : Run (Option SearchOutcome) := do
  let abstraction ← .ofExcept (stack config solver task data)
  let refiner := Refiner.abstraction abstraction solver
  abstraction.withStatistics.reachability
    { feasibility := refiner.feasibility, refine := refiner.refine } task config.reachability
    expansions

/-- The search with the analysis of the data that the configuration names. -/
def runConfigured (config : Config) (solver : Solver) (task : Task) (expansions : Nat) :
    Run (Option SearchOutcome) := do
  let operator ← .ofExcept (MergeOperator.ofName config.data.mergeOperator)
  match config.data.domain with
  | .symbolic => run config solver task expansions (symbolicMemory operator)
  | .value => run config solver task expansions (knownValues operator)

/-- The result of a search that ended in a context. -/
def resultOf (outcome : SearchOutcome) (context : Context) : AnalysisResult where
  verdict := outcome.verdict
  caveats := context.caveats
  statistics := { context.statistics with
    refinements := outcome.refinements
    reachedStates := outcome.reachedStates }

end Verification

open Verification in
/-- Verifies a task with at most the given number of expansions; if they do not suffice, there is
no result. A run that comes to a feature that is not modelled ends inconclusive. -/
def verify (task : Task) (config : Config) (runSolver : String → Option String)
    (expansions : Nat) : Except Error (Option AnalysisResult) :=
  let solver := config.solver.solver runSolver
  match (runConfigured config solver task expansions).run.run {} with
  | (.ok outcome, context) => .ok (outcome.map (resultOf · context))
  | (.error error, context) =>
    if error.kind = .unimplemented then
      .ok (some { verdict := .inconclusive error.message, caveats := context.caveats })
    else .error error

end EventCheck
