import EventCheck.Analysis.Basic

/-!
Counts of what an analysis is asked for. Merges, coverage checks and widenings count when they
are asked for, successors once they are computed.
-/

namespace EventCheck

/-- Counts the calls of the analysis and leaves it as it is. -/
def Analysis.withStatistics {σ : Type} (a : Analysis σ) : Analysis σ :=
  { a with
    successors := fun s => do
      let states ← a.successors s
      Run.count fun c => { c with
        successorComputations := c.successorComputations + 1
        statesComputed := c.statesComputed + states.length }
      return states
    merge := fun s t => do
      Run.count fun c => { c with merges := c.merges + 1 }
      a.merge s t
    stop := fun s reached => do
      Run.count fun c => { c with stopChecks := c.stopChecks + 1 }
      let covered ← a.stop s reached
      if covered then Run.count fun c => { c with statesCovered := c.statesCovered + 1 }
      return covered
    widen := fun s reached => do
      Run.count fun c => { c with widenings := c.widenings + 1 }
      a.widen s reached }

end EventCheck
