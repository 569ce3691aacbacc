import EventCheck.Lattice.Formula

/-!
Solvers answer whether a formula is satisfiable. An answer that cannot be had, for whatever
reason, is `unknown` and never `unsat`.
-/

namespace EventCheck

/-- The answer to whether a formula is satisfiable. -/
inductive SatResult where
  | sat
  | unsat
  | unknown
deriving DecidableEq, Repr, Inhabited

def SatResult.text : SatResult → String
  | sat => "sat"
  | unsat => "unsat"
  | unknown => "unknown"

/-- A decision procedure for formulas. -/
structure Solver where
  check : Formula → SatResult
  /-- A model of the formula, if one is found. -/
  model : Formula → Option Model

namespace Solver

def isUnsat (solver : Solver) (f : Formula) : Bool := solver.check f == .unsat

/-- Whether `unsat` is only answered for formulas that no environment of well-typed values
satisfies. -/
def Sound (solver : Solver) : Prop :=
  ∀ f, solver.check f = .unsat → ∀ lookup : Variable → Option Constant,
    (∀ v c, lookup v = some c → c.dataType = v.dataType) → ¬f.Holds lookup

end Solver

end EventCheck
