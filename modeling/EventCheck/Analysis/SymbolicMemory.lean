import EventCheck.Analysis.Basic
import EventCheck.Analysis.MergeOperator

/-!
Symbolic memory: what is known of the data is the formula of the path. Declarations, assignments
and assumptions of versioned variables add their constraint to it.
-/

namespace EventCheck

namespace Statement

/-- The constraint that a statement over versioned variables puts on their values. -/
def constraint? : Statement → Except Error (Option Expression)
  | declare v => some <$> Expression.binaryChecked .eq (.var v) (.const v.dataType.default)
  | assign v e => some <$> Expression.binaryChecked .eq (.var v) e
  | assume condition => .ok (some condition)
  | _ => .ok none

end Statement

namespace SymbolicMemory

/-- Adds the constraint of the operation; a contradiction has no successor. -/
def step (f : Formula) (operation : LabeledOperation) : Except Error (List Formula) := do
  match ← operation.statement.constraint? with
  | none => return [f]
  | some constraint =>
    let g := f.conjunction (← Formula.ofExpression constraint)
    return if g.isFalse then [] else [g]

/-- The value that a literal fixes: a positive equation of a variable and a constant. -/
def fixed? (l : Literal) : Option (Variable × Constant) :=
  match l.positive, l.atom with
  | true, .binary .eq (.var v) (.const c) => some (v, c)
  | true, .binary .eq (.const c) (.var v) => some (v, c)
  | _, _ => none

/-- The values that equations fix, if the formula is a single cube. -/
def values (f : Formula) : Model :=
  match f.cubes.toList with
  | [c] => .ofList (c.toList.filterMap fixed?)
  | _ => ∅

end SymbolicMemory

/-- The analysis whose states are path formulas. -/
def symbolicMemory (operator : MergeOperator) : LabeledAnalysis Formula where
  initial := [.top]
  step := SymbolicMemory.step
  successors _ := .error (.unlabeledStep "symbolic memory")
  join f g := .ok (f.disjunction g)
  shouldMerge _ _ := operator.shouldMerge
  merge f g := .ok (operator.merge Formula.lattice f g)
  stop f reached := .ok (reached.any f.implies)
  formula f := .ok f
  resetPath _ := .top
  instantiate _ predicate := predicate
  label _ := []
  values := SymbolicMemory.values

end EventCheck
