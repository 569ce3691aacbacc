import EventCheck.Analysis.Basic
import EventCheck.Analysis.MergeOperator
import EventCheck.Lattice.ValueMap

/-!
Known values: what is known of the data is which variables hold one known constant. Assignments
of expressions with a known value and assumed equations add to it.
-/

namespace EventCheck

namespace KnownValues

/-- The value of an expression. One without a value, as after a division by zero, may be any. -/
def evaluate (m : ValueMap) (e : Expression) : Except Error (Flat Constant) :=
  match e.eval m.value? with
  | .ok (some c) => .ok (.value c)
  | .ok none => .ok .top
  | .error .divisionByZero => .ok .top
  | .error error => .error error

/-- Sets one side of an assumed equation, if it is a variable, to the known value of the other
side in the map from before. -/
def refine (before : ValueMap) (m : ValueMap) (side other : Expression) : Except Error ValueMap :=
  match side with
  | .var v => do
    match ← evaluate before other with
    | .value c => return m.set v (.value c)
    | _ => return m
  | _ => .ok m

/-- The maps after an assumption: none if it is known to be false. -/
def assume (m : ValueMap) (condition : Expression) : Except Error (List ValueMap) := do
  match ← evaluate m condition with
  | .value (.bool false) | .bottom => return []
  | .value _ => return [m]
  | .top =>
    match condition with
    | .binary .eq lhs rhs => return [← refine m (← refine m m lhs rhs) rhs lhs]
    | _ => return [m]

/-- Follows an operation. -/
def step (m : ValueMap) (operation : LabeledOperation) : Except Error (List ValueMap) :=
  if m.isBottom then .ok []
  else
    match operation.statement with
    | .declare v => .ok [m.set v (.value v.dataType.default)]
    | .assign v e => do return [m.set v (← evaluate m e)]
    | .assume condition => assume m condition
    | _ => .ok [m]

/-- The known values as equations. -/
def formula (m : ValueMap) : Except Error Formula :=
  if m.isBottom then .ok .bottom
  else Formula.ofCube <$> Cube.ofModel m.known

end KnownValues

/-- The analysis whose states are value maps. -/
def knownValues (operator : MergeOperator) : LabeledAnalysis ValueMap where
  initial := [.top]
  step := KnownValues.step
  successors _ := .error (.unlabeledStep "value analysis")
  join m n := .ok (m.join n)
  shouldMerge _ _ := operator.shouldMerge
  merge m n := .ok (operator.merge ValueMap.lattice m n)
  stop m reached := .ok (reached.any m.included)
  formula := KnownValues.formula
  resetPath _ := .top
  instantiate _ predicate := predicate
  label _ := []
  values := ValueMap.known

end EventCheck
