import EventCheck.Program.Expression.Typed
import EventCheck.Sorted.Map

/-!
The value of an expression when some of its variables are known. An unknown operand makes the
result unknown, except where the other operand of a connective decides it. Errors of either
operand are errors of the whole.
-/

namespace EventCheck

/-- A value for each of some variables. -/
abbrev Model := SortedMap Variable Constant

namespace Expression

/-- A known value has to be a truth value. -/
def truthOf : Option Constant → Except Error (Option Bool)
  | some (.bool b) => .ok (some b)
  | some c => .error (.notTruthValue c)
  | none => .ok none

/-- Applies `f` to two known integers. Two known values have to be integers both. -/
def onIntegers (f : Int → Int → Except Error Constant) :
    Option Constant → Option Constant → Except Error (Option Constant)
  | some (.int m), some (.int n) => some <$> f m n
  | some c, some d => .error (.mixedOperands c.dataType d.dataType)
  | _, _ => .ok none

/-- Division rounds toward zero and has no value at zero. -/
def quotient (m n : Int) : Except Error Constant :=
  if n = 0 then .error .divisionByZero else .ok (.int (m.tdiv n))

/-- The remainder has the sign of the dividend. -/
def remainder (m n : Int) : Except Error Constant :=
  if n = 0 then .error .divisionByZero else .ok (.int (m.tmod n))

/-- Conjunction of truth values either of which may be unknown. -/
def partialAnd : Option Bool → Option Bool → Option Bool
  | some false, _ | _, some false => some false
  | some true, some true => some true
  | _, _ => none

/-- Disjunction of truth values either of which may be unknown. -/
def partialOr : Option Bool → Option Bool → Option Bool
  | some true, _ | _, some true => some true
  | some false, some false => some false
  | _, _ => none

/-- Values are equal if they are the same value of the same type. -/
def partialEq : Option Constant → Option Constant → Option Constant
  | some c, some d => some (.bool (c = d))
  | _, _ => none

/-- The value of the expression, as far as the known variables decide it. -/
def eval (lookup : Variable → Option Constant) : Expression → Except Error (Option Constant)
  | var v => .ok (lookup v)
  | const c => .ok (some c)
  | not operand => do
    let a ← truthOf (← operand.eval lookup)
    return a.map fun b => .bool !b
  | binary .add lhs rhs => do
    onIntegers (fun m n => .ok (.int (m + n))) (← lhs.eval lookup) (← rhs.eval lookup)
  | binary .sub lhs rhs => do
    onIntegers (fun m n => .ok (.int (m - n))) (← lhs.eval lookup) (← rhs.eval lookup)
  | binary .mul lhs rhs => do
    onIntegers (fun m n => .ok (.int (m * n))) (← lhs.eval lookup) (← rhs.eval lookup)
  | binary .div lhs rhs => do
    onIntegers quotient (← lhs.eval lookup) (← rhs.eval lookup)
  | binary .mod lhs rhs => do
    onIntegers remainder (← lhs.eval lookup) (← rhs.eval lookup)
  | binary .lt lhs rhs => do
    onIntegers (fun m n => .ok (.bool (m < n))) (← lhs.eval lookup) (← rhs.eval lookup)
  | binary .eq lhs rhs => do
    return partialEq (← lhs.eval lookup) (← rhs.eval lookup)
  | binary .and lhs rhs => do
    let a ← truthOf (← lhs.eval lookup)
    let b ← truthOf (← rhs.eval lookup)
    return (partialAnd a b).map .bool
  | binary .or lhs rhs => do
    let a ← truthOf (← lhs.eval lookup)
    let b ← truthOf (← rhs.eval lookup)
    return (partialOr a b).map .bool

/-- The value of an expression without variables. -/
def evalGround (e : Expression) : Except Error Constant := do
  match ← e.eval fun _ => none with
  | some c => return c
  | none => throw (.notGround e)

end Expression

end EventCheck
