import EventCheck.Proofs.Evaluation

/-!
Checked expressions never go wrong. They are the well-typed expressions, and whatever is known of
the variables, as long as it has their types, their evaluation comes to a value of their type or to
none, or it divides by zero.
-/

namespace EventCheck

namespace Expression

variable {lookup : Variable → Option Constant} {e : Expression}

/-- What can be built where the types of operands are checked. -/
inductive Checked : Expression → Prop
  | var (v : Variable) : Checked (.var v)
  | const (c : Constant) : Checked (.const c)
  | not {operand e : Expression} (inner : Checked operand)
    (passed : notChecked operand = .ok e) : Checked e
  | binary {op : BinaryOp} {lhs rhs e : Expression} (left : Checked lhs) (right : Checked rhs)
    (passed : binaryChecked op lhs rhs = .ok e) : Checked e

theorem checked_iff_wellTyped : e.Checked ↔ e.WellTyped := by
  constructor
  · intro checked
    induction checked with
    | var _ | const _ => trivial
    | not _ passed ih =>
      obtain ⟨rfl, type⟩ := notChecked_eq_ok_iff.1 passed
      exact ⟨ih, type⟩
    | binary _ _ passed left right =>
      obtain ⟨rfl, types⟩ := binaryChecked_eq_ok_iff.1 passed
      exact ⟨left, right, types⟩
  · intro wellTyped
    induction e with
    | var v => exact .var v
    | const c => exact .const c
    | not operand ih => exact .not (ih wellTyped.1) (notChecked_eq_ok_iff.2 ⟨rfl, wellTyped.2⟩)
    | binary op lhs rhs left right =>
      obtain ⟨first, second, types⟩ := wellTyped
      exact .binary (left first) (right second) (binaryChecked_eq_ok_iff.2 ⟨rfl, types⟩)

/-- Only unknown variables leave an expression without a value. -/
theorem exists_unknown_of_eval (undecided : e.eval lookup = .ok none) :
    ∃ v ∈ e.variables, lookup v = none := by
  refine Classical.byContradiction fun known => ?_
  let env : Environment := fun v => (lookup v).getD default
  have same : ∀ v ∈ e.variables, lookup v = env.lookup v := by
    intro v occurs
    cases found : lookup v with
    | none => exact absurd ⟨v, occurs, found⟩ known
    | some c => simp [env, Environment.lookup, found]
  rw [eval_congr same] at undecided
  obtain ⟨c, value⟩ := exists_value_of_eval undecided
  cases value

/-- A checked expression is evaluated to a constant of its type, or to no value because a variable
in it is unknown, or it fails because it divides by zero. So with all its variables known it has a
value or fails, and without division it does not fail. -/
theorem eval_checked (checked : e.Checked)
    (typed : ∀ v c, lookup v = some c → c.dataType = v.dataType) :
    match e.eval lookup with
    | .ok (some c) => c.dataType = e.dataType
    | .ok none => ∃ v ∈ e.variables, lookup v = none
    | .error error => error.kind = .arithmetic ∧ ¬e.DivisionFree := by
  cases evaluated : e.eval lookup with
  | ok result =>
    cases result with
    | none => exact exists_unknown_of_eval evaluated
    | some c => exact dataType_of_eval typed evaluated
  | error error =>
    rcases eval_wellTyped typed (checked_iff_wellTyped.1 checked) with ⟨result, value⟩ | fails
    · cases evaluated.symm.trans value
    · cases evaluated.symm.trans fails.2
      exact ⟨rfl, fails.1⟩

/-! ### A quotient and a flag -/

section Quotient

def divisor : Variable := { name := "x", dataType := .int }

def bound : Variable := { name := "y", dataType := .int }

def flag : Variable := { name := "b", dataType := .bool }

/-- A quotient is below a bound, or a flag is set. -/
def quotientBelow : Expression :=
  .binary .or (.binary .lt (.binary .div (.const (.int 6)) (.var divisor)) (.var bound)) (.var flag)

/-- Knows the divisor, and that the flag is set, but nothing of the bound. -/
def knowing (n : Int) (v : Variable) : Option Constant :=
  if v = divisor then some (.int n) else if v = flag then some (.bool true) else none

theorem typed_knowing (n : Int) (v : Variable) (c : Constant) (known : knowing n v = some c) :
    c.dataType = v.dataType := by
  unfold knowing at known
  split at known
  · cases known
    subst_vars
    rfl
  · split at known
    · cases known
      subst_vars
      rfl
    · cases known

/-- The flag decides although the bound is unknown, but not where the divisor is zero. Without the
flag nothing is decided. -/
theorem eval_checked_quotientBelow :
    (quotientBelow.eval (knowing 3) = .ok (some (.bool true)) ∧
        (Constant.bool true).dataType = quotientBelow.dataType) ∧
      (quotientBelow.eval (knowing 0) = .error .divisionByZero ∧
        Error.divisionByZero.kind = .arithmetic ∧ ¬quotientBelow.DivisionFree) ∧
      quotientBelow.eval (fun _ => none) = .ok none ∧
        ∃ v ∈ quotientBelow.variables, (fun _ => none : Variable → Option Constant) v = none := by
  have checked : quotientBelow.Checked := checked_iff_wellTyped.2
    ⟨⟨⟨trivial, trivial, rfl, rfl⟩, trivial, rfl, rfl⟩, trivial, rfl, rfl⟩
  have decided : quotientBelow.eval (knowing 3) = .ok (some (.bool true)) := rfl
  have divides : quotientBelow.eval (knowing 0) = .error .divisionByZero := rfl
  have undecided : quotientBelow.eval (fun _ => none) = .ok none := rfl
  have first := eval_checked checked (typed_knowing 3)
  have second := eval_checked checked (typed_knowing 0)
  have third := @eval_checked (fun _ => none) _ checked nofun
  rw [decided] at first
  rw [divides] at second
  rw [undecided] at third
  exact ⟨⟨decided, first⟩, ⟨divides, second⟩, undecided, third⟩

end Quotient

end Expression

end EventCheck
