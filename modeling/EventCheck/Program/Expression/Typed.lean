import EventCheck.Error

/-!
Expressions built with a check of their operands' types. The left operand is checked before the
right one.
-/

namespace EventCheck

namespace Expression

/-- Refuses an expression of another type. -/
def expect (type : DataType) (e : Expression) : Except Error Unit :=
  if e.dataType = type then .ok () else .error (.typeMismatch type e)

end Expression

/-- The type that both operands need; that of the left one decides for equality. -/
def BinaryOp.operandType (op : BinaryOp) (lhs : Expression) : DataType :=
  match op with
  | add | sub | mul | div | mod | lt => .int
  | and | or => .bool
  | eq => lhs.dataType

namespace Expression

/-- The operator applied to operands of the type that it needs. -/
def binaryChecked (op : BinaryOp) (lhs rhs : Expression) : Except Error Expression := do
  lhs.expect (op.operandType lhs)
  rhs.expect (op.operandType lhs)
  return .binary op lhs rhs

/-- The negation of a truth value. -/
def notChecked (operand : Expression) : Except Error Expression := do
  operand.expect .bool
  return .not operand

end Expression

/-- Every operator stands over operands of the type that it needs. -/
def Expression.WellTyped : Expression → Prop
  | .var _ | .const _ => True
  | .not operand => operand.WellTyped ∧ operand.dataType = .bool
  | .binary op lhs rhs =>
    lhs.WellTyped ∧ rhs.WellTyped ∧
      lhs.dataType = op.operandType lhs ∧
      rhs.dataType = op.operandType lhs

namespace Expression

theorem expect_eq_ok_iff {type : DataType} {e : Expression} :
    e.expect type = .ok () ↔ e.dataType = type := by
  unfold expect
  split <;> simp_all

/-- Checked construction succeeds exactly if the operands have the type that the
operator needs. -/
theorem binaryChecked_eq_ok_iff {op : BinaryOp} {lhs rhs e : Expression} :
    binaryChecked op lhs rhs = .ok e ↔
      e = .binary op lhs rhs ∧ lhs.dataType = op.operandType lhs ∧
        rhs.dataType = op.operandType lhs := by
  unfold binaryChecked expect
  by_cases left : lhs.dataType = op.operandType lhs
  · by_cases right : rhs.dataType = op.operandType lhs
    · rw [if_pos left, if_pos right]
      exact ⟨fun h => ⟨(Except.ok.inj h).symm, left, right⟩, fun h => congrArg _ h.1.symm⟩
    · rw [if_pos left, if_neg right]
      exact ⟨nofun, fun h => absurd h.2.2 right⟩
  · rw [if_neg left]
    exact ⟨nofun, fun h => absurd h.2.1 left⟩

theorem notChecked_eq_ok_iff {operand e : Expression} :
    notChecked operand = .ok e ↔ e = .not operand ∧ operand.dataType = .bool := by
  unfold notChecked expect
  by_cases type : operand.dataType = .bool
  · rw [if_pos type]
    exact ⟨fun h => ⟨(Except.ok.inj h).symm, type⟩, fun h => congrArg _ h.1.symm⟩
  · rw [if_neg type]
    exact ⟨nofun, fun h => absurd h.2 type⟩

end Expression

end EventCheck
