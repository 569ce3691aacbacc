import EventCheck.Program.Variable
import EventCheck.Sorted.Set

/-!
Expressions over variables and constants, with their types and texts.
-/

namespace EventCheck

/-- The operators with two operands. -/
inductive BinaryOp where
  | add
  | sub
  | mul
  | div
  | mod
  | eq
  | lt
  | and
  | or
deriving DecidableEq, Repr, Inhabited

namespace BinaryOp

/-- The place of the operator among all forms of expression, see `Expression.order`. -/
def rank : BinaryOp → Nat
  | add => 2
  | sub => 3
  | mul => 4
  | div => 5
  | mod => 6
  | eq => 7
  | lt => 8
  | and => 10
  | or => 11

theorem rank_injective {f g : BinaryOp} (same : f.rank = g.rank) : f = g := by
  cases f <;> cases g <;> simp_all [rank]

def symbol : BinaryOp → String
  | add => "+"
  | sub => "-"
  | mul => "*"
  | div => "/"
  | mod => "%"
  | eq => "=="
  | lt => "<"
  | and => "&&"
  | or => "||"

/-- The type of the operator's result. -/
def resultType : BinaryOp → DataType
  | add | sub | mul | div | mod => .int
  | eq | lt | and | or => .bool

end BinaryOp

/-- An expression of the program. -/
inductive Expression where
  | var (v : Variable)
  | const (c : Constant)
  | not (operand : Expression)
  | binary (op : BinaryOp) (lhs rhs : Expression)
deriving DecidableEq, Repr, Inhabited

namespace Expression

/-- The type that the outermost operator gives, whatever its operands are. -/
def dataType : Expression → DataType
  | var v => v.dataType
  | const c => c.dataType
  | not _ => .bool
  | binary op _ _ => op.resultType

/-- Binary operators stand between their operands, in parentheses. -/
def text : Expression → String
  | var v => v.text
  | const c => c.text
  | not operand => "!" ++ operand.text
  | binary op lhs rhs => "(" ++ lhs.text ++ " " ++ op.symbol ++ " " ++ rhs.text ++ ")"

/-- The immediate operands. -/
def operands : Expression → List Expression
  | var _ | const _ => []
  | not operand => [operand]
  | binary _ lhs rhs => [lhs, rhs]

def «variables» : Expression → SortedSet Variable
  | var v => .singleton v
  | const _ => ∅
  | not operand => operand.variables
  | binary _ lhs rhs => lhs.variables ∪ rhs.variables

def constants : Expression → SortedSet Constant
  | var _ => ∅
  | const c => .singleton c
  | not operand => operand.constants
  | binary _ lhs rhs => lhs.constants ∪ rhs.constants

/-- Replaces each variable by another one. -/
def rename (f : Variable → Variable) : Expression → Expression
  | var v => var (f v)
  | const c => const c
  | not operand => not (operand.rename f)
  | binary op lhs rhs => binary op (lhs.rename f) (rhs.rename f)

def asVariable? : Expression → Option Variable
  | var v => some v
  | _ => none

def asConstant? : Expression → Option Constant
  | const c => some c
  | _ => none

/-- Whether no variable occurs. -/
def isGround : Expression → Bool
  | var _ => false
  | const _ => true
  | not operand => operand.isGround
  | binary _ lhs rhs => lhs.isGround && rhs.isGround

end Expression

end EventCheck
