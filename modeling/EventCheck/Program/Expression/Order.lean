import EventCheck.Program.Expression

/-!
The order of expressions: by outermost form, then by operands. It is the lexicographic order of
the expressions' symbols in prefix notation (`Expression.compare_preorder`), hence linear.
-/

namespace EventCheck

namespace Expression

/-- Variables come first, then constants, arithmetic, comparisons, negation and connectives. -/
def rank : Expression → Nat
  | var _ => 0
  | const _ => 1
  | not _ => 9
  | binary op _ _ => op.rank

/-- By outermost form, then by operands from left to right. -/
def order : Expression → Expression → Ordering
  | var v, var w => compare v w
  | const c, const d => compare c d
  | not a, not b => order a b
  | binary f a b, binary g c d => (compare f.rank g.rank).then ((order a c).then (order b d))
  | a, b => compare a.rank b.rank

instance : Ord Expression := ⟨order⟩

/-- A symbol of an expression in prefix notation: its form and what it names. -/
structure Symbol where
  rank : Nat
  leaf? : Option Variable := none
  constant? : Option Constant := none

namespace Symbol

instance : Ord Symbol :=
  ⟨compareLex (compareOn rank) (compareLex (compareOn leaf?) (compareOn constant?))⟩

instance : Std.TransOrd Symbol := inferInstanceAs (Std.TransCmp
  (compareLex (compareOn rank) (compareLex (compareOn leaf?) (compareOn constant?))))

theorem compare_def (s t : Symbol) : compare s t = (compare s.rank t.rank).then
    ((compare s.leaf? t.leaf?).then (compare s.constant? t.constant?)) := rfl

end Symbol

/-- The symbols of the expression in prefix notation. -/
def preorder : Expression → List Symbol
  | var v => [⟨0, some v, none⟩]
  | const c => [⟨1, none, some c⟩]
  | not operand => ⟨9, none, none⟩ :: operand.preorder
  | binary op lhs rhs => ⟨op.rank, none, none⟩ :: (lhs.preorder ++ rhs.preorder)

theorem compare_preorder_append (a b : Expression) (s t : List Symbol) :
    compare (a.preorder ++ s) (b.preorder ++ t) = (order a b).then (compare s t) := by
  induction a generalizing b s t with
  | var v =>
    cases b with
    | binary g c d => cases g <;> simp [preorder, order, Symbol.compare_def, rank] <;> rfl
    | _ => simp [preorder, order, Symbol.compare_def, rank]; rfl
  | const v =>
    cases b with
    | binary g c d => cases g <;> simp [preorder, order, Symbol.compare_def, rank] <;> rfl
    | _ => simp [preorder, order, Symbol.compare_def, rank]; rfl
  | not a ih =>
    cases b with
    | binary g c d => cases g <;> simp [preorder, order, Symbol.compare_def, rank] <;> rfl
    | _ => simp [preorder, order, Symbol.compare_def, rank, ih] <;> rfl
  | binary f a b iha ihb =>
    cases b with
    | binary g c d => simp [preorder, order, Symbol.compare_def, iha, ihb, Ordering.then_assoc]
    | _ => cases f <;> simp [preorder, order, Symbol.compare_def, rank] <;> rfl

/-- Expressions compare as their prefix notations do. -/
theorem compare_preorder (a b : Expression) : compare a b = compare a.preorder b.preorder := by
  simpa [show compare a b = order a b from rfl, Ordering.then_eq]
    using (compare_preorder_append a b [] []).symm

instance : Std.TransOrd Expression where
  eq_swap {a b} := by
    rw [compare_preorder, compare_preorder]
    exact Std.OrientedCmp.eq_swap
  isLE_trans {a b c} := by
    simp only [compare_preorder]
    exact Std.TransCmp.isLE_trans

theorem order_self (a : Expression) : order a a = .eq := by
  induction a with
  | var v => exact cmp_self (compare : Variable → Variable → Ordering)
  | const c => exact cmp_self (compare : Constant → Constant → Ordering)
  | not a ih => exact ih
  | binary op a b iha ihb => simp [order, iha, ihb]

theorem rank_eq_of_order {a b : Expression} (same : order a b = .eq) : a.rank = b.rank := by
  cases a <;> cases b <;>
    first
    | rfl
    | exact Std.LawfulEqOrd.eq_of_compare (α := Nat) same
    | exact Std.LawfulEqOrd.eq_of_compare (α := Nat) (Ordering.then_eq_eq.1 same).1

theorem eq_of_order {a b : Expression} (same : order a b = .eq) : a = b := by
  have ranks := rank_eq_of_order same
  induction a generalizing b with
  | var v =>
    cases b with
    | var w => exact congrArg var (Std.LawfulEqOrd.eq_of_compare same)
    | binary g c d => cases g <;> simp [rank, BinaryOp.rank] at ranks
    | _ => simp [rank] at ranks
  | const c =>
    cases b with
    | const d => exact congrArg const (Std.LawfulEqOrd.eq_of_compare same)
    | binary g c d => cases g <;> simp [rank, BinaryOp.rank] at ranks
    | _ => simp [rank] at ranks
  | not a ih =>
    cases b with
    | not b => exact congrArg not (ih same (rank_eq_of_order same))
    | binary g c d => cases g <;> simp [rank, BinaryOp.rank] at ranks
    | _ => simp [rank] at ranks
  | binary f a b iha ihb =>
    cases b with
    | binary g c d =>
      simp only [order, Ordering.then_eq_eq] at same
      rw [BinaryOp.rank_injective ranks, iha same.2.1 (rank_eq_of_order same.2.1),
        ihb same.2.2 (rank_eq_of_order same.2.2)]
    | _ => cases f <;> simp [rank, BinaryOp.rank] at ranks

instance : Std.LawfulEqOrd Expression where
  compare_self {a} := order_self a
  eq_of_compare := eq_of_order

end Expression

end EventCheck
