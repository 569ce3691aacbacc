import EventCheck.Proofs.Enumeration
import EventCheck.Proofs.Spelling

/-!
Terms in the theories of the SMT-LIB language: truth values, integers and text. Division there is
Euclidean, with a remainder that is never negative, and a total function that any value will do for
at zero. So terms mean what the evaluation of expressions computes as long as no division rounds
the other way.
-/

namespace EventCheck

/-- No division or remainder in the expression differs from the Euclidean one: each dividend that is
known is not negative or a multiple of the divisor. -/
def Expression.RoundsAlike (lookup : Variable → Option Constant) : Expression → Prop
  | .var _ | .const _ => True
  | .not operand => operand.RoundsAlike lookup
  | .binary op lhs rhs => lhs.RoundsAlike lookup ∧ rhs.RoundsAlike lookup ∧
      (op = .div ∨ op = .mod → ∀ m n, lhs.eval lookup = .ok (some (.int m)) →
        rhs.eval lookup = .ok (some (.int n)) → 0 ≤ m ∨ n ∣ m)

namespace SmtLib

/-! ### Values of trees -/

/-- The truth value or number that an atom stands for in the theories. -/
def literal? (text : String) : Option Constant :=
  if text = "true" then some (.bool true)
  else if text = "false" then some (.bool false)
  else if text.toList ≠ [] ∧ text.toList.all Char.isDigit = true then
    some (.int (Nat.ofDigitChars 10 text.toList 0))
  else none

/-- The values of the declared symbols, and those that division by zero has. -/
structure Interpretation where
  constant : String → Option Constant
  quotientByZero : Int → Int
  remainderByZero : Int → Int

namespace Interpretation

def atom (i : Interpretation) (text : String) : Option Constant :=
  match literal? text with
  | some c => some c
  | none => i.constant text

def unary : String → Constant → Option Constant
  | "not", .bool b => some (.bool !b)
  | "-", .int n => some (.int (-n))
  | _, _ => none

/-- The functions with two arguments, on arguments of their sorts. -/
def binary (i : Interpretation) : String → Constant → Constant → Option Constant
  | "and", .bool p, .bool q => some (.bool (p && q))
  | "or", .bool p, .bool q => some (.bool (p || q))
  | "+", .int m, .int n => some (.int (m + n))
  | "-", .int m, .int n => some (.int (m - n))
  | "*", .int m, .int n => some (.int (m * n))
  | "div", .int m, .int n => some (.int (if n = 0 then i.quotientByZero m else m / n))
  | "mod", .int m, .int n => some (.int (if n = 0 then i.remainderByZero m else m % n))
  | "<", .int m, .int n => some (.bool (m < n))
  | "=", c, d => if c.dataType = d.dataType then some (.bool (c = d)) else none
  | _, _, _ => none

/-- The value of a tree as a term, if it is one. -/
def value (i : Interpretation) : Tree → Option Constant
  | .atom text => i.atom text
  | .string text => some (.str text)
  | .list [.atom name, operand] => do unary name (← i.value operand)
  | .list [.atom name, lhs, rhs] => do i.binary name (← i.value lhs) (← i.value rhs)
  | .list _ => none

/-- The symbol of each variable is read as a value of its type, the one that is known if any is. -/
def Reads (i : Interpretation) (lookup : Variable → Option Constant)
    (symbols : SortedSet Variable) : Prop :=
  ∀ v ∈ symbols, ∃ c, i.atom (symbolName v) = some c ∧ c.dataType = v.dataType ∧
    ∀ d, lookup v = some d → c = d

end Interpretation

/-- The tree that the text of an expression is read as. -/
def termTree : Expression → Tree
  | .var v => .atom (symbolName v)
  | .const c => constantTree c
  | .not operand => .list [.atom "not", termTree operand]
  | .binary op lhs rhs => .list [.atom (operator op), termTree lhs, termTree rhs]

variable {i : Interpretation} {lookup : Variable → Option Constant} {e lhs rhs : Expression}
variable {op : BinaryOp}

/-! ### Operators -/

open Expression

theorem literal?_toString {n : Int} (natural : 0 ≤ n) : literal? (toString n) = some (.int n) := by
  have digits := isDigit_of_mem_toString natural
  have notTrue : toString n ≠ "true" := by
    intro same
    exact absurd (digits 't' (by rw [same]; decide)) (by decide)
  have notFalse : toString n ≠ "false" := by
    intro same
    exact absurd (digits 'f' (by rw [same]; decide)) (by decide)
  have nonempty : (toString n).toList ≠ [] := by
    rw [toList_toString natural]
    exact Nat.toDigits_ne_nil
  rw [literal?, if_neg notTrue, if_neg notFalse, if_pos ⟨nonempty, List.all_eq_true.2 digits⟩,
    toList_toString natural, Nat.ofDigitChars_toDigits (by decide) (by decide),
    Int.toNat_of_nonneg natural]

theorem atom_of_literal? {text : String} {c : Constant} (literal : literal? text = some c) :
    i.atom text = some c := by
  rw [Interpretation.atom, literal]

theorem value_unary (i : Interpretation) (name : String) (operand : Tree) :
    i.value (.list [.atom name, operand]) =
      (i.value operand).bind (Interpretation.unary name) := rfl

theorem value_binary (i : Interpretation) (name : String) (first second : Tree) :
    i.value (.list [.atom name, first, second]) =
      (i.value first).bind fun c => (i.value second).bind fun d => i.binary name c d := rfl

theorem value_constantTree (i : Interpretation) (c : Constant) :
    i.value (constantTree c) = some c := by
  cases c with
  | int n =>
    rw [constantTree]
    by_cases negative : n < 0
    · have opposite : i.value (.atom (toString (-n))) = some (.int (-n)) :=
        atom_of_literal? (literal?_toString (by omega))
      rw [if_pos negative, value_unary, opposite, Option.bind_some]
      exact congrArg (some ∘ Constant.int) (Int.neg_neg n)
    · rw [if_neg negative]
      exact atom_of_literal? (literal?_toString (by omega))
  | bool b => cases b <;> rfl
  | str text => rfl

theorem binary_eq (i : Interpretation) {c d : Constant} (types : c.dataType = d.dataType) :
    i.binary (operator .eq) c d = some (.bool (c = d)) := if_pos types

/-- The operators are total on arguments of their sorts. -/
theorem exists_binary (i : Interpretation) {c d : Constant}
    (left : c.dataType = op.operandType lhs) (right : d.dataType = op.operandType lhs) :
    ∃ r, i.binary (operator op) c d = some r ∧ r.dataType = op.resultType := by
  cases op with
  | add | sub | mul | div | mod | lt =>
    obtain ⟨m, rfl⟩ := exists_int left
    obtain ⟨n, rfl⟩ := exists_int right
    exact ⟨_, rfl, rfl⟩
  | and | or =>
    obtain ⟨p, rfl⟩ := exists_bool left
    obtain ⟨q, rfl⟩ := exists_bool right
    exact ⟨_, rfl, rfl⟩
  | eq => exact ⟨.bool (c = d), binary_eq i (left.trans right.symm), rfl⟩

/-- Division that rounds toward zero is Euclidean unless the dividend is negative and no multiple
of the divisor. -/
theorem tdiv_eq_ediv_iff {m n : Int} (nonzero : n ≠ 0) : m.tdiv n = m / n ↔ 0 ≤ m ∨ n ∣ m := by
  rw [Int.tdiv_eq_ediv]
  by_cases alike : 0 ≤ m ∨ n ∣ m
  · rw [if_pos alike]
    simp [alike]
  · rw [if_neg alike]
    have sign : n.sign ≠ 0 := fun zero => nonzero (Int.sign_eq_zero_iff_zero.1 zero)
    simp only [alike, iff_false]
    omega

theorem tmod_eq_emod_iff {m n : Int} (nonzero : n ≠ 0) : m.tmod n = m % n ↔ 0 ≤ m ∨ n ∣ m := by
  rw [Int.tmod_eq_emod]
  by_cases alike : 0 ≤ m ∨ n ∣ m
  · rw [if_pos alike]
    simp [alike]
  · rw [if_neg alike]
    simp only [alike, iff_false]
    omega

theorem quotient_eq_ok {m n : Int} {c : Constant} (given : quotient m n = .ok c) :
    n ≠ 0 ∧ c = .int (m.tdiv n) := by
  unfold quotient at given
  split at given
  · cases given
  · rename_i nonzero
    exact ⟨nonzero, (Except.ok.inj given).symm⟩

theorem remainder_eq_ok {m n : Int} {c : Constant} (given : remainder m n = .ok c) :
    n ≠ 0 ∧ c = .int (m.tmod n) := by
  unfold remainder at given
  split at given
  · cases given
  · rename_i nonzero
    exact ⟨nonzero, (Except.ok.inj given).symm⟩

/-- What a quotient or remainder is in the theories. -/
theorem binary_division (i : Interpretation) {m n : Int} (nonzero : n ≠ 0) :
    i.binary (operator .div) (.int m) (.int n) = some (.int (m / n)) ∧
      i.binary (operator .mod) (.int m) (.int n) = some (.int (m % n)) := by
  constructor
  · exact congrArg (some ∘ Constant.int) (if_neg nonzero)
  · exact congrArg (some ∘ Constant.int) (if_neg nonzero)

theorem truth_of_refines {a : Option Constant} {p t : Bool} (refined : Refines a (some (.bool p)))
    (truth : truthOf a = .ok (some t)) : p = t := by
  have known := refined _ (truthOf_eq_some_iff.1 truth)
  exact Constant.bool.inj (Option.some.inj known)

/-- Where an operator has a value, on operands known in part, the theories give that value. -/
theorem binary_of_apply (i : Interpretation) {a b : Option Constant} {c d r : Constant}
    (first : Refines a (some c)) (second : Refines b (some d))
    (left : c.dataType = op.operandType lhs) (right : d.dataType = op.operandType lhs)
    (alike : op = .div ∨ op = .mod → ∀ m n, a = some (.int m) → b = some (.int n) →
      0 ≤ m ∨ n ∣ m)
    (applied : op.apply a b = .ok (some r)) : i.binary (operator op) c d = some r := by
  cases op with
  | add | sub | mul | lt =>
    obtain ⟨m, n, rfl, rfl, same⟩ := onIntegers_eq_ok_some applied
    obtain rfl := Option.some.inj (first _ rfl)
    obtain rfl := Option.some.inj (second _ rfl)
    exact congrArg some (Except.ok.inj same)
  | div =>
    obtain ⟨m, n, rfl, rfl, same⟩ := onIntegers_eq_ok_some applied
    obtain rfl := Option.some.inj (first _ rfl)
    obtain rfl := Option.some.inj (second _ rfl)
    obtain ⟨nonzero, rfl⟩ := quotient_eq_ok same
    have rounds := alike (Or.inl rfl) m n rfl rfl
    rw [(binary_division i nonzero).1, (tdiv_eq_ediv_iff nonzero).2 rounds]
  | mod =>
    obtain ⟨m, n, rfl, rfl, same⟩ := onIntegers_eq_ok_some applied
    obtain rfl := Option.some.inj (first _ rfl)
    obtain rfl := Option.some.inj (second _ rfl)
    obtain ⟨nonzero, rfl⟩ := remainder_eq_ok same
    have rounds := alike (Or.inr rfl) m n rfl rfl
    rw [(binary_division i nonzero).2, (tmod_eq_emod_iff nonzero).2 rounds]
  | and =>
    obtain ⟨p, rfl⟩ := exists_bool left
    obtain ⟨q, rfl⟩ := exists_bool right
    obtain ⟨p', firstTruth, q', secondTruth, known⟩ := apply_and_eq_ok_iff.1 applied
    obtain ⟨t, both, rfl⟩ := Option.map_eq_some_iff.1 known.symm
    -- a side that is false decides, and nothing need be known of the other one
    have value : (p && q) = t := by
      cases t with
      | true =>
        obtain ⟨rfl, rfl⟩ := partialAnd_eq_true_iff.1 both
        rw [truth_of_refines first firstTruth, truth_of_refines second secondTruth]
        rfl
      | false =>
        rcases partialAnd_eq_false_iff.1 both with rfl | rfl
        · rw [truth_of_refines first firstTruth, Bool.false_and]
        · rw [truth_of_refines second secondTruth, Bool.and_false]
    exact congrArg (some ∘ Constant.bool) value
  | or =>
    obtain ⟨p, rfl⟩ := exists_bool left
    obtain ⟨q, rfl⟩ := exists_bool right
    obtain ⟨p', firstTruth, q', secondTruth, known⟩ := apply_or_eq_ok_iff.1 applied
    obtain ⟨t, either, rfl⟩ := Option.map_eq_some_iff.1 known.symm
    have value : (p || q) = t := by
      cases t with
      | true =>
        rcases partialOr_eq_true_iff.1 either with rfl | rfl
        · rw [truth_of_refines first firstTruth, Bool.true_or]
        · rw [truth_of_refines second secondTruth, Bool.or_true]
      | false =>
        obtain ⟨rfl, rfl⟩ := partialOr_eq_false_iff.1 either
        rw [truth_of_refines first firstTruth, truth_of_refines second secondTruth]
        rfl
    exact congrArg (some ∘ Constant.bool) value
  | eq =>
    have equal := Except.ok.inj applied
    cases a with
    | none => simp [partialEq] at equal
    | some x =>
      cases b with
      | none => simp [partialEq] at equal
      | some y =>
        obtain rfl := Option.some.inj (first _ rfl)
        obtain rfl := Option.some.inj (second _ rfl)
        exact (binary_eq i (left.trans right.symm)).trans equal

/-! ### Terms -/

/-- A term has a value of its type. -/
theorem exists_value (wellTyped : e.WellTyped) (reads : i.Reads lookup e.variables) :
    ∃ c, i.value (termTree e) = some c ∧ c.dataType = e.dataType := by
  induction e with
  | var v =>
    obtain ⟨c, value, type, _⟩ := reads v (by simp [Expression.variables])
    exact ⟨c, value, type⟩
  | const c => exact ⟨c, value_constantTree i c, rfl⟩
  | not operand ih =>
    obtain ⟨c, value, type⟩ := ih wellTyped.1 reads
    obtain ⟨b, rfl⟩ := exists_bool (type.trans wellTyped.2)
    refine ⟨.bool !b, ?_, rfl⟩
    rw [termTree, value_unary, value]
    rfl
  | binary op lhs rhs left right =>
    obtain ⟨first, second, one, two⟩ := wellTyped
    obtain ⟨c, leftValue, leftType⟩ := left first
      fun v member => reads v (by simp [Expression.variables, member])
    obtain ⟨d, rightValue, rightType⟩ := right second
      fun v member => reads v (by simp [Expression.variables, member])
    obtain ⟨r, value, type⟩ :=
      exists_binary i (leftType.trans one) (rightType.trans two)
    refine ⟨r, ?_, type⟩
    rw [termTree, value_binary, leftValue, rightValue]
    exact value

/-- Where evaluation gives a value and all divisions round alike, the term has that value. -/
theorem value_of_eval (wellTyped : e.WellTyped) (reads : i.Reads lookup e.variables)
    (alike : e.RoundsAlike lookup) {c : Constant} (evaluated : e.eval lookup = .ok (some c)) :
    i.value (termTree e) = some c := by
  induction e generalizing c with
  | var v =>
    obtain ⟨d, value, _, known⟩ := reads v (by simp [Expression.variables])
    have same := known c (Except.ok.inj ((eval_var v).symm.trans evaluated))
    rw [← same]
    exact value
  | const d =>
    obtain rfl := Option.some.inj (Except.ok.inj ((eval_const d).symm.trans evaluated))
    exact value_constantTree i d
  | not operand ih =>
    obtain ⟨a, first, p, truth, known⟩ := eval_not_eq_ok_iff.1 evaluated
    obtain ⟨t, rfl, rfl⟩ := Option.map_eq_some_iff.1 known.symm
    rw [truthOf_eq_some_iff.1 truth] at first
    rw [termTree, value_unary, ih wellTyped.1 reads alike first]
    rfl
  | binary op lhs rhs left right =>
    obtain ⟨first, second, one, two⟩ := wellTyped
    obtain ⟨leftAlike, rightAlike, rounds⟩ := alike
    obtain ⟨a, leftEval, b, rightEval, applied⟩ := eval_binary_eq_ok_iff.1 evaluated
    have leftReads : i.Reads lookup lhs.variables :=
      fun v member => reads v (by simp [Expression.variables, member])
    have rightReads : i.Reads lookup rhs.variables :=
      fun v member => reads v (by simp [Expression.variables, member])
    obtain ⟨c, leftValue, leftType⟩ := exists_value first leftReads
    obtain ⟨d, rightValue, rightType⟩ := exists_value second rightReads
    have leftRefines : Refines a (some c) := by
      rintro x rfl
      rw [← leftValue]
      exact left first leftReads leftAlike leftEval
    have rightRefines : Refines b (some d) := by
      rintro x rfl
      rw [← rightValue]
      exact right second rightReads rightAlike rightEval
    rw [termTree, value_binary, leftValue, rightValue]
    refine binary_of_apply i leftRefines rightRefines (leftType.trans one) (rightType.trans two)
      ?_ applied
    rintro division m n rfl rfl
    exact rounds division m n leftEval rightEval

/-- A division of operands that round alike agrees with the evaluation exactly if it does so too. -/
theorem value_division_iff (division : op = .div ∨ op = .mod)
    (wellTyped : (binary op lhs rhs).WellTyped)
    (reads : i.Reads lookup (binary op lhs rhs).variables)
    (left : lhs.RoundsAlike lookup) (right : rhs.RoundsAlike lookup) {m n : Int} {c : Constant}
    (first : lhs.eval lookup = .ok (some (.int m))) (second : rhs.eval lookup = .ok (some (.int n)))
    (evaluated : (binary op lhs rhs).eval lookup = .ok (some c)) :
    i.value (termTree (binary op lhs rhs)) = some c ↔ 0 ≤ m ∨ n ∣ m := by
  have leftValue : i.value (termTree lhs) = some (.int m) :=
    value_of_eval wellTyped.1 (fun v member => reads v (by simp [Expression.variables, member]))
      left first
  have rightValue : i.value (termTree rhs) = some (.int n) :=
    value_of_eval wellTyped.2.1
      (fun v member => reads v (by simp [Expression.variables, member])) right second
  obtain ⟨a, one, b, two, applied⟩ := eval_binary_eq_ok_iff.1 evaluated
  obtain rfl := Except.ok.inj (first.symm.trans one)
  obtain rfl := Except.ok.inj (second.symm.trans two)
  rw [termTree, value_binary, leftValue, rightValue, Option.bind_some, Option.bind_some]
  rcases division with rfl | rfl
  · have divided : onIntegers quotient (some (.int m)) (some (.int n)) = .ok (some c) := applied
    obtain ⟨_, _, same, same', given⟩ := onIntegers_eq_ok_some divided
    cases same
    cases same'
    obtain ⟨nonzero, rfl⟩ := quotient_eq_ok given
    rw [(binary_division i nonzero).1, Option.some.injEq, Constant.int.injEq, eq_comm]
    exact tdiv_eq_ediv_iff nonzero
  · have divided : onIntegers remainder (some (.int m)) (some (.int n)) = .ok (some c) := applied
    obtain ⟨_, _, same, same', given⟩ := onIntegers_eq_ok_some divided
    cases same
    cases same'
    obtain ⟨nonzero, rfl⟩ := remainder_eq_ok given
    rw [(binary_division i nonzero).2, Option.some.injEq, Constant.int.injEq, eq_comm]
    exact tmod_eq_emod_iff nonzero

end SmtLib

end EventCheck
