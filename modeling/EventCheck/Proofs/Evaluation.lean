import EventCheck.Program.Evaluation
import EventCheck.Program.Expression.Typed

/-!
Evaluation with some or all variables known. What is decided with few variables known stays so
with more of them known, and a well-typed expression without division has a value of its type as
soon as all variables have one.
-/

namespace EventCheck

/-- A value for every variable, at every version. -/
abbrev Environment := Variable → Constant

namespace Environment

/-- The lookup that knows every variable. -/
def lookup (env : Environment) (v : Variable) : Option Constant := some (env v)

/-- Every variable holds a value of its type. -/
def Typed (env : Environment) : Prop := ∀ v, (env v).dataType = v.dataType

/-- The environment in which every version of a variable has the value of the variable itself. -/
def unversioned (env : Environment) : Environment := fun v => env v.base

theorem Typed.unversioned {env : Environment} (typed : env.Typed) : env.unversioned.Typed :=
  fun v => typed v.base

end Environment

/-- The value of an operator when those of its operands are known as far as they are. -/
def BinaryOp.apply : BinaryOp → Option Constant → Option Constant → Except Error (Option Constant)
  | add, a, b => Expression.onIntegers (fun m n => .ok (.int (m + n))) a b
  | sub, a, b => Expression.onIntegers (fun m n => .ok (.int (m - n))) a b
  | mul, a, b => Expression.onIntegers (fun m n => .ok (.int (m * n))) a b
  | div, a, b => Expression.onIntegers Expression.quotient a b
  | mod, a, b => Expression.onIntegers Expression.remainder a b
  | lt, a, b => Expression.onIntegers (fun m n => .ok (.bool (m < n))) a b
  | eq, a, b => .ok (Expression.partialEq a b)
  | and, a, b => do
    return (Expression.partialAnd (← Expression.truthOf a) (← Expression.truthOf b)).map .bool
  | or, a, b => do
    return (Expression.partialOr (← Expression.truthOf a) (← Expression.truthOf b)).map .bool

namespace Expression

variable {lookup known more : Variable → Option Constant}

@[simp] theorem eval_var (v : Variable) : (var v).eval lookup = .ok (lookup v) := by
  simp [eval]

@[simp] theorem eval_const (c : Constant) : (const c).eval lookup = .ok (some c) := by
  simp [eval]

theorem eval_not_eq_ok_iff {operand : Expression} {result : Option Constant} :
    (Expression.not operand).eval lookup = .ok result ↔
      ∃ a, operand.eval lookup = .ok a ∧
        ∃ b, truthOf a = .ok b ∧ result = b.map fun b => .bool !b := by
  cases first : operand.eval lookup with
  | error e => simp [eval, first, bind, Except.bind]
  | ok a =>
    cases second : truthOf a with
    | error e => simp [eval, first, second, bind, Except.bind]
    | ok b => simp [eval, first, second, bind, Except.bind, pure, Except.pure, eq_comm]

theorem eval_binary_eq_ok_iff {op : BinaryOp} {lhs rhs : Expression} {result : Option Constant} :
    (binary op lhs rhs).eval lookup = .ok result ↔
      ∃ a, lhs.eval lookup = .ok a ∧ ∃ b, rhs.eval lookup = .ok b ∧ op.apply a b = .ok result := by
  cases first : lhs.eval lookup with
  | error e => cases op <;> simp [eval, first, bind, Except.bind]
  | ok a =>
    cases second : rhs.eval lookup with
    | error e =>
      cases op <;> simp [eval, first, second, bind, Except.bind]
      all_goals cases truthOf a <;> simp
    | ok b =>
      cases op <;> simp [eval, first, second, BinaryOp.apply, bind, Except.bind, pure, Except.pure]

/-! ### More known variables -/

/-- What is decided with the first value known as far as it is, the second one decides alike. -/
def Refines (a b : Option Constant) : Prop := ∀ c, a = some c → b = some c

theorem truthOf_refines {a b : Option Constant} {p q : Option Bool} (refined : Refines a b)
    (first : truthOf a = .ok p) (second : truthOf b = .ok q) :
    ∀ t, p = some t → q = some t := by
  intro t decided
  subst decided
  cases a with
  | none => simp [truthOf] at first
  | some c =>
    obtain rfl := refined c rfl
    rw [first] at second
    exact (Except.ok.inj second).symm

theorem onIntegers_refines {f : Int → Int → Except Error Constant} {a b a' b' : Option Constant}
    {result other : Option Constant} (left : Refines a a') (right : Refines b b')
    (first : onIntegers f a b = .ok result) (second : onIntegers f a' b' = .ok other) :
    Refines result other := by
  intro c decided
  subst decided
  cases a with
  | none => simp [onIntegers] at first
  | some x =>
    cases b with
    | none => cases x <;> simp [onIntegers] at first
    | some y =>
      obtain rfl := left x rfl
      obtain rfl := right y rfl
      rw [first] at second
      exact (Except.ok.inj second).symm

theorem partialAnd_refines {p q p' q' : Option Bool} (left : ∀ t, p = some t → p' = some t)
    (right : ∀ t, q = some t → q' = some t) :
    ∀ t, partialAnd p q = some t → partialAnd p' q' = some t := by
  cases p <;> cases q <;> simp at left right <;> subst_vars <;>
    grind [partialAnd]

theorem partialOr_refines {p q p' q' : Option Bool} (left : ∀ t, p = some t → p' = some t)
    (right : ∀ t, q = some t → q' = some t) :
    ∀ t, partialOr p q = some t → partialOr p' q' = some t := by
  cases p <;> cases q <;> simp at left right <;> subst_vars <;>
    grind [partialOr]

/-- A renaming of the variables is a change of the values looked up. -/
theorem eval_rename {f : Variable → Variable} {e : Expression} :
    (e.rename f).eval lookup = e.eval fun v => lookup (f v) := by
  induction e with
  | var v => simp [rename]
  | const c => simp [rename]
  | not operand ih => simp only [rename, eval, ih]
  | binary op lhs rhs left right => cases op <;> simp only [rename, eval, left, right]

/-- Only the variables that occur count. -/
theorem eval_congr {e : Expression} (same : ∀ v ∈ e.variables, known v = more v) :
    e.eval known = e.eval more := by
  induction e with
  | var v => simpa [Expression.variables] using same
  | const c => simp
  | not operand ih => simp only [eval, ih same]
  | binary op lhs rhs left right =>
    have left := left fun v member => same v (by simp [Expression.variables, member])
    have right := right fun v member => same v (by simp [Expression.variables, member])
    cases op <;> simp only [eval, left, right]

theorem map_bool_refines {p q : Option Bool} (refined : ∀ t, p = some t → q = some t) :
    Refines (p.map .bool) (q.map .bool) := by
  intro c decided
  obtain ⟨t, known, rfl⟩ := Option.map_eq_some_iff.1 decided
  rw [refined t known]
  rfl

theorem partialEq_refines {a b a' b' : Option Constant} (left : Refines a a')
    (right : Refines b b') : Refines (partialEq a b) (partialEq a' b') := by
  intro c decided
  cases a with
  | none => simp [partialEq] at decided
  | some x =>
    cases b with
    | none => simp [partialEq] at decided
    | some y => rwa [left x rfl, right y rfl]

theorem apply_and_eq_ok_iff {a b result : Option Constant} :
    BinaryOp.and.apply a b = .ok result ↔
      ∃ p, truthOf a = .ok p ∧ ∃ q, truthOf b = .ok q ∧ result = (partialAnd p q).map .bool := by
  cases first : truthOf a <;> cases second : truthOf b <;>
    simp [BinaryOp.apply, first, second, bind, Except.bind, pure, Except.pure, eq_comm]

theorem apply_or_eq_ok_iff {a b result : Option Constant} :
    BinaryOp.or.apply a b = .ok result ↔
      ∃ p, truthOf a = .ok p ∧ ∃ q, truthOf b = .ok q ∧ result = (partialOr p q).map .bool := by
  cases first : truthOf a <;> cases second : truthOf b <;>
    simp [BinaryOp.apply, first, second, bind, Except.bind, pure, Except.pure, eq_comm]

theorem apply_refines {op : BinaryOp} {a b a' b' result other : Option Constant}
    (left : Refines a a') (right : Refines b b')
    (first : op.apply a b = .ok result) (second : op.apply a' b' = .ok other) :
    Refines result other := by
  cases op with
  | add | sub | mul | div | mod | lt => exact onIntegers_refines left right first second
  | eq =>
    obtain rfl := Except.ok.inj first
    obtain rfl := Except.ok.inj second
    exact partialEq_refines left right
  | and =>
    obtain ⟨p, hp, q, hq, rfl⟩ := apply_and_eq_ok_iff.1 first
    obtain ⟨p', hp', q', hq', rfl⟩ := apply_and_eq_ok_iff.1 second
    exact map_bool_refines
      (partialAnd_refines (truthOf_refines left hp hp') (truthOf_refines right hq hq'))
  | or =>
    obtain ⟨p, hp, q, hq, rfl⟩ := apply_or_eq_ok_iff.1 first
    obtain ⟨p', hp', q', hq', rfl⟩ := apply_or_eq_ok_iff.1 second
    exact map_bool_refines
      (partialOr_refines (truthOf_refines left hp hp') (truthOf_refines right hq hq'))

/-- An expression that is decided keeps its value as more variables become known, unless it then
turns out to have none. -/
theorem eval_refines {e : Expression} {result other : Option Constant}
    (refined : ∀ v, Refines (known v) (more v))
    (first : e.eval known = .ok result) (second : e.eval more = .ok other) :
    Refines result other := by
  induction e generalizing result other with
  | var v =>
    obtain rfl := Except.ok.inj ((eval_var v).symm.trans first)
    obtain rfl := Except.ok.inj ((eval_var v).symm.trans second)
    exact refined v
  | const c =>
    obtain rfl := Except.ok.inj ((eval_const c).symm.trans first)
    obtain rfl := Except.ok.inj ((eval_const c).symm.trans second)
    exact fun _ h => h
  | not operand ih =>
    obtain ⟨a, ha, p, hp, rfl⟩ := eval_not_eq_ok_iff.1 first
    obtain ⟨b, hb, q, hq, rfl⟩ := eval_not_eq_ok_iff.1 second
    have truths := truthOf_refines (ih ha hb) hp hq
    intro c decided
    obtain ⟨t, rfl, rfl⟩ := Option.map_eq_some_iff.1 decided
    rw [truths t rfl]
    rfl
  | binary op lhs rhs left right =>
    obtain ⟨a, ha, b, hb, applied⟩ := eval_binary_eq_ok_iff.1 first
    obtain ⟨a', ha', b', hb', applied'⟩ := eval_binary_eq_ok_iff.1 second
    exact apply_refines (left ha ha') (right hb hb') applied applied'

/-! ### Truth values -/

theorem truthOf_eq_some_iff {a : Option Constant} {b : Bool} :
    truthOf a = .ok (some b) ↔ a = some (.bool b) := by
  rcases a with _ | (_ | _ | _) <;> simp [truthOf]

theorem partialAnd_eq_true_iff {p q : Option Bool} :
    partialAnd p q = some true ↔ p = some true ∧ q = some true := by
  rcases p with _ | (_ | _) <;> rcases q with _ | (_ | _) <;> simp [partialAnd]

theorem partialAnd_eq_false_iff {p q : Option Bool} :
    partialAnd p q = some false ↔ p = some false ∨ q = some false := by
  rcases p with _ | (_ | _) <;> rcases q with _ | (_ | _) <;> simp [partialAnd]

theorem partialOr_eq_true_iff {p q : Option Bool} :
    partialOr p q = some true ↔ p = some true ∨ q = some true := by
  rcases p with _ | (_ | _) <;> rcases q with _ | (_ | _) <;> simp [partialOr]

theorem partialOr_eq_false_iff {p q : Option Bool} :
    partialOr p q = some false ↔ p = some false ∧ q = some false := by
  rcases p with _ | (_ | _) <;> rcases q with _ | (_ | _) <;> simp [partialOr]

theorem map_bool_eq_some_iff {p : Option Bool} {b : Bool} :
    some (Constant.bool b) = p.map .bool ↔ p = some b := by
  cases p <;> simp [eq_comm]

theorem eval_not_bool_iff {operand : Expression} {b : Bool} :
    (Expression.not operand).eval lookup = .ok (some (.bool b)) ↔
      operand.eval lookup = .ok (some (.bool !b)) := by
  rw [eval_not_eq_ok_iff]
  constructor
  · rintro ⟨a, value, p, truth, known⟩
    obtain ⟨t, rfl, same⟩ := Option.map_eq_some_iff.1 known.symm
    rw [value, truthOf_eq_some_iff.1 truth]
    simp [← Constant.bool.inj same]
  · intro value
    exact ⟨_, value, some !b, rfl, by simp⟩

/-- A conjunction is true if both parts are. -/
theorem eval_and_true_iff {lhs rhs : Expression} :
    (binary .and lhs rhs).eval lookup = .ok (some (.bool true)) ↔
      lhs.eval lookup = .ok (some (.bool true)) ∧ rhs.eval lookup = .ok (some (.bool true)) := by
  simp only [eval_binary_eq_ok_iff, apply_and_eq_ok_iff, map_bool_eq_some_iff,
    partialAnd_eq_true_iff]
  constructor
  · rintro ⟨a, first, b, second, p, left, q, right, rfl, rfl⟩
    rw [first, second, truthOf_eq_some_iff.1 left, truthOf_eq_some_iff.1 right]
    exact ⟨rfl, rfl⟩
  · rintro ⟨first, second⟩
    exact ⟨_, first, _, second, _, rfl, _, rfl, rfl, rfl⟩

/-- A conjunction is only false if a part is. -/
theorem eval_and_false {lhs rhs : Expression}
    (value : (binary .and lhs rhs).eval lookup = .ok (some (.bool false))) :
    lhs.eval lookup = .ok (some (.bool false)) ∨ rhs.eval lookup = .ok (some (.bool false)) := by
  simp only [eval_binary_eq_ok_iff, apply_and_eq_ok_iff, map_bool_eq_some_iff,
    partialAnd_eq_false_iff] at value
  obtain ⟨a, first, b, second, p, left, q, right, rfl | rfl⟩ := value
  · exact Or.inl (by rw [first, truthOf_eq_some_iff.1 left])
  · exact Or.inr (by rw [second, truthOf_eq_some_iff.1 right])

/-- A disjunction is false if both parts are. -/
theorem eval_or_false_iff {lhs rhs : Expression} :
    (binary .or lhs rhs).eval lookup = .ok (some (.bool false)) ↔
      lhs.eval lookup = .ok (some (.bool false)) ∧ rhs.eval lookup = .ok (some (.bool false)) := by
  simp only [eval_binary_eq_ok_iff, apply_or_eq_ok_iff, map_bool_eq_some_iff,
    partialOr_eq_false_iff]
  constructor
  · rintro ⟨a, first, b, second, p, left, q, right, rfl, rfl⟩
    rw [first, second, truthOf_eq_some_iff.1 left, truthOf_eq_some_iff.1 right]
    exact ⟨rfl, rfl⟩
  · rintro ⟨first, second⟩
    exact ⟨_, first, _, second, _, rfl, _, rfl, rfl, rfl⟩

/-- A disjunction is only true if a part is. -/
theorem eval_or_true {lhs rhs : Expression}
    (value : (binary .or lhs rhs).eval lookup = .ok (some (.bool true))) :
    lhs.eval lookup = .ok (some (.bool true)) ∨ rhs.eval lookup = .ok (some (.bool true)) := by
  simp only [eval_binary_eq_ok_iff, apply_or_eq_ok_iff, map_bool_eq_some_iff,
    partialOr_eq_true_iff] at value
  obtain ⟨a, first, b, second, p, left, q, right, rfl | rfl⟩ := value
  · exact Or.inl (by rw [first, truthOf_eq_some_iff.1 left])
  · exact Or.inr (by rw [second, truthOf_eq_some_iff.1 right])

theorem eval_and_bool {lhs rhs : Expression} {p q : Bool}
    (first : lhs.eval lookup = .ok (some (.bool p)))
    (second : rhs.eval lookup = .ok (some (.bool q))) :
    (binary .and lhs rhs).eval lookup = .ok (some (.bool (p && q))) := by
  refine eval_binary_eq_ok_iff.2 ⟨_, first, _, second, ?_⟩
  cases p <;> cases q <;> rfl

theorem eval_or_bool {lhs rhs : Expression} {p q : Bool}
    (first : lhs.eval lookup = .ok (some (.bool p)))
    (second : rhs.eval lookup = .ok (some (.bool q))) :
    (binary .or lhs rhs).eval lookup = .ok (some (.bool (p || q))) := by
  refine eval_binary_eq_ok_iff.2 ⟨_, first, _, second, ?_⟩
  cases p <;> cases q <;> rfl

/-- An equation is true if both sides have one value. -/
theorem eval_eq_true_iff {lhs rhs : Expression} :
    (binary .eq lhs rhs).eval lookup = .ok (some (.bool true)) ↔
      ∃ c, lhs.eval lookup = .ok (some c) ∧ rhs.eval lookup = .ok (some c) := by
  simp only [eval_binary_eq_ok_iff, BinaryOp.apply]
  constructor
  · rintro ⟨a, first, b, second, equal⟩
    cases a with
    | none => simp [partialEq] at equal
    | some c =>
      cases b with
      | none => simp [partialEq] at equal
      | some d =>
        simp only [partialEq, Except.ok.injEq, Option.some.injEq, Constant.bool.injEq,
          decide_eq_true_eq] at equal
        exact ⟨c, first, equal ▸ second⟩
  · rintro ⟨c, first, second⟩
    exact ⟨_, first, _, second, by simp [partialEq]⟩

/-! ### Types -/

theorem onIntegers_eq_ok_some {f : Int → Int → Except Error Constant} {a b : Option Constant}
    {c : Constant} (result : onIntegers f a b = .ok (some c)) :
    ∃ m n, a = some (.int m) ∧ b = some (.int n) ∧ f m n = .ok c := by
  rcases a with _ | (m | _ | _) <;> rcases b with _ | (n | _ | _) <;>
    simp only [onIntegers, reduceCtorEq, Except.ok.injEq] at result
  refine ⟨m, n, rfl, rfl, ?_⟩
  cases applied : f m n with
  | error e => simp [applied, Functor.map, Except.map] at result
  | ok d =>
    simp only [applied, Functor.map, Except.map, Except.ok.injEq, Option.some.injEq] at result
    rw [result]

theorem onIntegers_dataType {f : Int → Int → Except Error Constant} {type : DataType}
    {a b : Option Constant} {c : Constant} (result : onIntegers f a b = .ok (some c))
    (typed : ∀ m n c, f m n = .ok c → c.dataType = type) : c.dataType = type := by
  obtain ⟨m, n, _, _, applied⟩ := onIntegers_eq_ok_some result
  exact typed m n c applied

theorem apply_dataType {op : BinaryOp} {a b : Option Constant} {c : Constant}
    (result : op.apply a b = .ok (some c)) : c.dataType = op.resultType := by
  have whole : ∀ {m n : Int} {d : Constant}, quotient m n = .ok d ∨ remainder m n = .ok d →
      d.dataType = .int := by
    intro m n d
    unfold quotient remainder
    split <;> rintro (h | h) <;> cases h <;> rfl
  cases op with
  | add | sub | mul | lt =>
    refine onIntegers_dataType result ?_
    intro m n d h
    cases h
    rfl
  | div => exact onIntegers_dataType result fun m n d h => whole (Or.inl h)
  | mod => exact onIntegers_dataType result fun m n d h => whole (Or.inr h)
  | eq =>
    have equal := Except.ok.inj result
    cases a <;> cases b <;> simp only [partialEq, reduceCtorEq, Option.some.injEq] at equal
    rw [← equal]
    rfl
  | and =>
    obtain ⟨p, _, q, _, known⟩ := apply_and_eq_ok_iff.1 result
    obtain ⟨t, _, rfl⟩ := Option.map_eq_some_iff.1 known.symm
    rfl
  | or =>
    obtain ⟨p, _, q, _, known⟩ := apply_or_eq_ok_iff.1 result
    obtain ⟨t, _, rfl⟩ := Option.map_eq_some_iff.1 known.symm
    rfl

/-- A value has the type of its expression, whether or not the operands are well typed. -/
theorem dataType_of_eval {e : Expression} {c : Constant}
    (typed : ∀ v d, lookup v = some d → d.dataType = v.dataType)
    (value : e.eval lookup = .ok (some c)) : c.dataType = e.dataType := by
  cases e with
  | var v => exact typed v c (Except.ok.inj ((eval_var v).symm.trans value))
  | const d =>
    obtain rfl := Option.some.inj (Except.ok.inj ((eval_const d).symm.trans value))
    rfl
  | not operand =>
    obtain ⟨a, _, b, _, known⟩ := eval_not_eq_ok_iff.1 value
    obtain ⟨t, _, rfl⟩ := Option.map_eq_some_iff.1 known.symm
    rfl
  | binary op lhs rhs =>
    obtain ⟨a, _, b, _, applied⟩ := eval_binary_eq_ok_iff.1 value
    exact apply_dataType applied

/-! ### Expressions that always have a value -/

/-- Neither division nor remainder occurs. -/
def DivisionFree : Expression → Prop
  | var _ | const _ => True
  | not operand => operand.DivisionFree
  | binary op lhs rhs => op ≠ .div ∧ op ≠ .mod ∧ lhs.DivisionFree ∧ rhs.DivisionFree

/-- The expression has a value in every typed environment. -/
structure Total (e : Expression) : Prop where
  wellTyped : e.WellTyped
  divisionFree : e.DivisionFree

theorem Total.operand {operand : Expression} (total : (Expression.not operand).Total) :
    operand.Total :=
  ⟨total.wellTyped.1, total.divisionFree⟩

theorem Total.lhs {op : BinaryOp} {lhs rhs : Expression} (total : (binary op lhs rhs).Total) :
    lhs.Total :=
  ⟨total.wellTyped.1, total.divisionFree.2.2.1⟩

theorem Total.rhs {op : BinaryOp} {lhs rhs : Expression} (total : (binary op lhs rhs).Total) :
    rhs.Total :=
  ⟨total.wellTyped.2.1, total.divisionFree.2.2.2⟩

theorem dataType_rename {f : Variable → Variable} (types : ∀ v, (f v).dataType = v.dataType)
    (e : Expression) : (e.rename f).dataType = e.dataType := by
  cases e <;> simp [rename, dataType, types]

theorem operandType_rename {f : Variable → Variable} (types : ∀ v, (f v).dataType = v.dataType)
    (op : BinaryOp) (lhs : Expression) : op.operandType (lhs.rename f) = op.operandType lhs := by
  cases op <;> simp [BinaryOp.operandType, dataType_rename types]

theorem Total.rename {f : Variable → Variable} (types : ∀ v, (f v).dataType = v.dataType)
    {e : Expression} (total : e.Total) : (e.rename f).Total := by
  induction e with
  | var v => exact ⟨trivial, trivial⟩
  | const c => exact ⟨trivial, trivial⟩
  | not operand ih =>
    have inside := ih total.operand
    exact ⟨⟨inside.wellTyped, (dataType_rename types operand).trans total.wellTyped.2⟩,
      inside.divisionFree⟩
  | binary op lhs rhs left right =>
    have left := left total.lhs
    have right := right total.rhs
    obtain ⟨_, _, first, second⟩ := total.wellTyped
    refine ⟨⟨left.wellTyped, right.wellTyped, ?_, ?_⟩, total.divisionFree.1,
      total.divisionFree.2.1, left.divisionFree, right.divisionFree⟩
    · rw [dataType_rename types, operandType_rename types, first]
    · rw [dataType_rename types, operandType_rename types, second]

theorem exists_bool {c : Constant} (type : c.dataType = .bool) : ∃ b, c = .bool b := by
  cases c <;> simp [Constant.dataType] at type ⊢

theorem exists_int {c : Constant} (type : c.dataType = .int) : ∃ n, c = .int n := by
  cases c <;> simp [Constant.dataType] at type ⊢

theorem exists_truthOf {a : Option Constant} (boolean : ∀ c, a = some c → c.dataType = .bool) :
    ∃ b, truthOf a = .ok b := by
  cases a with
  | none => exact ⟨none, rfl⟩
  | some c =>
    obtain ⟨b, rfl⟩ := exists_bool (boolean c rfl)
    exact ⟨some b, rfl⟩

theorem exists_onIntegers {f : Int → Int → Except Error Constant} {a b : Option Constant}
    (left : ∀ c, a = some c → c.dataType = .int) (right : ∀ d, b = some d → d.dataType = .int) :
    (∃ result, onIntegers f a b = .ok result) ∨
      ∃ m n e, f m n = .error e ∧ onIntegers f a b = .error e := by
  cases a with
  | none => exact Or.inl ⟨none, rfl⟩
  | some c =>
    obtain ⟨m, rfl⟩ := exists_int (left c rfl)
    cases b with
    | none => exact Or.inl ⟨none, rfl⟩
    | some d =>
      obtain ⟨n, rfl⟩ := exists_int (right d rfl)
      cases value : f m n with
      | ok r => exact Or.inl ⟨some r, by rw [onIntegers, value]; rfl⟩
      | error e => exact Or.inr ⟨m, n, e, value, by rw [onIntegers, value]; rfl⟩

/-- Operators accept operands of their types, whether or not these are known, but for a division
by zero. -/
theorem exists_apply {op : BinaryOp} {lhs rhs : Expression} {a b : Option Constant}
    (wellTyped : (binary op lhs rhs).WellTyped)
    (left : ∀ c, a = some c → c.dataType = lhs.dataType)
    (right : ∀ d, b = some d → d.dataType = rhs.dataType) :
    (∃ result, op.apply a b = .ok result) ∨
      (op = .div ∨ op = .mod) ∧ op.apply a b = .error .divisionByZero := by
  obtain ⟨_, _, first, second⟩ := wellTyped
  rw [first] at left
  rw [second] at right
  cases op with
  | add | sub | mul | lt =>
    refine Or.inl ((exists_onIntegers left right).resolve_right ?_)
    rintro ⟨m, n, e, fails, _⟩
    cases fails
  | div | mod =>
    rcases exists_onIntegers left right with value | ⟨m, n, e, fails, same⟩
    · exact Or.inl value
    · simp only [quotient, remainder] at fails
      split at fails <;> cases fails
      exact Or.inr ⟨by simp, same⟩
  | eq => exact Or.inl ⟨_, rfl⟩
  | and =>
    obtain ⟨p, truth⟩ := exists_truthOf left
    obtain ⟨q, other⟩ := exists_truthOf right
    exact Or.inl ⟨_, apply_and_eq_ok_iff.2 ⟨p, truth, q, other, rfl⟩⟩
  | or =>
    obtain ⟨p, truth⟩ := exists_truthOf left
    obtain ⟨q, other⟩ := exists_truthOf right
    exact Or.inl ⟨_, apply_or_eq_ok_iff.2 ⟨p, truth, q, other, rfl⟩⟩

theorem eval_binary_of_ok {op : BinaryOp} {lhs rhs : Expression} {a b : Option Constant}
    (first : lhs.eval lookup = .ok a) (second : rhs.eval lookup = .ok b) :
    (binary op lhs rhs).eval lookup = op.apply a b := by
  cases op <;> simp [eval, first, second, BinaryOp.apply, bind, Except.bind, pure, Except.pure]

theorem eval_binary_of_left {op : BinaryOp} {lhs rhs : Expression} {e : Error}
    (fails : lhs.eval lookup = .error e) : (binary op lhs rhs).eval lookup = .error e := by
  cases op <;> simp [eval, fails, bind, Except.bind]

theorem eval_binary_of_right {op : BinaryOp} {lhs rhs : Expression} {a : Option Constant}
    {e : Error} (first : lhs.eval lookup = .ok a)
    (truth : op = .and ∨ op = .or → ∃ p, truthOf a = .ok p) (fails : rhs.eval lookup = .error e) :
    (binary op lhs rhs).eval lookup = .error e := by
  cases op with
  | and | or =>
    obtain ⟨p, known⟩ := truth (by simp)
    simp [eval, first, known, fails, bind, Except.bind]
  | _ => simp [eval, first, fails, bind, Except.bind]

/-- The only error of a well-typed expression is a division by zero, however many variables are
known. -/
theorem eval_wellTyped {e : Expression} (typed : ∀ v d, lookup v = some d → d.dataType = v.dataType)
    (wellTyped : e.WellTyped) :
    (∃ result, e.eval lookup = .ok result) ∨
      ¬e.DivisionFree ∧ e.eval lookup = .error .divisionByZero := by
  have types : ∀ {e : Expression} {result : Option Constant}, e.eval lookup = .ok result →
      ∀ c, result = some c → c.dataType = e.dataType := by
    rintro e result value c rfl
    exact dataType_of_eval typed value
  induction e with
  | var v => exact Or.inl ⟨_, eval_var v⟩
  | const c => exact Or.inl ⟨_, eval_const c⟩
  | not operand ih =>
    rcases ih wellTyped.1 with ⟨a, value⟩ | ⟨divides, fails⟩
    · obtain ⟨b, truth⟩ := exists_truthOf fun c known => (types value c known).trans wellTyped.2
      exact Or.inl ⟨_, eval_not_eq_ok_iff.2 ⟨a, value, b, truth, rfl⟩⟩
    · exact Or.inr ⟨divides, by simp [eval, fails, bind, Except.bind]⟩
  | binary op lhs rhs left right =>
    rcases left wellTyped.1 with ⟨a, first⟩ | ⟨divides, fails⟩
    · rcases right wellTyped.2.1 with ⟨b, second⟩ | ⟨divides, fails⟩
      · rw [eval_binary_of_ok first second]
        refine (exists_apply wellTyped (types first) (types second)).imp_right ?_
        rintro ⟨division, fails⟩
        refine ⟨fun free => ?_, fails⟩
        rcases division with rfl | rfl
        · exact free.1 rfl
        · exact free.2.1 rfl
      · refine Or.inr ⟨fun free => divides free.2.2.2, eval_binary_of_right first ?_ fails⟩
        intro connective
        refine exists_truthOf fun c known => (types first c known).trans (wellTyped.2.2.1.trans ?_)
        rcases connective with rfl | rfl <;> rfl
    · exact Or.inr ⟨fun free => divides free.2.2.1, eval_binary_of_left fails⟩

/-- Without division there are no errors. -/
theorem exists_eval {e : Expression} (typed : ∀ v d, lookup v = some d → d.dataType = v.dataType)
    (total : e.Total) : ∃ result, e.eval lookup = .ok result :=
  (eval_wellTyped typed total.wellTyped).resolve_right fun fails => fails.1 total.divisionFree

/-- Known operands of an operator give a known result or an error. -/
theorem exists_value_of_apply {op : BinaryOp} {c d : Constant} {result : Option Constant}
    (applied : op.apply (some c) (some d) = .ok result) : ∃ r, result = some r := by
  have whole : ∀ {f : Int → Int → Except Error Constant},
      onIntegers f (some c) (some d) = .ok result → ∃ r, result = some r := by
    intro f given
    cases c <;> cases d <;> simp only [onIntegers, reduceCtorEq] at given
    rename_i m n
    cases applied : f m n with
    | error e => simp [applied, Functor.map, Except.map] at given
    | ok r =>
      rw [applied] at given
      exact ⟨r, (Except.ok.inj given).symm⟩
  have truth : ∀ {c : Constant} {p : Option Bool}, truthOf (some c) = .ok p → ∃ b, p = some b := by
    intro c p given
    cases c <;> simp [truthOf] at given
    exact ⟨_, given.symm⟩
  cases op with
  | add | sub | mul | div | mod | lt => exact whole applied
  | eq => exact ⟨_, (Except.ok.inj applied).symm⟩
  | and =>
    obtain ⟨p, first, q, second, rfl⟩ := apply_and_eq_ok_iff.1 applied
    obtain ⟨a, rfl⟩ := truth first
    obtain ⟨b, rfl⟩ := truth second
    cases a <;> cases b <;> exact ⟨_, rfl⟩
  | or =>
    obtain ⟨p, first, q, second, rfl⟩ := apply_or_eq_ok_iff.1 applied
    obtain ⟨a, rfl⟩ := truth first
    obtain ⟨b, rfl⟩ := truth second
    cases a <;> cases b <;> exact ⟨_, rfl⟩

/-- With every variable known an expression has a value or an error. -/
theorem exists_value_of_eval {env : Environment} {e : Expression} {result : Option Constant}
    (evaluated : e.eval env.lookup = .ok result) : ∃ c, result = some c := by
  induction e generalizing result with
  | var v => exact ⟨env v, (Except.ok.inj ((eval_var v).symm.trans evaluated)).symm⟩
  | const c => exact ⟨c, (Except.ok.inj ((eval_const c).symm.trans evaluated)).symm⟩
  | not operand ih =>
    obtain ⟨a, value, b, truth, rfl⟩ := eval_not_eq_ok_iff.1 evaluated
    obtain ⟨c, rfl⟩ := ih value
    cases c <;> simp [truthOf] at truth
    subst truth
    exact ⟨_, rfl⟩
  | binary op lhs rhs left right =>
    obtain ⟨a, first, b, second, applied⟩ := eval_binary_eq_ok_iff.1 evaluated
    obtain ⟨c, rfl⟩ := left first
    obtain ⟨d, rfl⟩ := right second
    exact exists_value_of_apply applied

theorem eval_total {env : Environment} (typed : env.Typed) {e : Expression} (total : e.Total) :
    ∃ c, e.eval env.lookup = .ok (some c) ∧ c.dataType = e.dataType := by
  have values : ∀ v d, env.lookup v = some d → d.dataType = v.dataType := by
    rintro v d ⟨⟩
    exact typed v
  obtain ⟨result, value⟩ := exists_eval values total
  obtain ⟨c, rfl⟩ := exists_value_of_eval value
  exact ⟨c, value, dataType_of_eval values value⟩

/-- A boolean expression is true or false in a typed environment. -/
theorem eval_total_bool {env : Environment} (typed : env.Typed) {e : Expression} (total : e.Total)
    (boolean : e.dataType = .bool) : ∃ b, e.eval env.lookup = .ok (some (.bool b)) := by
  obtain ⟨c, value, type⟩ := eval_total typed total
  obtain ⟨b, rfl⟩ := exists_bool (type.trans boolean)
  exact ⟨b, value⟩

end Expression

end EventCheck
