import EventCheck.Proofs.Exactness

/-!
Known values along the runs of a program. A map that describes the environment before a statement
is followed by one that describes the environment after it: what is evaluated with the known values
only is what the program computes, and an assumption that holds there is not taken to fail.
-/

namespace EventCheck

variable {m : ValueMap} {env next : Environment}

namespace ValueMap

/-- The known values have the types of their variables. -/
theorem Describes.typed (describes : m.Describes env) (typed : env.Typed) (v : Variable)
    (c : Constant) (known : m.value? v = some c) : c.dataType = v.dataType := by
  obtain rfl := Option.some.inj (describes.refines v c known)
  exact typed v

end ValueMap

/-- Well-typed statements have well-typed expressions. -/
theorem Statement.WellTyped.uses {statement : Statement} (wellTyped : statement.WellTyped) :
    statement.Uses (fun _ => True) Expression.WellTyped := by
  cases statement with
  | declare _ | signalFailure _ | nop => trivial
  | assign _ _ => exact ⟨trivial, wellTyped.1⟩
  | assume _ | waitUntil _ => exact wellTyped.1
  | broadcast _ | broadcastAndWait _ | waitSecs _ | «return» _ => exact wellTyped
  | call _ _ _ => exact ⟨wellTyped, fun _ _ => trivial⟩

namespace KnownValues

/-- A well-typed expression is evaluated without an error: a division by zero leaves its value
open. -/
theorem exists_evaluate {e : Expression} (describes : m.Describes env) (typed : env.Typed)
    (wellTyped : e.WellTyped) : ∃ value, evaluate m e = .ok value := by
  unfold evaluate
  rcases Expression.eval_wellTyped (describes.typed typed) wellTyped with ⟨result, value⟩ | fails
  · rw [value]
    cases result <;> exact ⟨_, rfl⟩
  · rw [fails.2]
    exact ⟨_, rfl⟩

theorem exists_refine {before : ValueMap} {other : Expression} (n : ValueMap) (side : Expression)
    (describes : before.Describes env) (typed : env.Typed) (wellTyped : other.WellTyped) :
    ∃ refined, refine before n side other = .ok refined := by
  obtain ⟨value, evaluated⟩ := exists_evaluate describes typed wellTyped
  unfold refine
  split
  · rw [evaluated]
    cases value <;> exact ⟨_, rfl⟩
  · exact ⟨_, rfl⟩

/-- An assumption that holds goes on with one map, which describes the same environment. -/
theorem exists_assume {condition : Expression} (describes : m.Describes env) (typed : env.Typed)
    (wellTyped : condition.WellTyped)
    (holds : condition.eval env.lookup = .ok (some (.bool true))) :
    ∃ n, assume m condition = .ok [n] ∧ n.Describes env := by
  obtain ⟨value, evaluated⟩ := exists_evaluate describes typed wellTyped
  unfold assume
  rw [evaluated]
  cases value with
  | bottom => rcases evaluate_eq_ok evaluated with ⟨c, _, same⟩ | same <;> cases same
  | value c =>
    obtain rfl := value_of_evaluate describes evaluated holds
    exact ⟨m, rfl, describes⟩
  | top =>
    have stays : ∃ n, (.ok [m] : Except Error (List ValueMap)) = .ok [n] ∧ n.Describes env :=
      ⟨m, rfl, describes⟩
    cases condition with
    | var _ | const _ | not _ => exact stays
    | binary op lhs rhs =>
      cases op with
      | eq =>
        obtain ⟨c, left, right⟩ := Expression.eval_eq_true_iff.1 holds
        obtain ⟨middle, first⟩ := exists_refine m lhs describes typed wellTyped.2.1
        obtain ⟨last, second⟩ := exists_refine middle rhs describes typed wellTyped.1
        refine ⟨last, by simp [bind, Except.bind, pure, Except.pure, first, second], ?_⟩
        -- both sides have the value `c`, so a variable on one side has the value of the other one
        have between : middle.Describes env := by
          refine refine_describes describes describes ?_ first
          rintro v rfl
          rw [right, ← Except.ok.inj ((Expression.eval_var v).symm.trans left)]
          rfl
        refine refine_describes describes between ?_ second
        rintro v rfl
        rw [left, ← Except.ok.inj ((Expression.eval_var v).symm.trans right)]
        rfl
      | add | sub | mul | div | mod | lt | and | or => exact stays

/-- Where a statement leads to an environment, the analysis goes on with one map, which describes
that environment. -/
theorem exists_step (operator : MergeOperator) {operation : LabeledOperation}
    (wellTyped : operation.statement.Uses (fun _ => True) Expression.WellTyped)
    (typed : env.Typed) (describes : m.Describes env)
    (executed : env.execute operation.statement = some next) :
    ∃ n, (knownValues operator).step m operation = .ok [n] ∧ n.Describes next := by
  have proper : m.isBottom = false := by
    cases m with
    | bottom => cases describes
    | values _ => rfl
  show ∃ n, step m operation = .ok [n] ∧ n.Describes next
  unfold step
  rw [if_neg (by simp [proper])]
  cases statement : operation.statement with
  | declare v =>
    rw [statement] at executed
    obtain rfl := Option.some.inj executed
    exact ⟨_, rfl, describes.update v (Or.inr rfl)⟩
  | assign v e =>
    rw [statement] at executed wellTyped
    obtain ⟨c, value, rfl⟩ := Environment.execute_assign.1 executed
    obtain ⟨known, evaluated⟩ := exists_evaluate describes typed wellTyped.2
    refine ⟨m.set v known, by simp [evaluated, bind, Except.bind, pure, Except.pure], ?_⟩
    refine describes.update v ?_
    rcases evaluate_eq_ok evaluated with ⟨d, _, rfl⟩ | rfl
    · rw [value_of_evaluate describes evaluated value]
      exact Or.inr rfl
    · exact Or.inl rfl
  | assume condition =>
    rw [statement] at executed wellTyped
    obtain ⟨holds, rfl⟩ := Environment.execute_assume.1 executed
    exact exists_assume describes typed wellTyped holds
  | call _ _ _ | «return» _ | broadcast _ | broadcastAndWait _ | waitUntil _ | waitSecs _
  | signalFailure _ | nop =>
    rw [statement] at executed
    obtain rfl := Option.some.inj executed
    exact ⟨m, rfl, describes⟩

/-- A run of well-typed statements is followed from its first environment to its last one. -/
theorem exists_stepAll (operator : MergeOperator) {operations : List LabeledOperation}
    (wellTyped : ∀ o ∈ operations, o.statement.WellTyped) (typed : env.Typed)
    (describes : m.Describes env)
    (executed : env.executeAll (operations.map (·.statement)) = some next) :
    ∃ n, (knownValues operator).stepAll operations [m] = .ok [n] ∧ n.Describes next := by
  induction operations generalizing m env with
  | nil =>
    obtain rfl := Option.some.inj executed
    exact ⟨m, rfl, describes⟩
  | cons operation rest ih =>
    obtain ⟨middle, first, later⟩ := Environment.executeAll_cons.1 executed
    have proper := wellTyped operation (by simp)
    obtain ⟨n, stepped, between⟩ := exists_step operator proper.uses typed describes first
    obtain ⟨last, all, after⟩ := ih (fun o member => wellTyped o (by simp [member]))
      (typed.execute proper first) between later
    exact ⟨last, (LabeledAnalysis.stepAll_of_step stepped).trans all, after⟩

end KnownValues

/-- The analysis of known values loses no run. Where a statement with well-typed expressions leads
from a described environment to another one, it goes on with one map, which describes that other
one; and so along every sequence of statements that keep the types. -/
theorem KnownValues.follows_execution (operator : MergeOperator) (typed : env.Typed)
    (describes : m.Describes env) :
    (∀ (operation : LabeledOperation) (next : Environment),
      operation.statement.Uses (fun _ => True) Expression.WellTyped →
      env.execute operation.statement = some next →
        ∃ n, (knownValues operator).step m operation = .ok [n] ∧ n.Describes next) ∧
      ∀ (operations : List LabeledOperation) (last : Environment),
        (∀ o ∈ operations, o.statement.WellTyped) →
        env.executeAll (operations.map (·.statement)) = some last →
          ∃ n, (knownValues operator).stepAll operations [m] = .ok [n] ∧ n.Describes last :=
  ⟨fun _ _ wellTyped executed => exists_step operator wellTyped typed describes executed,
    fun _ _ wellTyped executed => exists_stepAll operator wellTyped typed describes executed⟩

/-! ### An equation and a sum -/

open SingleAssignment (written copied pairEnvironment typed_pairEnvironment)

/-- A variable is assumed to be equal to another one, which then takes the sum of both. -/
def assumesEqual : LabeledOperation :=
  .synthesized (.assume (.binary .eq (.var written) (.var copied)))

def takesSum : LabeledOperation :=
  .synthesized (.assign copied (.binary .add (.var written) (.var copied)))

/-- The value of one variable is known. The equation makes the other one known, and then the sum
is. -/
theorem KnownValues.follows_equation :
    ∃ m n : ValueMap, m.value? written = some (.int 1) ∧ n.value? copied = some (.int 2) ∧
      (knownValues .sep).step (ValueMap.top.set copied (.value (.int 1))) assumesEqual = .ok [m] ∧
      m.Describes (pairEnvironment 1 1) ∧
      (knownValues .sep).stepAll [assumesEqual, takesSum]
        [ValueMap.top.set copied (.value (.int 1))] = .ok [n] ∧
      n.Describes (Function.update (pairEnvironment 1 1) copied (.int 2)) := by
  have describes : (ValueMap.top.set copied (.value (.int 1))).Describes (pairEnvironment 1 1) := by
    refine ValueMap.Describes.set_value ?_ rfl
    intro v c found
    cases found
  have wellTyped : ∀ o ∈ [assumesEqual, takesSum], o.statement.WellTyped := by
    intro o member
    simp only [List.mem_cons, List.not_mem_nil, or_false] at member
    rcases member with rfl | rfl
    · exact ⟨⟨trivial, trivial, rfl, rfl⟩, rfl⟩
    · exact ⟨⟨trivial, trivial, rfl, rfl⟩, rfl⟩
  obtain ⟨one, all⟩ := KnownValues.follows_execution .sep (typed_pairEnvironment 1 1) describes
  obtain ⟨m, stepped, first⟩ := one assumesEqual (pairEnvironment 1 1)
    ⟨trivial, trivial, rfl, rfl⟩ rfl
  obtain ⟨n, followed, second⟩ := all [assumesEqual, takesSum]
    (Function.update (pairEnvironment 1 1) copied (.int 2)) wellTyped rfl
  refine ⟨m, n, ?_, ?_, stepped, first, followed, second⟩
  · obtain rfl := List.singleton_inj.1 (Except.ok.inj stepped)
    rfl
  · obtain rfl := List.singleton_inj.1 (Except.ok.inj followed)
    rfl

end EventCheck
