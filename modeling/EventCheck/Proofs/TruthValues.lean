import EventCheck.Proofs.Enumeration

/-!
Formulas over truth values, which the enumerating solver decides. With a value for each of its
variables a literal is true or false, so a search through all values leaves nothing open. Up to
fourteen variables there is a try for each combination of values.
-/

namespace EventCheck

/-! ### Boolean expressions -/

namespace Expression

variable {e : Expression}

/-- Built from variables and constants that are truth values, with connectives and equations. -/
def Boolean : Expression → Prop
  | var v => v.dataType = .bool
  | const c => c.dataType = .bool
  | not operand => operand.Boolean
  | binary op lhs rhs => (op = .eq ∨ op = .and ∨ op = .or) ∧ lhs.Boolean ∧ rhs.Boolean

theorem Boolean.dataType (boolean : e.Boolean) : e.dataType = .bool := by
  cases e with
  | var _ | const _ => exact boolean
  | not _ => rfl
  | binary op lhs rhs =>
    obtain ⟨rfl | rfl | rfl, _⟩ := boolean <;> rfl

theorem Boolean.total (boolean : e.Boolean) : e.Total := by
  induction e with
  | var _ | const _ => exact ⟨trivial, trivial⟩
  | not operand ih =>
    exact ⟨⟨(ih boolean).wellTyped, Boolean.dataType boolean⟩, (ih boolean).divisionFree⟩
  | binary op lhs rhs left right =>
    obtain ⟨form, first, second⟩ := boolean
    have operands : op.operandType lhs = .bool := by
      rcases form with rfl | rfl | rfl
      · exact first.dataType
      · rfl
      · rfl
    constructor
    · exact ⟨(left first).wellTyped, (right second).wellTyped,
        first.dataType.trans operands.symm, second.dataType.trans operands.symm⟩
    · refine ⟨?_, ?_, (left first).divisionFree, (right second).divisionFree⟩ <;>
        rcases form with rfl | rfl | rfl <;> simp

theorem Boolean.variables (boolean : e.Boolean) : ∀ v ∈ e.variables, v.dataType = .bool := by
  induction e with
  | var w =>
    intro v occurs
    rw [SortedSet.mem_singleton.1 occurs]
    exact boolean
  | const _ => simp [Expression.variables]
  | not operand ih => exact ih boolean
  | binary op lhs rhs left right =>
    intro v occurs
    rcases SortedSet.mem_union.1 occurs with occurs | occurs
    · exact left boolean.2.1 v occurs
    · exact right boolean.2.2 v occurs

end Expression

/-- The lookup of a truth value for every variable. -/
def truths (truth : Variable → Bool) (v : Variable) : Option Constant := some (.bool (truth v))

/-! ### Searches that leave nothing open -/

namespace Enumeration

variable {lookup : Variable → Option Constant} {m : Model} {c : Cube} {l : Literal} {range : Nat}

/-- A literal is true or false if its variables are known. -/
theorem exists_literalHolds (typed : TypedLookup lookup)
    (known : ∀ v ∈ l.atom.variables, ∃ d, lookup v = some d) (total : l.atom.Total)
    (boolean : l.atom.dataType = .bool) : ∃ b, literalHolds lookup l = some b := by
  let env : Environment := fun v => (lookup v).getD v.dataType.default
  have completed : env.Typed := by
    intro v
    cases found : lookup v with
    | none => simpa [env, found] using DataType.dataType_default v.dataType
    | some d => simpa [env, found] using typed v d found
  obtain ⟨b, value⟩ := Expression.eval_total_bool completed total boolean
  have same : l.atom.eval lookup = l.atom.eval env.lookup := by
    refine Expression.eval_congr fun v occurs => ?_
    obtain ⟨d, found⟩ := known v occurs
    simp [Environment.lookup, env, found]
  refine ⟨b == l.positive, literalHolds_eq_some_iff.2 ?_⟩
  rw [same, value]
  cases b <;> cases l.positive <;> rfl

theorem allHold_ne_none {literals : List Literal}
    (decided : ∀ l ∈ literals, ∃ b, literalHolds lookup l = some b) :
    allHold lookup literals ≠ none := by
  induction literals with
  | nil => simp [allHold]
  | cons l rest ih =>
    obtain ⟨b, value⟩ := decided l (by simp)
    have later := ih fun l member => decided l (by simp [member])
    cases b <;> simp [allHold, value, later]

theorem tryAssignments_ne_undecided {choices : Choices} {rest : Outcome} {remaining index : Nat}
    (closed : rest ≠ .undecided)
    (decided : ∀ i, allHold (lookupIn m (choices.assignment i)) c.toList ≠ none) :
    tryAssignments c m choices rest remaining index ≠ .undecided := by
  induction remaining generalizing index with
  | zero => exact closed
  | succ remaining ih =>
    unfold tryAssignments
    dsimp only
    split
    · simp
    · exact ih
    · rename_i unknown
      exact absurd unknown (decided index)

/-- A search through all values of the variables decides a cube without division. -/
theorem checkCube_ne_undecided (exhaustive : Exhaustive c)
    (decided : ∀ l ∈ c, l.atom.Total ∧ l.atom.dataType = .bool) :
    checkCube range c ≠ .undecided := by
  rw [checkCube_eq]
  split
  · simp
  · rw [if_pos (complete_iff_exhaustive.2 exhaustive)]
    refine tryAssignments_ne_undecided (by simp) fun index => allHold_ne_none fun l member => ?_
    have proper := proper_propagate fun l inside => (decided l inside).imp_left (·.wellTyped)
    have completes := @completes_lookupIn c range index proper
    exact exists_literalHolds completes.typed
      (fun v occurs => completes.known v (mem_cubeVariables.2 ⟨l, member, occurs⟩))
      (decided l member).1 (decided l member).2

theorem checkCubes_ne_unknown {cubes : List Cube}
    (decided : ∀ c ∈ cubes, checkCube range c ≠ .undecided) :
    checkCubes range cubes ≠ .unknown := by
  induction cubes with
  | nil => simp [checkCubes]
  | cons c rest ih =>
    have later := ih fun c member => decided c (by simp [member])
    unfold checkCubes
    cases outcome : checkCube range c with
    | model m => simp [Outcome.result]
    | none => simpa [Outcome.result] using later
    | undecided => exact absurd outcome (decided c (by simp))

/-- Each of at most fourteen truth values has two values to try, and there are enough tries. -/
theorem exhaustive_of_size (booleans : ∀ v ∈ cubeVariables c, v.dataType = .bool)
    (few : (cubeVariables c).size ≤ 14) : Exhaustive c := by
  have fewer : (unforced c).length ≤ 14 := Nat.le_trans (List.length_filter_le _ _) few
  constructor
  · exact fun v member => booleans v (mem_unforced.1 member).1
  · exact Nat.pow_le_pow_right (by decide) fewer

end Enumeration

/-! ### Decided formulas -/

namespace Formula

variable {f : Formula}

theorem decided_of_boolean (boolean : f.AllAtoms Expression.Boolean) : f.Decided :=
  AllAtoms.imp (fun _ atom => ⟨atom.total, atom.dataType⟩) boolean

theorem within_of_boolean (boolean : f.AllAtoms Expression.Boolean) :
    f.Within (·.dataType = .bool) :=
  AllAtoms.imp (fun _ atom => atom.variables) boolean

/-- A typed environment has a truth value for each variable of the formula. -/
theorem holds_truths_of_typed (boolean : f.AllAtoms Expression.Boolean) {env : Environment}
    (typed : env.Typed) (holds : f.Holds env.lookup) :
    f.Holds (truths fun v => env v = .bool true) := by
  refine ((within_of_boolean boolean).holds_iff fun v type => ?_).1 holds
  obtain ⟨b, value⟩ := Expression.exists_bool ((typed v).trans type)
  cases b <;> simp [Environment.lookup, truths, value]

end Formula

/-- The enumerating solver decides formulas over truth values whose cubes have at most fourteen
variables each: it never leaves open whether they are satisfiable. -/
theorem Solver.decides_enumeration (range : Nat) {f : Formula}
    (boolean : f.AllAtoms Expression.Boolean)
    (few : ∀ c ∈ f.cubes, (Enumeration.cubeVariables c).size ≤ 14) :
    (Solver.enumeration range).check f = .sat ∧ (∃ truth, f.Holds (truths truth)) ∨
      (Solver.enumeration range).check f = .unsat ∧ ∀ truth, ¬f.Holds (truths truth) := by
  have decided := Formula.decided_of_boolean boolean
  have within := Formula.within_of_boolean boolean
  cases answer : (Solver.enumeration range).check f with
  | sat =>
    obtain ⟨found, _, typed, holds, _⟩ := Solver.model_enumeration decided answer
    exact Or.inl ⟨rfl, _, Formula.holds_truths_of_typed boolean typed holds⟩
  | unsat =>
    refine Or.inr ⟨rfl, fun truth holds => ?_⟩
    -- variables of other types do not occur, so their values can be left out
    let lookup : Variable → Option Constant :=
      fun v => if v.dataType = .bool then truths truth v else none
    have typed : TypedLookup lookup := by
      intro v d known
      by_cases type : v.dataType = .bool
      · rw [show lookup v = truths truth v from if_pos type] at known
        rw [← Option.some.inj known, type]
        rfl
      · rw [show lookup v = none from if_neg type] at known
        cases known
    refine Solver.sound_enumeration range f answer lookup typed ?_
    exact (within.holds_iff fun v type => (if_pos type).symm).1 holds
  | unknown =>
    refine absurd answer (Enumeration.checkCubes_ne_unknown fun c member => ?_)
    refine Enumeration.checkCube_ne_undecided ?_ (decided c member)
    refine Enumeration.exhaustive_of_size (fun v occurs => ?_) (few c member)
    obtain ⟨l, inside, among⟩ := Enumeration.mem_cubeVariables.1 occurs
    exact within c member l inside v among

/-! ### A ring of equations -/

/-- One of several truth values. -/
def switch (n : Nat) : Variable := ⟨"a", .bool, some n⟩

/-- Each truth value equals the next one, but the last one differs from the first one. -/
def ring (n : Nat) : Cube :=
  .ofList (⟨.binary .eq (.var (switch n)) (.var (switch 0)), false⟩ ::
    (List.range n).map fun i => ⟨.binary .eq (.var (switch i)) (.var (switch (i + 1))), true⟩)

theorem not_holds_ring (n : Nat) (truth : Variable → Bool) :
    ¬(Formula.ofCube (ring n)).Holds (truths truth) := by
  intro holds
  have literal := Formula.holds_ofCube.1 holds
  have equation : ∀ {v w : Variable} {b : Bool},
      (Expression.binary .eq (.var v) (.var w)).eval (truths truth) = .ok (some (.bool b)) →
        decide (truth v = truth w) = b := by
    intro v w b value
    simpa [Expression.eval, truths, Expression.partialEq, bind, Except.bind, pure, Except.pure]
      using value
  have chain : ∀ i ≤ n, truth (switch 0) = truth (switch i) := by
    intro i bound
    induction i with
    | zero => rfl
    | succ i ih =>
      have member := literal ⟨.binary .eq (.var (switch i)) (.var (switch (i + 1))), true⟩
        (SortedSet.mem_ofList.2 (List.mem_cons_of_mem _
          (List.mem_map.2 ⟨i, List.mem_range.2 bound, rfl⟩)))
      exact (ih (by omega)).trans (of_decide_eq_true (equation member))
  have last := literal ⟨.binary .eq (.var (switch n)) (.var (switch 0)), false⟩
    (SortedSet.mem_ofList.2 List.mem_cons_self)
  exact of_decide_eq_false (equation last) (chain n (Nat.le_refl n)).symm

theorem boolean_ring (n : Nat) : (Formula.ofCube (ring n)).AllAtoms Expression.Boolean := by
  refine Formula.allAtoms_ofCube fun l member => ?_
  rcases List.mem_cons.1 (SortedSet.mem_ofList.1 member) with rfl | member
  · exact ⟨Or.inl rfl, rfl, rfl⟩
  · obtain ⟨i, _, rfl⟩ := List.mem_map.1 member
    exact ⟨Or.inl rfl, rfl, rfl⟩

/-- No value is forced, and only after the last of all combinations of values is it clear that none
of them fits. -/
theorem check_ring : (Enumeration.cubeVariables (ring 13)).size = 14 ∧
    (Solver.enumeration 8).check (.ofCube (ring 13)) = .unsat := by
  have size : (Enumeration.cubeVariables (ring 13)).size = 14 := by decide +kernel
  refine ⟨size, ?_⟩
  have few : ∀ c ∈ (Formula.ofCube (ring 13)).cubes, (Enumeration.cubeVariables c).size ≤ 14 := by
    intro c member
    rw [SortedSet.mem_singleton.1 (Formula.mem_of_mem_normalize member)]
    exact Nat.le_of_eq size
  rcases Solver.decides_enumeration 8 (boolean_ring 13) few with ⟨_, truth, holds⟩ | ⟨unsat, _⟩
  · exact absurd holds (not_holds_ring 13 truth)
  · exact unsat

end EventCheck
