import EventCheck.Proofs.Enumeration

/-!
The answers of the enumerating solver about formulas that divide. A literal may have no value then,
and counts neither for nor against an assignment. What is called unsatisfiable still holds nowhere,
and a formula is called satisfiable exactly if a model is found, which gives every variable of a
cube a value of its type and satisfies it.
-/

namespace EventCheck

/-- The atoms are boolean, and their operands have the types that they need. They may divide. -/
def Formula.Checked (f : Formula) : Prop := f.AllAtoms fun e => e.WellTyped ∧ e.dataType = .bool

/-- What the answers of the solver about a formula say is so. -/
structure Solver.Truthful (solver : Solver) (f : Formula) : Prop where
  /-- What is called unsatisfiable holds under no assignment, even if it leaves variables open. -/
  refutes : solver.check f = .unsat →
    ∀ lookup : Variable → Option Constant, TypedLookup lookup → ¬f.Holds lookup
  finds_iff : solver.check f = .sat ↔ ∃ m, solver.model f = some m
  typed : ∀ m, solver.model f = some m → TypedLookup m.get?
  holds : ∀ m, solver.model f = some m → f.Holds m.get?
  /-- Whatever values the other variables get, the model satisfies the formula. -/
  extends_holds : ∀ m, solver.model f = some m →
    ∀ lookup : Variable → Option Constant, Enumeration.Agrees m lookup → f.Holds lookup

namespace Enumeration

variable {range : Nat} {m : Model} {c : Cube}

/-! ### Complete models -/

/-- A model that is found has a value for every variable of the cube. -/
theorem exists_get?_of_checkCube {found : Model} (given : checkCube range c = .model found)
    {v : Variable} (occurs : v ∈ cubeVariables c) : ∃ d, found.get? v = some d := by
  obtain ⟨index, looked, _⟩ := checkCube_eq_model given
  rw [looked]
  exact known_lookupIn occurs

/-- The literals of a cube keep their values where all of its variables do. -/
theorem holds_of_agrees {more : Variable → Option Constant} (holds : c.Holds m.get?)
    (complete : ∀ v ∈ cubeVariables c, ∃ d, m.get? v = some d) (agrees : Agrees m more) :
    c.Holds more := by
  intro l member
  rw [← holds l member]
  refine Expression.eval_congr fun v occurs => ?_
  obtain ⟨d, known⟩ := complete v (mem_cubeVariables.2 ⟨l, member, occurs⟩)
  rw [known, agrees v d known]

/-! ### Models of formulas -/

theorem check_eq_sat_iff {cubes : List Cube} : checkCubes range cubes = .sat ↔
    ∃ found, cubes.findSome? (fun c => (checkCube range c).model?) = some found := by
  constructor
  · exact check_sat
  rintro ⟨found, first⟩
  induction cubes with
  | nil => cases first
  | cons c rest ih =>
    rw [List.findSome?_cons] at first
    unfold checkCubes
    cases outcome : checkCube range c with
    | model m => rfl
    | none =>
      simp only [outcome, Outcome.model?] at first
      exact ih first
    | undecided =>
      simp only [outcome, Outcome.model?] at first
      simp only [Outcome.result, ih first, if_true]

/-- The model of a formula is that of one of its cubes. -/
theorem model_eq_some {f : Formula} {found : Model} (given : model range f = some found) :
    ∃ c ∈ f.cubes, checkCube range c = .model found := by
  obtain ⟨c, member, outcome⟩ := List.exists_of_findSome?_eq_some given
  refine ⟨c, member, ?_⟩
  cases checked : checkCube range c with
  | model m =>
    rw [checked] at outcome
    rw [Option.some.inj outcome]
  | none | undecided =>
    rw [checked] at outcome
    cases outcome

end Enumeration

open Enumeration in
/-- The enumerating solver tells the truth about every formula with well-typed atoms, however far it
tries integers. -/
theorem Solver.truthful_enumeration (range : Nat) {f : Formula} (checked : f.Checked) :
    (Solver.enumeration range).Truthful f := by
  have models : ∀ m, (Solver.enumeration range).model f = some m → ∃ c ∈ f.cubes,
      TypedLookup m.get? ∧ c.Holds m.get? ∧ ∀ v ∈ cubeVariables c, ∃ d, m.get? v = some d := by
    intro m given
    obtain ⟨c, member, found⟩ := model_eq_some given
    obtain ⟨proper, all⟩ := model_of_checkCube found (checked c member)
    refine ⟨c, member, proper.typed, fun l inside => ?_, fun v => exists_get?_of_checkCube found⟩
    simpa using literalHolds_eq_some_iff.1 (all l inside)
  constructor
  · exact fun unsat lookup typed => Solver.sound_enumeration range f unsat lookup typed
  · exact check_eq_sat_iff
  · intro m given
    obtain ⟨_, _, typed, _⟩ := models m given
    exact typed
  · intro m given
    obtain ⟨c, member, _, holds, _⟩ := models m given
    exact ⟨c, member, holds⟩
  · intro m given lookup agrees
    obtain ⟨c, member, _, holds, complete⟩ := models m given
    exact ⟨c, member, holds_of_agrees holds complete agrees⟩

/-! ### A formula that divides -/

/-- Ten divided by the variable is five. -/
def tenOverIsFive : Formula :=
  .ofLiteral ⟨.binary .eq (.binary .div (.const (.int 10)) (.var ⟨"x", .int, none⟩))
    (.const (.int 5)), true⟩

theorem checked_tenOverIsFive : tenOverIsFive.Checked := by
  intro c member l inside
  obtain rfl := SortedSet.mem_singleton.1 (Formula.mem_of_mem_normalize member)
  obtain rfl := SortedSet.mem_singleton.1 inside
  exact ⟨⟨⟨trivial, trivial, rfl, rfl⟩, trivial, rfl, rfl⟩, rfl⟩

/-- Its model is found past the assignment under which it has no value. -/
theorem exists_model_tenOverIsFive : ∃ m, (Solver.enumeration 8).check tenOverIsFive = .sat ∧
    (Solver.enumeration 8).model tenOverIsFive = some m ∧ TypedLookup m.get? ∧
    tenOverIsFive.Holds m.get? := by
  have truthful := Solver.truthful_enumeration 8 checked_tenOverIsFive
  have sat : (Solver.enumeration 8).check tenOverIsFive = .sat := by decide +kernel
  obtain ⟨m, found⟩ := truthful.finds_iff.1 sat
  exact ⟨m, sat, found, truthful.typed m found, truthful.holds m found⟩

end EventCheck
