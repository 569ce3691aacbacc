import EventCheck.Proofs.RoundTrips

/-!
Inclusion of formulas as far as a solver knows it. For formulas that come from expressions the
answer is always that of the solver about the first formula together with the complement of the
second one: where the form of the cubes shows the inclusion, nothing is left to be satisfied. So
joins are least upper bounds of what is found, if the solver gives up a disjunction when it gives up
both sides.
-/

namespace EventCheck

variable {f g h : Formula} {env : Environment}

/-- A disjunction of formulas that are called unsatisfiable is called unsatisfiable, also the one
of no formulas. -/
structure Solver.Disjunctive (solver : Solver) : Prop where
  bottom : solver.isUnsat .bottom = true
  disjunction : ∀ f g, solver.isUnsat f = true → solver.isUnsat g = true →
    solver.isUnsat (f.disjunction g) = true

/-- The enumerating solver decides about each cube by itself. -/
theorem Solver.disjunctive_enumeration (range : Nat) : (Solver.enumeration range).Disjunctive where
  bottom := rfl
  disjunction f g left right := by
    rw [isUnsat_enumeration_iff] at left right ⊢
    intro c member
    rcases SortedSet.mem_union.1 (Formula.mem_of_mem_normalize member) with member | member
    · exact left c member
    · exact right c member

theorem Formula.disjunction_conjunction (f g h : Formula) :
    (f.disjunction g).conjunction h = (f.conjunction h).disjunction (g.conjunction h) := by
  rw [conjunction_comm f h, conjunction_comm g h, conjunction_comm]
  exact distributive_lattice.meet_join h f g

/-- Wherever the atoms of a formula from expressions have values, these are truth values. -/
theorem Formula.Obtained.values (obtained : g.Obtained) (typed : env.Typed)
    (evaluates : ∀ e ∈ g.atoms, ∃ result, e.eval env.lookup = .ok result) :
    g.AllAtoms fun e => ∃ b, e.eval env.lookup = .ok (some (.bool b)) := by
  intro c member l inside
  obtain ⟨result, evaluated⟩ := evaluates l.atom (mem_atoms.2 ⟨c, member, l, inside, rfl⟩)
  exact Expression.eval_bool_of_ok typed evaluated (obtained.atoms c member l inside).boolean

namespace PredicateDomain

variable {domain : PredicateDomain}

/-- An inclusion is found exactly if the solver gives up the complement within the formula. -/
theorem exists_included_eq (domain : PredicateDomain) (disjunctive : domain.solver.Disjunctive)
    (obtained : g.Obtained) :
    ∃ complement, ∀ f : Formula,
      domain.included f g = .ok (domain.solver.isUnsat (f.conjunction complement)) := by
  have returns := Formula.ofExpression_of_atoms obtained.atoms
  obtain ⟨complement, formed, excludes⟩ := Formula.exists_ofExpression_not returns
  have checked : Expression.notChecked g.toExpression = .ok (.not g.toExpression) :=
    Expression.notChecked_eq_ok_iff.2 ⟨rfl, Formula.dataType_of_ofExpression returns⟩
  refine ⟨complement, fun f => ?_⟩
  unfold PredicateDomain.included
  by_cases implied : f.implies g = true
  · have nothing : f.conjunction complement = .bottom := excludes.mono implied
    rw [if_pos implied, nothing, disjunctive.bottom]
  · rw [if_neg implied]
    exact bind_eq_ok_iff.2 ⟨_, checked, bind_eq_ok_iff.2 ⟨complement, formed, rfl⟩⟩

theorem included_of_implies (implied : f.implies g = true) : domain.included f g = .ok true :=
  if_pos implied

/-- What two formulas are included in, their join is included in. -/
theorem included_join (disjunctive : domain.solver.Disjunctive) (obtained : h.Obtained)
    (left : domain.included f h = .ok true) (right : domain.included g h = .ok true) :
    domain.included (f.disjunction g) h = .ok true := by
  obtain ⟨complement, answer⟩ := exists_included_eq domain disjunctive obtained
  rw [answer, Except.ok.injEq] at left right ⊢
  rw [Formula.disjunction_conjunction]
  exact disjunctive.disjunction _ _ left right

/-- What the domain answers about inclusions of two formulas in each other, in their join and in a
third formula. -/
structure OrdersBySolver (domain : PredicateDomain) (f g h : Formula) : Prop where
  decides : ∃ answer, domain.included f g = .ok answer
  /-- An inclusion that is found is one, wherever the atoms of the greater formula have values. -/
  sound : domain.included f g = .ok true → ∀ env : Environment, env.Typed →
    (∀ e ∈ g.atoms, ∃ result, e.eval env.lookup = .ok result) →
      f.Holds env.lookup → g.Holds env.lookup
  left : domain.included f (domain.lattice.join f g) = .ok true
  right : domain.included g (domain.lattice.join f g) = .ok true
  least : domain.included f h = .ok true → domain.included g h = .ok true →
    domain.included (domain.lattice.join f g) h = .ok true

/-- With the enumerating solver the domain orders formulas from expressions, whatever they divide by
and however far integers are tried. Only the greater formulas have to come from expressions. -/
theorem ordersBySolver_enumeration (range : Nat) (abstraction : AbstractionType)
    (greater : g.Obtained) (bound : h.Obtained) :
    (PredicateDomain.mk (.enumeration range) abstraction).OrdersBySolver f g h := by
  have disjunctive := Solver.disjunctive_enumeration range
  have upper := Formula.disjunction_implies_iff.1 (Formula.implies_refl (f.disjunction g))
  constructor
  · obtain ⟨complement, answer⟩ := exists_included_eq ⟨.enumeration range, abstraction⟩
      disjunctive greater
    exact ⟨_, answer f⟩
  · intro included env typed evaluates holds
    refine holds_of_included_of_values ?_ (greater.values typed evaluates) included holds
    exact (Solver.sound_enumeration range).spares (Environment.typedLookup typed)
  · exact included_of_implies upper.1
  · exact included_of_implies upper.2
  · exact included_join disjunctive bound

/-! ### An inclusion that form does not show -/

def belowThree : Formula :=
  .ofLiteral ⟨.binary .lt (.var ⟨"x", .int, none⟩) (.const (.int 3)), true⟩

def belowThreeOrHalf : Formula :=
  belowThree.disjunction (.ofLiteral ⟨.binary .eq
    (.binary .div (.const (.int 10)) (.var ⟨"x", .int, none⟩)) (.const (.int 5)), true⟩)

/-- That two is below three the solver finds, and so the inclusion of the join in a formula that
only one of its sides has a cube of. -/
theorem included_join_isTwo : isTwo.implies belowThree = false ∧
    (PredicateDomain.mk (.enumeration 4) .boolean).included isTwo belowThree = .ok true ∧
    twos.Typed ∧ isTwo.Holds twos.lookup ∧ belowThree.Holds twos.lookup ∧
    (PredicateDomain.mk (.enumeration 4) .boolean).included (isTwo.disjunction belowThree)
      belowThreeOrHalf = .ok true := by
  have two : isTwo.Holds twos.lookup := Formula.holds_ofLiteral.2 rfl
  have lower : (PredicateDomain.mk (.enumeration 4) .boolean).included isTwo belowThree =
      .ok true := by decide +kernel
  have first : (PredicateDomain.mk (.enumeration 4) .boolean).included isTwo belowThreeOrHalf =
      .ok true := by decide +kernel
  have second : (PredicateDomain.mk (.enumeration 4) .boolean).included belowThree
      belowThreeOrHalf = .ok true := by decide +kernel
  have greater : belowThree.Obtained := Formula.obtained_ofLiteral ⟨rfl, trivial, rfl⟩
  have bound : belowThreeOrHalf.Obtained :=
    .disjunction greater (Formula.obtained_ofLiteral ⟨rfl, trivial, rfl⟩)
  have orders := ordersBySolver_enumeration (f := isTwo) 4 .boolean greater bound
  refine ⟨by decide +kernel, lower, typed_twos, two, ?_, orders.least first second⟩
  refine orders.sound lower twos typed_twos ?_ two
  intro e member
  obtain ⟨c, inside, l, occurs, rfl⟩ := Formula.mem_atoms.1 member
  obtain rfl := SortedSet.mem_singleton.1 (Formula.mem_of_mem_normalize inside)
  obtain rfl := SortedSet.mem_singleton.1 occurs
  exact ⟨some (.bool true), rfl⟩

end PredicateDomain

end EventCheck
