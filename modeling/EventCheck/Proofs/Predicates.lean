import EventCheck.Analysis.Abstraction
import EventCheck.Proofs.Enumeration
import EventCheck.Proofs.Runs

/-!
Soundness of predicate abstraction. Whatever the solver can tell, a formula implies its
abstraction wherever the predicates have values, and an inclusion that is found is one. Both rest
on predicates that are true or false, so that a predicate and its negation leave no environment
out.
-/

namespace EventCheck

variable {f g : Formula} {env : Environment} {lookup : Variable → Option Constant}

theorem Environment.typedLookup (typed : env.Typed) : TypedLookup env.lookup := by
  rintro v c ⟨⟩
  exact typed v

namespace Expression

/-- A boolean expression is true or false in a typed environment unless it has an error there. -/
theorem eval_bool_of_ok (typed : env.Typed) {e : Expression} {result : Option Constant}
    (evaluated : e.eval env.lookup = .ok result) (boolean : e.dataType = .bool) :
    ∃ b, e.eval env.lookup = .ok (some (.bool b)) := by
  obtain ⟨c, rfl⟩ := exists_value_of_eval evaluated
  have type := dataType_of_eval (Environment.typedLookup typed) evaluated
  obtain ⟨b, rfl⟩ := exists_bool (type.trans boolean)
  exact ⟨b, evaluated⟩

end Expression

/-- No formula that the lookup satisfies is called unsatisfiable. -/
def Solver.Spares (solver : Solver) (lookup : Variable → Option Constant) : Prop :=
  ∀ f, solver.check f = .unsat → ¬f.Holds lookup

theorem Solver.Sound.spares {solver : Solver} (sound : solver.Sound)
    (typed : TypedLookup lookup) : solver.Spares lookup :=
  fun f unsat => sound f unsat lookup typed

namespace PredicateDomain

variable {solver : Solver} {domain : PredicateDomain} {predicates : Precision}

/-- A formula that the lookup does not satisfy together with the given one. -/
theorem not_holds_of_isUnsat (spares : solver.Spares lookup)
    (unsat : solver.isUnsat (f.conjunction g) = true) (holds : f.Holds lookup) :
    ¬g.Holds lookup := fun other =>
  spares _ (eq_of_beq unsat) (Formula.holds_conjunction.2 ⟨holds, other⟩)

/-! ### Polarities -/

theorem polarities_eq_ok {predicate : Expression} {pair : Formula × Formula}
    (formed : polarities predicate = .ok pair) :
    predicate.dataType = .bool ∧ Formula.ofExpression predicate = .ok pair.1 ∧
      Formula.ofExpression (.not predicate) = .ok pair.2 := by
  unfold polarities at formed
  obtain ⟨positive, first, rest⟩ := bind_eq_ok_iff.1 formed
  obtain ⟨negation, checked, rest⟩ := bind_eq_ok_iff.1 rest
  obtain ⟨negative, second, built⟩ := bind_eq_ok_iff.1 rest
  obtain ⟨rfl, boolean⟩ := Expression.notChecked_eq_ok_iff.1 checked
  obtain rfl := pure_eq_ok_iff.1 built
  exact ⟨boolean, first, second⟩

/-- One of the sides of a predicate holds. -/
def Covers (lookup : Variable → Option Constant) (pair : Formula × Formula) : Prop :=
  pair.1.Holds lookup ∨ pair.2.Holds lookup

/-- Those of the predicates that are boolean are true or false. -/
def Decide (predicates : Precision) (lookup : Variable → Option Constant) : Prop :=
  ∀ e ∈ predicates, e.dataType = .bool → ∃ b, e.eval lookup = .ok (some (.bool b))

theorem covers_polarities {predicate : Expression} {pair : Formula × Formula} {b : Bool}
    (formed : polarities predicate = .ok pair)
    (value : predicate.eval lookup = .ok (some (.bool b))) : Covers lookup pair := by
  obtain ⟨_, positive, negative⟩ := polarities_eq_ok formed
  cases b with
  | true => exact Or.inl (Formula.holds_ofExpressionPolarity positive value)
  | false =>
    exact Or.inr (Formula.holds_ofExpressionPolarity negative
      (Expression.eval_not_bool_iff.2 value))

theorem covers_of_mapM {pairs : List (Formula × Formula)}
    (formed : predicates.toList.mapM polarities = .ok pairs) (decide : Decide predicates lookup) :
    ∀ pair ∈ pairs, Covers lookup pair := by
  intro pair member
  obtain ⟨e, inside, given⟩ := exists_left_of_mem (mapM_eq_ok_iff.1 formed) member
  obtain ⟨b, value⟩ := decide e inside (polarities_eq_ok given).1
  exact covers_polarities given value

/-! ### Abstraction -/

theorem strengthen_holds {result : Formula} {pair : Formula × Formula}
    (spares : solver.Spares lookup) (holds : f.Holds lookup) (before : result.Holds lookup)
    (covers : Covers lookup pair) : (strengthen solver f result pair).Holds lookup := by
  unfold strengthen
  split
  · rename_i unsat
    have excluded := not_holds_of_isUnsat spares unsat holds
    exact Formula.holds_conjunction.2 ⟨before, covers.resolve_right excluded⟩
  · split
    · rename_i unsat
      have excluded := not_holds_of_isUnsat spares unsat holds
      exact Formula.holds_conjunction.2 ⟨before, covers.resolve_left excluded⟩
    · exact before

theorem cartesianAbstraction_holds (spares : solver.Spares lookup)
    (decide : Decide predicates lookup)
    (widened : cartesianAbstraction solver f predicates = .ok g) (holds : f.Holds lookup) :
    g.Holds lookup := by
  unfold cartesianAbstraction at widened
  split at widened
  · rename_i unsat
    exact absurd holds (spares f (eq_of_beq unsat))
  · obtain ⟨pairs, formed, rest⟩ := bind_eq_ok_iff.1 widened
    obtain rfl := pure_eq_ok_iff.1 rest
    have covers := covers_of_mapM formed decide
    have kept : ∀ (pairs : List (Formula × Formula)) (result : Formula),
        (∀ pair ∈ pairs, Covers lookup pair) → result.Holds lookup →
        (pairs.foldl (strengthen solver f) result).Holds lookup := by
      intro pairs
      induction pairs with
      | nil => exact fun _ _ before => before
      | cons pair rest ih =>
        intro result covers before
        exact ih _ (fun other member => covers other (by simp [member]))
          (strengthen_holds spares holds before (covers pair (by simp)))
    exact kept pairs .top covers Formula.holds_top

/-- A lookup that chooses a side of each pair satisfies one of the combinations. -/
theorem exists_combination {chosen : Formula} {pairs : List (Formula × Formula)}
    (holds : chosen.Holds lookup) (covers : ∀ pair ∈ pairs, Covers lookup pair) :
    ∃ cube ∈ combinations chosen pairs, cube.Holds lookup := by
  induction pairs generalizing chosen with
  | nil => exact ⟨chosen, by simp [combinations], holds⟩
  | cons pair rest ih =>
    have later : ∀ other ∈ rest, Covers lookup other :=
      fun other member => covers other (by simp [member])
    unfold combinations
    rw [Formula.not_isFalse_of_holds holds]
    rcases covers pair (by simp) with positive | negative
    · obtain ⟨cube, member, found⟩ := ih (Formula.holds_conjunction.2 ⟨holds, positive⟩) later
      exact ⟨cube, by simp [member], found⟩
    · obtain ⟨cube, member, found⟩ := ih (Formula.holds_conjunction.2 ⟨holds, negative⟩) later
      exact ⟨cube, by simp [member], found⟩

theorem holds_foldl_disjunction {formulas : List Formula} {first : Formula} :
    (formulas.foldl Formula.disjunction first).Holds lookup ↔
      first.Holds lookup ∨ ∃ h ∈ formulas, h.Holds lookup := by
  induction formulas generalizing first with
  | nil => simp
  | cons h rest ih =>
    rw [List.foldl_cons, ih, Formula.holds_disjunction]
    simp [or_assoc]

theorem booleanAbstraction_holds (spares : solver.Spares lookup)
    (decide : Decide predicates lookup)
    (widened : booleanAbstraction solver f predicates = .ok g) (holds : f.Holds lookup) :
    g.Holds lookup := by
  unfold booleanAbstraction at widened
  split at widened
  · exact cartesianAbstraction_holds spares decide widened holds
  · obtain ⟨pairs, formed, rest⟩ := bind_eq_ok_iff.1 widened
    obtain rfl := pure_eq_ok_iff.1 rest
    obtain ⟨cube, member, found⟩ :=
      exists_combination Formula.holds_top (covers_of_mapM formed decide)
    refine holds_foldl_disjunction.2 (Or.inr ⟨cube, List.mem_filter.2 ⟨member, ?_⟩, found⟩)
    have possible : solver.isUnsat (f.conjunction cube) = false :=
      eq_false_of_ne_true fun unsat => not_holds_of_isUnsat spares unsat holds found
    rw [Formula.not_isFalse_of_holds found, possible]
    rfl

/-- A lookup that decides the predicates satisfies the abstraction of what it satisfies. -/
theorem holds_of_widen (spares : domain.solver.Spares lookup) (decide : Decide predicates lookup)
    (widened : domain.widen f predicates = .ok g) (holds : f.Holds lookup) : g.Holds lookup := by
  unfold widen at widened
  split at widened
  · exact booleanAbstraction_holds spares decide widened holds
  · exact cartesianAbstraction_holds spares decide widened holds

/-- A formula implies its abstraction over predicates without division. -/
theorem widen_holds (sound : domain.solver.Sound) (typed : env.Typed)
    (total : ∀ e ∈ predicates, e.Total) (widened : domain.widen f predicates = .ok g)
    (holds : f.Holds env.lookup) : g.Holds env.lookup :=
  holds_of_widen (sound.spares (Environment.typedLookup typed))
    (fun e member => Expression.eval_total_bool typed (total e member)) widened holds

/-- A formula implies its abstraction wherever all predicates have values. The solver only needs
to be right about environments that know every variable. As an error of an operand is one of the
whole, no part of a predicate has an error where the predicate has none. -/
theorem holds_widen_of_evaluates
    (sound : ∀ h, domain.solver.check h = .unsat →
      ∀ env : Environment, env.Typed → ¬h.Holds env.lookup)
    (widened : domain.widen f predicates = .ok g) (typed : env.Typed)
    (evaluates : ∀ e ∈ predicates, ∃ result, e.eval env.lookup = .ok result)
    (holds : f.Holds env.lookup) : g.Holds env.lookup := by
  refine holds_of_widen (fun h unsat => sound h unsat env typed) ?_ widened holds
  intro e member boolean
  obtain ⟨result, evaluated⟩ := evaluates e member
  exact Expression.eval_bool_of_ok typed evaluated boolean

/-! ### A predicate that divides -/

/-- Whether ten divided by the variable is five, and whether it is below three. -/
def quotientPredicates : Precision :=
  .ofList [.binary .eq (.binary .div (.const (.int 10)) (.var ⟨"x", .int, none⟩)) (.const (.int 5)),
    .binary .lt (.var ⟨"x", .int, none⟩) (.const (.int 3))]

def isTwo : Formula :=
  .ofLiteral ⟨.binary .eq (.var ⟨"x", .int, none⟩) (.const (.int 2)), true⟩

/-- The environment that is two wherever it is an integer. -/
def twos : Environment := fun v =>
  match v.dataType with
  | .bool => .bool false
  | .int => .int 2
  | .string => .str ""

theorem typed_twos : twos.Typed := by
  intro v
  unfold twos
  cases v.dataType <;> rfl

/-- Both predicates follow where the variable is two, though one of them has no value everywhere. -/
theorem holds_widen_isTwo : ∃ g, twos.Typed ∧ isTwo.Holds twos.lookup ∧
    (PredicateDomain.mk (.enumeration 4) .boolean).widen isTwo quotientPredicates = .ok g ∧
    g = .ofCube (.ofList (quotientPredicates.toList.map fun e => ⟨e, true⟩)) ∧
    g.Holds twos.lookup := by
  have widened : (PredicateDomain.mk (.enumeration 4) .boolean).widen isTwo quotientPredicates =
      .ok (.ofCube (.ofList (quotientPredicates.toList.map fun e => ⟨e, true⟩))) := by
    decide +kernel
  have two : isTwo.Holds twos.lookup := by
    refine Formula.holds_ofCube.2 fun l member => ?_
    obtain rfl := SortedSet.mem_singleton.1 member
    rfl
  refine ⟨_, typed_twos, two, widened, rfl, holds_widen_of_evaluates ?sound widened typed_twos
    ?evaluates two⟩
  case sound =>
    exact fun h unsat env typed =>
      Solver.sound_enumeration 4 h unsat env.lookup (Environment.typedLookup typed)
  case evaluates =>
    intro e member
    rcases List.mem_cons.1 (SortedSet.mem_ofList.1 member) with rfl | member
    · exact ⟨some (.bool true), rfl⟩
    · obtain rfl := List.mem_singleton.1 member
      exact ⟨some (.bool true), rfl⟩

/-! ### What abstractions are made of -/

section Atoms

variable {p : Expression → Prop}

theorem allAtoms_polarities (inherits : ∀ e, p e → ∀ operand ∈ e.operands, p operand)
    (negates : ∀ e, e.dataType = .bool → p e → p (.not e)) {predicate : Expression}
    {pair : Formula × Formula} (formed : polarities predicate = .ok pair) (holds : p predicate) :
    (pair.1.AllAtoms fun e => p e ∧ e.dataType = .bool) ∧
      pair.2.AllAtoms fun e => p e ∧ e.dataType = .bool := by
  obtain ⟨boolean, positive, negative⟩ := polarities_eq_ok formed
  exact ⟨Formula.allAtoms_ofExpression inherits positive holds,
    Formula.allAtoms_ofExpression inherits negative (negates predicate boolean holds)⟩

theorem allAtoms_strengthen {pairs : List (Formula × Formula)} {result : Formula}
    (all : ∀ pair ∈ pairs, pair.1.AllAtoms p ∧ pair.2.AllAtoms p) (before : result.AllAtoms p) :
    (pairs.foldl (strengthen solver f) result).AllAtoms p := by
  induction pairs generalizing result with
  | nil => exact before
  | cons pair rest ih =>
    obtain ⟨positive, negative⟩ := all pair (by simp)
    refine ih (fun other member => all other (by simp [member])) ?_
    unfold strengthen
    split
    · exact before.conjunction positive
    · split
      · exact before.conjunction negative
      · exact before

theorem allAtoms_combinations {pairs : List (Formula × Formula)} {chosen cube : Formula}
    (all : ∀ pair ∈ pairs, pair.1.AllAtoms p ∧ pair.2.AllAtoms p) (before : chosen.AllAtoms p)
    (member : cube ∈ combinations chosen pairs) : cube.AllAtoms p := by
  induction pairs generalizing chosen with
  | nil =>
    rw [List.mem_singleton.1 member]
    exact before
  | cons pair rest ih =>
    obtain ⟨positive, negative⟩ := all pair (by simp)
    have later := fun other inside => all other (List.mem_cons_of_mem pair inside)
    unfold combinations at member
    split at member
    · simp at member
    · rcases List.mem_append.1 member with member | member
      · exact ih later (before.conjunction negative) member
      · exact ih later (before.conjunction positive) member

/-- The atoms of an abstraction are atoms of its predicates. -/
theorem allAtoms_widen (inherits : ∀ e, p e → ∀ operand ∈ e.operands, p operand)
    (negates : ∀ e, e.dataType = .bool → p e → p (.not e))
    (widened : domain.widen f predicates = .ok g) (holds : ∀ e ∈ predicates, p e) :
    g.AllAtoms fun e => p e ∧ e.dataType = .bool := by
  have sides : ∀ {pairs}, predicates.toList.mapM polarities = .ok pairs → ∀ pair ∈ pairs,
      (pair.1.AllAtoms fun e => p e ∧ e.dataType = .bool) ∧
        pair.2.AllAtoms fun e => p e ∧ e.dataType = .bool := by
    intro pairs formed pair member
    obtain ⟨e, inside, given⟩ := exists_left_of_mem (mapM_eq_ok_iff.1 formed) member
    exact allAtoms_polarities inherits negates given (holds e inside)
  have cartesian : ∀ {solver : Solver}, cartesianAbstraction solver f predicates = .ok g →
      g.AllAtoms fun e => p e ∧ e.dataType = .bool := by
    intro solver widened
    unfold cartesianAbstraction at widened
    split at widened
    · cases widened
      exact Formula.allAtoms_bottom
    · obtain ⟨pairs, formed, rest⟩ := bind_eq_ok_iff.1 widened
      obtain rfl := pure_eq_ok_iff.1 rest
      exact allAtoms_strengthen (sides formed) Formula.allAtoms_top
  unfold widen at widened
  split at widened
  · unfold booleanAbstraction at widened
    split at widened
    · exact cartesian widened
    · obtain ⟨pairs, formed, rest⟩ := bind_eq_ok_iff.1 widened
      obtain rfl := pure_eq_ok_iff.1 rest
      have joined : ∀ (formulas : List Formula) (first : Formula),
          (∀ h ∈ formulas, h.AllAtoms fun e => p e ∧ e.dataType = .bool) →
          (first.AllAtoms fun e => p e ∧ e.dataType = .bool) →
          (formulas.foldl Formula.disjunction first).AllAtoms
            fun e => p e ∧ e.dataType = .bool := by
        intro formulas
        induction formulas with
        | nil => exact fun _ _ before => before
        | cons h rest ih =>
          intro first all before
          exact ih _ (fun other member => all other (by simp [member]))
            (before.disjunction (all h (by simp)))
      refine joined _ .bottom (fun cube member => ?_) Formula.allAtoms_bottom
      exact allAtoms_combinations (sides formed) Formula.allAtoms_top (List.mem_filter.1 member).1
  · exact cartesian widened

end Atoms

/-! ### Inclusion -/

/-- An inclusion that is found is one wherever all atoms are true or false. -/
theorem holds_of_included_of_values (spares : domain.solver.Spares lookup)
    (values : g.AllAtoms fun e => ∃ b, e.eval lookup = .ok (some (.bool b)))
    (included : domain.included f g = .ok true) (holds : f.Holds lookup) : g.Holds lookup := by
  unfold PredicateDomain.included at included
  split at included
  · rename_i implied
    exact Formula.holds_of_implies implied holds
  · obtain ⟨negation, checked, rest⟩ := bind_eq_ok_iff.1 included
    obtain ⟨complement, formed, unsat⟩ := bind_eq_ok_iff.1 rest
    obtain ⟨rfl, _⟩ := Expression.notChecked_eq_ok_iff.1 checked
    refine Classical.byContradiction fun fails => ?_
    exact not_holds_of_isUnsat spares (pure_eq_ok_iff.1 unsat) holds
      (Formula.holds_complement values formed fails)

/-- An inclusion that is found is one. -/
theorem holds_of_included (sound : domain.solver.Sound) (decided : g.Decided) (typed : env.Typed)
    (included : domain.included f g = .ok true) (holds : f.Holds env.lookup) :
    g.Holds env.lookup :=
  holds_of_included_of_values (sound.spares (Environment.typedLookup typed))
    (Formula.AllAtoms.imp (fun _ both => Expression.eval_total_bool typed both.1 both.2) decided)
    included holds

end PredicateDomain

/-! ### Formulas without versions -/

/-- Without versions a formula means what it means where all versions agree. -/
theorem Formula.Decided.stripVersions (decided : f.Decided)
    (stripped : f.stripVersions = .ok g) :
    g.Decided ∧ ∀ env : Environment, env.Typed →
      (g.Holds env.lookup ↔ f.Holds env.unversioned.lookup) := by
  have total : (f.toExpression.rename Variable.base).Total :=
    decided.total_toExpression.rename (f := Variable.base) fun _ => rfl
  refine ⟨decided_ofExpression stripped total, fun env typed => ?_⟩
  obtain ⟨b, value, truth⟩ := decided.eval_toExpression typed.unversioned
  rw [holds_ofExpression_iff stripped (Expression.eval_rename.trans value), truth]

end EventCheck
