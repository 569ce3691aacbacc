import EventCheck.Proofs.Answers
import EventCheck.Proofs.Data
import EventCheck.Proofs.Predicates
import EventCheck.Proofs.Propagation
import EventCheck.Proofs.RoundTrips

/-!
Boolean and cartesian abstraction compared. A combination of predicates contains a side of each of
them, so boolean abstraction is the more precise one as long as what the solver refutes with a side
it also refutes with the combination. The enumerating solver may forget a refutation: a combination
brings in variables that it cannot try all values of, or an error that hides a false literal.
-/

namespace EventCheck

namespace PredicateDomain

variable {solver : Solver} {f g h cube chosen : Formula} {predicates : Precision}
variable {pairs : List (Formula × Formula)}

/-! ### Combinations and sides -/

/-- What cartesian abstraction asks the solver about together with the formula: nothing, or a side
of a predicate. -/
inductive Side (predicates : Precision) : Formula → Prop
  | nothing : Side predicates .top
  | positive {e : Expression} {side : Formula} (member : e ∈ predicates)
      (formed : Formula.ofExpression e = .ok side) : Side predicates side
  | negative {e : Expression} {side : Formula} (member : e ∈ predicates)
      (formed : Formula.ofExpression (.not e) = .ok side) : Side predicates side

/-- What boolean abstraction asks the solver about together with the formula. -/
def Combination (predicates : Precision) (cube : Formula) : Prop :=
  ∃ pairs, predicates.toList.mapM polarities = .ok pairs ∧ cube ∈ combinations .top pairs

/-- What the solver does not refute with the combination, it refutes with no side of it. -/
def Keeps (solver : Solver) (f : Formula) (predicates : Precision) (cube : Formula) : Prop :=
  ∀ side, Side predicates side → cube.implies side = true →
    solver.isUnsat (f.conjunction side) = false

theorem side_of_mapM (formed : predicates.toList.mapM polarities = .ok pairs) :
    ∀ pair ∈ pairs, Side predicates pair.1 ∧ Side predicates pair.2 := by
  intro pair member
  obtain ⟨e, inside, given⟩ := exists_left_of_mem (mapM_eq_ok_iff.1 formed) member
  obtain ⟨_, positive, negative⟩ := polarities_eq_ok given
  exact ⟨.positive inside positive, .negative inside negative⟩

theorem implies_of_mem_combinations (member : cube ∈ combinations chosen pairs) :
    cube.implies chosen = true ∧
      ∀ pair ∈ pairs, cube.implies pair.1 = true ∨ cube.implies pair.2 = true := by
  induction pairs generalizing chosen with
  | nil =>
    rw [List.mem_singleton.1 member]
    exact ⟨Formula.implies_refl chosen, by simp⟩
  | cons pair rest ih =>
    unfold combinations at member
    split at member
    · simp at member
    · rcases List.mem_append.1 member with member | member
      all_goals
        obtain ⟨below, others⟩ := ih member
        obtain ⟨before, side⟩ := Formula.implies_conjunction_iff.1 below
        refine ⟨before, List.forall_mem_cons.2 ⟨?_, others⟩⟩
      · exact Or.inr side
      · exact Or.inl side

/-- A combination implies the cartesian abstraction if no refutation is lost. -/
theorem implies_foldl_strengthen {result : Formula} (before : cube.implies result = true)
    (sides : ∀ pair ∈ pairs, Side predicates pair.1 ∧ Side predicates pair.2)
    (takes : ∀ pair ∈ pairs, cube.implies pair.1 = true ∨ cube.implies pair.2 = true)
    (keeps : Keeps solver f predicates cube) :
    cube.implies (pairs.foldl (strengthen solver f) result) = true := by
  induction pairs generalizing result with
  | nil => exact before
  | cons pair rest ih =>
    obtain ⟨positive, negative⟩ := sides pair List.mem_cons_self
    have taken := takes pair List.mem_cons_self
    apply ih
    case before =>
      -- a side is added if the other one is refuted, so the combination cannot imply that one
      unfold strengthen
      split
      · rename_i unsat
        have other : ¬cube.implies pair.2 = true := by
          intro implied
          simp [keeps _ negative implied] at unsat
        exact Formula.implies_conjunction_iff.2 ⟨before, taken.resolve_right other⟩
      · split
        · rename_i unsat
          have other : ¬cube.implies pair.1 = true := by
            intro implied
            simp [keeps _ positive implied] at unsat
          exact Formula.implies_conjunction_iff.2 ⟨before, taken.resolve_left other⟩
        · exact before
    case sides => exact fun other member => sides other (List.mem_cons_of_mem pair member)
    case takes => exact fun other member => takes other (List.mem_cons_of_mem pair member)

theorem exists_cartesianAbstraction (solver : Solver) (f : Formula)
    (formed : predicates.toList.mapM polarities = .ok pairs) :
    ∃ h, cartesianAbstraction solver f predicates = .ok h ∧ ∀ cube ∈ combinations .top pairs,
      Keeps solver f predicates cube → cube.implies h = true := by
  unfold cartesianAbstraction
  by_cases refuted : solver.isUnsat f = true
  · refine ⟨.bottom, if_pos refuted, fun cube member keeps => ?_⟩
    have below := (implies_of_mem_combinations member).1
    have alone := keeps .top .nothing below
    rw [Formula.conjunction_top, refuted] at alone
    simp at alone
  · refine ⟨pairs.foldl (strengthen solver f) .top, ?_, fun cube member keeps => ?_⟩
    · rw [if_neg refuted]
      exact bind_eq_ok_iff.2 ⟨pairs, formed, rfl⟩
    · obtain ⟨below, takes⟩ := implies_of_mem_combinations member
      exact implies_foldl_strengthen below (side_of_mapM formed) takes keeps

/-- The solver refutes the formula with a side, but not with a combination that contains it. -/
structure Forgets (solver : Solver) (f : Formula) (predicates : Precision) (cube side : Formula) :
    Prop where
  combination : Combination predicates cube
  remains : solver.isUnsat (f.conjunction cube) = false
  asked : Side predicates side
  follows : cube.implies side = true
  refuted : solver.isUnsat (f.conjunction side) = true

/-- Whatever the solver, where boolean abstraction succeeds so does cartesian abstraction, and what
satisfies the first one but not the second one satisfies a combination with which the solver forgets
a refutation. -/
theorem holds_cartesian_or_forgets (widened : booleanAbstraction solver f predicates = .ok g) :
    ∃ h, cartesianAbstraction solver f predicates = .ok h ∧
      ∀ lookup : Variable → Option Constant, g.Holds lookup → h.Holds lookup ∨
        ∃ cube side, cube.Holds lookup ∧ Forgets solver f predicates cube side := by
  unfold booleanAbstraction at widened
  split at widened
  · exact ⟨g, widened, fun _ holds => Or.inl holds⟩
  · obtain ⟨pairs, formed, rest⟩ := bind_eq_ok_iff.1 widened
    obtain rfl := pure_eq_ok_iff.1 rest
    obtain ⟨h, cartesian, implied⟩ := exists_cartesianAbstraction solver f formed
    refine ⟨h, cartesian, fun lookup holds => ?_⟩
    obtain ⟨cube, met, found⟩ := (holds_foldl_disjunction.1 holds).resolve_left
      Formula.not_holds_bottom
    obtain ⟨member, open_⟩ := List.mem_filter.1 met
    have left : solver.isUnsat (f.conjunction cube) = false := by
      simpa using (Bool.and_eq_true_iff.1 open_).2
    by_cases keeps : Keeps solver f predicates cube
    · exact Or.inl (Formula.holds_of_implies (implied cube member keeps) found)
    · simp only [Keeps, not_forall, Bool.not_eq_false] at keeps
      obtain ⟨side, asked, follows, refuted⟩ := keeps
      exact Or.inr ⟨cube, side, found, ⟨pairs, formed, member⟩, left, asked, follows, refuted⟩

/-! ### What the enumerating solver forgets -/

/-- The solver refutes a cube but not a larger one. Either some value may turn into an error, or the
cube is only refuted by search and there is too much to search in the larger one. -/
structure Loses (range : Nat) (c d : Cube) : Prop where
  contained : c ⊆ d
  refuted : Enumeration.checkCube range c = .none
  remains : Enumeration.checkCube range d ≠ .none
  reason : (∃ l ∈ d, ¬l.atom.Steady) ∨ ¬Enumeration.Conflicts c ∧ ¬Enumeration.Exhaustive d

theorem loses_of_subset {range : Nat} {c d : Cube} (contained : c ⊆ d)
    (checked : ∀ l ∈ d, l.atom.WellTyped ∧ l.atom.dataType = .bool)
    (refuted : Enumeration.checkCube range c = .none)
    (remains : Enumeration.checkCube range d ≠ .none) : Loses range c d := by
  refine ⟨contained, refuted, remains, ?_⟩
  by_cases shaky : ∃ l ∈ d, ¬l.atom.Steady
  · exact Or.inl shaky
  · refine Or.inr (not_or.1 fun lasting => remains ?_)
    apply Enumeration.checkCube_of_subset refuted contained _ lasting
    intro l occurs
    refine ⟨checked l occurs, ?_⟩
    exact Classical.byContradiction fun unsteady => shaky ⟨l, occurs, unsteady⟩

theorem Combination.allAtoms {p : Expression → Prop} (combination : Combination predicates cube)
    (rule : AtomRule p) (holds : ∀ e ∈ predicates, p e) :
    cube.AllAtoms fun e => p e ∧ e.dataType = .bool := by
  obtain ⟨pairs, formed, member⟩ := combination
  refine allAtoms_combinations (fun pair inside => ?_) Formula.allAtoms_top member
  obtain ⟨e, among, given⟩ := exists_left_of_mem (mapM_eq_ok_iff.1 formed) inside
  exact allAtoms_polarities rule.operand rule.negation given (holds e among)

section Enumerating

variable {range : Nat} {side : Formula}
variable (forgets : Forgets (.enumeration range) f predicates cube side)
include forgets

theorem Forgets.check_eq_unknown (checked : (f.conjunction cube).Checked) :
    (Solver.enumeration range).check (f.conjunction cube) = .unknown := by
  cases answer : (Solver.enumeration range).check (f.conjunction cube) with
  | unknown => rfl
  | unsat =>
    have left := forgets.remains
    simp [Solver.isUnsat, answer] at left
  | sat =>
    -- the model would satisfy what is refuted
    obtain ⟨found, given⟩ := Enumeration.check_sat answer
    obtain ⟨c, member, outcome⟩ := Enumeration.model_eq_some given
    obtain ⟨proper, all⟩ := Enumeration.model_of_checkCube outcome (checked c member)
    have holds : c.Holds found.get? := fun l inside => by
      simpa using Enumeration.literalHolds_eq_some_iff.1 (all l inside)
    have below := Formula.conjunction_mono (Formula.implies_refl f) forgets.follows
    have refuted := Solver.sound_enumeration range _ (eq_of_beq forgets.refuted) _ proper.typed
    exact absurd (Formula.holds_of_implies below ⟨c, member, holds⟩) refuted

theorem Forgets.exists_loses (checked : (f.conjunction cube).Checked) :
    ∃ c ∈ (f.conjunction side).cubes, ∃ d ∈ (f.conjunction cube).cubes, Loses range c d := by
  have below := Formula.conjunction_mono (Formula.implies_refl f) forgets.follows
  have refuted := Solver.isUnsat_enumeration_iff.1 forgets.refuted
  have remains := Bool.eq_false_iff.1 forgets.remains
  rw [Ne, Solver.isUnsat_enumeration_iff] at remains
  simp only [not_forall] at remains
  obtain ⟨d, member, left⟩ := remains
  obtain ⟨c, inside, contained⟩ := Formula.implies_iff.1 below d member
  exact ⟨c, inside, d, member,
    loses_of_subset contained (checked d member) (refuted c inside) left⟩

end Enumerating

/-- Over truth values alone, few enough to try all of them, nothing is forgotten. -/
theorem holds_cartesian_of_booleans {range : Nat} {names : SortedSet Variable}
    (booleans : ∀ v ∈ names, v.dataType = .bool)
    (few : 2 ^ names.size ≤ Enumeration.maxAssignments)
    (atoms : f.AllAtoms fun e => (e.Total ∧ e.Over (· ∈ names)) ∧ e.dataType = .bool)
    (all : ∀ e ∈ predicates, e.Total ∧ e.Over (· ∈ names))
    (widened : (PredicateDomain.mk (.enumeration range) .boolean).widen f predicates = .ok g) :
    ∃ h, (PredicateDomain.mk (.enumeration range) .cartesian).widen f predicates = .ok h ∧
      ∀ lookup : Variable → Option Constant, g.Holds lookup → h.Holds lookup := by
  obtain ⟨h, cartesian, implied⟩ := holds_cartesian_or_forgets widened
  refine ⟨h, cartesian, fun lookup holds => (implied lookup holds).resolve_right ?_⟩
  rintro ⟨cube, side, _, forgets⟩
  have rule := AtomRule.total.and (AtomRule.over (· ∈ names))
  have whole := Formula.AllAtoms.conjunction atoms (forgets.combination.allAtoms rule all)
  have checked : (f.conjunction cube).Checked :=
    whole.imp fun _ both => ⟨both.1.1.wellTyped, both.2⟩
  obtain ⟨_, _, d, member, loses⟩ := forgets.exists_loses checked
  rcases loses.reason with ⟨l, inside, shaky⟩ | ⟨_, large⟩
  · exact shaky (whole d member l inside).1.1.divisionFree.steady
  · refine large (Enumeration.exhaustive_of_booleans (fun v occurs => ?_) booleans few)
    obtain ⟨l, inside, among⟩ := Enumeration.mem_cubeVariables.1 occurs
    exact (whole d member l inside).1.2 v among

/-- With the enumerating solver, what satisfies the boolean abstraction satisfies the cartesian one
unless it satisfies a combination with which the solver forgets a refutation. If the atoms are well
typed the solver leaves the combination open then, and loses the refutation on a cube. -/
theorem holds_cartesian_or_unknown (range : Nat) (wellTyped : ∀ e ∈ predicates, e.WellTyped)
    (widened : (PredicateDomain.mk (.enumeration range) .boolean).widen f predicates = .ok g) :
    ∃ h, (PredicateDomain.mk (.enumeration range) .cartesian).widen f predicates = .ok h ∧
      ∀ lookup : Variable → Option Constant, g.Holds lookup → h.Holds lookup ∨
        ∃ cube side, cube.Holds lookup ∧ Forgets (.enumeration range) f predicates cube side ∧
          (f.Checked → (Solver.enumeration range).check (f.conjunction cube) = .unknown ∧
            ∃ c ∈ (f.conjunction side).cubes, ∃ d ∈ (f.conjunction cube).cubes,
              Loses range c d) := by
  obtain ⟨h, cartesian, implied⟩ := holds_cartesian_or_forgets widened
  refine ⟨h, cartesian, fun lookup holds => (implied lookup holds).imp_right ?_⟩
  rintro ⟨cube, side, found, forgets⟩
  refine ⟨cube, side, found, forgets, fun checked => ?_⟩
  have whole : (f.conjunction cube).Checked :=
    checked.conjunction (forgets.combination.allAtoms AtomRule.wellTyped wellTyped)
  exact ⟨forgets.check_eq_unknown whole, forgets.exists_loses whole⟩

/-! ### Predicates over other variables -/

/-- The truth value is not false. -/
def notFalse : Formula :=
  .ofLiteral ⟨.binary .eq (.var ⟨"a", .bool, none⟩) (.const (.bool false)), false⟩

/-- The truth value is true. -/
def equalsTrue : Expression := .binary .eq (.var ⟨"a", .bool, none⟩) (.const (.bool true))

def isNegative : Expression := .binary .lt (.var ⟨"x", .int, none⟩) (.const (.int 0))

/-- A cube with a literal for each of the two expressions. -/
def pairCube (first second : Expression) (one other : Bool) : Formula :=
  .ofCube (.ofList [⟨first, one⟩, ⟨second, other⟩])

theorem checked_notFalse : notFalse.Checked :=
  Formula.allAtoms_ofLiteral ⟨⟨trivial, trivial, rfl, rfl⟩, rfl⟩

/-- That it is true the solver finds with another truth value beside it, too. -/
theorem holds_equalsTrue : ∃ g,
    (PredicateDomain.mk (.enumeration 8) .boolean).widen notFalse
      (.ofList [equalsTrue, .var ⟨"b", .bool, none⟩]) = .ok g ∧
    g = (pairCube equalsTrue (.var ⟨"b", .bool, none⟩) true false).disjunction
      (pairCube equalsTrue (.var ⟨"b", .bool, none⟩) true true) ∧
    (PredicateDomain.mk (.enumeration 8) .cartesian).widen notFalse
      (.ofList [equalsTrue, .var ⟨"b", .bool, none⟩]) = .ok (.ofLiteral ⟨equalsTrue, true⟩) ∧
    ∀ lookup : Variable → Option Constant, g.Holds lookup →
      (Formula.ofLiteral ⟨equalsTrue, true⟩).Holds lookup := by
  have widened : (PredicateDomain.mk (.enumeration 8) .boolean).widen notFalse
      (.ofList [equalsTrue, .var ⟨"b", .bool, none⟩]) =
        .ok ((pairCube equalsTrue (.var ⟨"b", .bool, none⟩) true false).disjunction
          (pairCube equalsTrue (.var ⟨"b", .bool, none⟩) true true)) := by decide +kernel
  have single : (PredicateDomain.mk (.enumeration 8) .cartesian).widen notFalse
      (.ofList [equalsTrue, .var ⟨"b", .bool, none⟩]) = .ok (.ofLiteral ⟨equalsTrue, true⟩) := by
    decide +kernel
  have settled : (match (SortedSet.ofList [equalsTrue, .var ⟨"b", .bool, none⟩]).toList.mapM
      polarities with
    | .ok pairs => (combinations .top pairs).all fun cube =>
        (Solver.enumeration 8).check (notFalse.conjunction cube) != .unknown
    | .error _ => false) = true := by decide +kernel
  have wellTyped : ∀ e ∈ SortedSet.ofList [equalsTrue, .var ⟨"b", .bool, none⟩],
      e.WellTyped := by
    intro e member
    rcases List.mem_cons.1 (SortedSet.mem_ofList.1 member) with rfl | member
    · exact ⟨trivial, trivial, rfl, rfl⟩
    · rw [List.mem_singleton.1 member]
      trivial
  obtain ⟨h, cartesian, implied⟩ := holds_cartesian_or_unknown 8 wellTyped widened
  obtain rfl := Except.ok.inj (single.symm.trans cartesian)
  refine ⟨_, widened, rfl, single, fun lookup holds => (implied lookup holds).resolve_right ?_⟩
  rintro ⟨cube, side, _, forgets, reason⟩
  obtain ⟨unknown, _⟩ := reason checked_notFalse
  obtain ⟨pairs, formed, member⟩ := forgets.combination
  rw [formed] at settled
  simpa [unknown] using List.all_eq_true.1 settled cube member

/-- With an integer beside it the solver cannot try all values, and boolean abstraction keeps every
combination. -/
theorem not_boolean_le_cartesian :
    ¬∀ (range : Nat) (f : Formula) (predicates : Precision) (g h : Formula) (env : Environment),
      f.Checked → (∀ e ∈ predicates, e.WellTyped ∧ e.dataType = .bool) →
      predicates.size ≤ maxBooleanPredicates →
      (PredicateDomain.mk (.enumeration range) .boolean).widen f predicates = .ok g →
      (PredicateDomain.mk (.enumeration range) .cartesian).widen f predicates = .ok h →
      env.Typed → g.Holds env.lookup → h.Holds env.lookup := by
  intro claim
  let kept : List Formula := [pairCube equalsTrue isNegative false false,
    pairCube equalsTrue isNegative false true, pairCube equalsTrue isNegative true false,
    pairCube equalsTrue isNegative true true]
  have wellTyped : ∀ e ∈ SortedSet.ofList [equalsTrue, isNegative],
      e.WellTyped ∧ e.dataType = .bool := by
    intro e member
    rcases List.mem_cons.1 (SortedSet.mem_ofList.1 member) with rfl | member
    · exact ⟨⟨trivial, trivial, rfl, rfl⟩, rfl⟩
    · rw [List.mem_singleton.1 member]
      exact ⟨⟨trivial, trivial, rfl, rfl⟩, rfl⟩
  have boolean : (PredicateDomain.mk (.enumeration 8) .boolean).widen notFalse
      (.ofList [equalsTrue, isNegative]) = .ok (kept.foldl .disjunction .bottom) := by
    decide +kernel
  have cartesian : (PredicateDomain.mk (.enumeration 8) .cartesian).widen notFalse
      (.ofList [equalsTrue, isNegative]) = .ok (.ofLiteral ⟨equalsTrue, true⟩) := by
    decide +kernel
  -- the first cube holds where the truth value is false and the integer is two
  have first : (pairCube equalsTrue isNegative false false).Holds twos.lookup := by
    refine Formula.holds_ofCube.2 fun l member => ?_
    rcases List.mem_cons.1 (SortedSet.mem_ofList.1 member) with rfl | member
    · rfl
    · rw [List.mem_singleton.1 member]
      rfl
  have holds : (kept.foldl .disjunction .bottom : Formula).Holds twos.lookup :=
    holds_foldl_disjunction.2 (Or.inr ⟨_, List.mem_cons_self, first⟩)
  have follows := claim 8 notFalse _ _ _ twos checked_notFalse wellTyped (by decide +kernel) boolean
    cartesian typed_twos holds
  exact absurd (Formula.holds_ofLiteral.1 follows) (by decide +kernel)

-- the conjunction is false until the integer is known to be zero, when its other side is an error
example :
    let hidden : Expression := .binary .and (.var ⟨"e", .bool, none⟩)
      (.binary .eq (.binary .div (.const (.int 1)) (.var ⟨"x", .int, none⟩)) (.const (.int 1)))
    let f : Formula := .ofCube (.ofList [⟨.var ⟨"e", .bool, none⟩, false⟩,
      ⟨.binary .eq (.var ⟨"b", .bool, none⟩) hidden, true⟩])
    let isZero : Expression := .binary .eq (.var ⟨"x", .int, none⟩) (.const (.int 0))
    (Solver.enumeration 8).check (f.conjunction (.ofLiteral ⟨.var ⟨"b", .bool, none⟩, true⟩)) =
        .unsat ∧
      (Solver.enumeration 8).check
        (f.conjunction (pairCube (.var ⟨"b", .bool, none⟩) isZero true true)) = .unknown := by
  decide +kernel

end PredicateDomain

end EventCheck
