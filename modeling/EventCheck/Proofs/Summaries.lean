import EventCheck.Proofs.AbstractionTypes
import EventCheck.Proofs.Renaming
import EventCheck.Proofs.SingleAssignment
import Mathlib.Data.List.Sublists

/-!
What summaries are made of. The abstraction of a formula is a disjunction of conjunctions of sides
of the predicates, whatever the solver answers. Without the versions that its predicates are read at
it is one of finitely many formulas, which only the predicates determine.
-/

namespace EventCheck

open PredicateDomain SingleAssignment

variable {domain : PredicateDomain} {solver : Solver} {f g : Formula}
variable {predicates precision : Precision} {pairs : List (Formula × Formula)}
variable {versions : VersionMap}

/-! ### Folds of connectives -/

namespace Formula

variable {formulas others : List Formula} {r : Variable → Variable}

/-- Disjunctions of the same formulas are equal, in whatever order and however often they occur. -/
theorem foldl_disjunction_congr (same : ∀ h, h ∈ formulas ↔ h ∈ others) :
    formulas.foldl disjunction bottom = others.foldl disjunction bottom := by
  apply eq_of_upper
  intro h
  simp only [foldl_disjunction_implies, same]

theorem bottom_disjunction (f : Formula) : bottom.disjunction f = f := by
  apply eq_of_upper
  intro h
  rw [disjunction_implies_iff]
  exact and_iff_right (bottom_implies h)

theorem rename_foldl_conjunction : (formulas.foldl conjunction f).rename r =
    (formulas.map (rename r)).foldl conjunction (f.rename r) := by
  induction formulas generalizing f with
  | nil => rfl
  | cons h rest ih => rw [List.foldl_cons, ih, rename_conjunction, List.map_cons, List.foldl_cons]

theorem rename_foldl_disjunction : (formulas.foldl disjunction f).rename r =
    (formulas.map (rename r)).foldl disjunction (f.rename r) := by
  induction formulas generalizing f with
  | nil => rfl
  | cons h rest ih => rw [List.foldl_cons, ih, rename_disjunction, List.map_cons, List.foldl_cons]

theorem obtained_foldl_conjunction (first : f.Obtained) (each : ∀ h ∈ formulas, h.Obtained) :
    (formulas.foldl conjunction f).Obtained := by
  induction formulas generalizing f with
  | nil => exact first
  | cons h rest ih =>
    obtain ⟨here, later⟩ := List.forall_mem_cons.1 each
    exact ih (first.conjunction here) later

theorem obtained_foldl_disjunction (first : f.Obtained) (each : ∀ h ∈ formulas, h.Obtained) :
    (formulas.foldl disjunction f).Obtained := by
  induction formulas generalizing f with
  | nil => exact first
  | cons h rest ih =>
    obtain ⟨here, later⟩ := List.forall_mem_cons.1 each
    exact ih (first.disjunction here) later

end Formula

/-! ### Abstractions -/

namespace PredicateDomain

/-- A conjunction of sides of the predicates. -/
def IsCube (predicates : Precision) (cube : Formula) : Prop :=
  ∃ sides : List Formula, (∀ side ∈ sides, Side predicates side) ∧
    cube = sides.foldl Formula.conjunction .top

theorem isCube_top : IsCube predicates .top := ⟨[], by simp, rfl⟩

theorem IsCube.conjunction {cube side : Formula} (among : IsCube predicates cube)
    (asked : Side predicates side) : IsCube predicates (cube.conjunction side) := by
  obtain ⟨sides, each, rfl⟩ := among
  refine ⟨sides ++ [side], fun other member => ?_, ?_⟩
  · rcases List.mem_append.1 member with member | last
    · exact each other member
    · exact List.mem_singleton.1 last ▸ asked
  · rw [List.foldl_append]
    rfl

theorem isCube_foldl_strengthen {result : Formula} (before : IsCube predicates result)
    (sides : ∀ pair ∈ pairs, Side predicates pair.1 ∧ Side predicates pair.2) :
    IsCube predicates (pairs.foldl (strengthen solver f) result) := by
  induction pairs generalizing result with
  | nil => exact before
  | cons pair rest ih =>
    obtain ⟨⟨positive, negative⟩, later⟩ := List.forall_mem_cons.1 sides
    refine ih ?_ later
    unfold strengthen
    split_ifs
    · exact before.conjunction positive
    · exact before.conjunction negative
    · exact before

theorem isCube_of_mem_combinations {chosen cube : Formula} (before : IsCube predicates chosen)
    (sides : ∀ pair ∈ pairs, Side predicates pair.1 ∧ Side predicates pair.2)
    (member : cube ∈ combinations chosen pairs) : IsCube predicates cube := by
  induction pairs generalizing chosen with
  | nil => exact List.mem_singleton.1 member ▸ before
  | cons pair rest ih =>
    obtain ⟨⟨positive, negative⟩, later⟩ := List.forall_mem_cons.1 sides
    unfold combinations at member
    split at member
    · cases member
    · rcases List.mem_append.1 member with member | member
      · exact ih (before.conjunction negative) later member
      · exact ih (before.conjunction positive) later member

/-- A Cartesian abstraction is false or one conjunction of sides. -/
theorem exists_of_cartesianAbstraction
    (widened : cartesianAbstraction solver f predicates = .ok g) :
    ∃ cubes : List Formula, (∀ cube ∈ cubes, IsCube predicates cube) ∧
      g = cubes.foldl Formula.disjunction .bottom := by
  unfold cartesianAbstraction at widened
  split at widened
  · exact ⟨[], by simp, (Except.ok.inj widened).symm⟩
  · obtain ⟨pairs, formed, rest⟩ := bind_eq_ok_iff.1 widened
    obtain rfl := pure_eq_ok_iff.1 rest
    have cube : IsCube predicates (pairs.foldl (strengthen solver f) .top) :=
      isCube_foldl_strengthen isCube_top (side_of_mapM formed)
    exact ⟨[_], List.forall_mem_singleton.2 cube, (Formula.bottom_disjunction _).symm⟩

/-- Whatever the solver answers, an abstraction is a disjunction of conjunctions of sides. -/
theorem exists_of_widen (widened : domain.widen f predicates = .ok g) :
    ∃ cubes : List Formula, (∀ cube ∈ cubes, IsCube predicates cube) ∧
      g = cubes.foldl Formula.disjunction .bottom := by
  unfold widen at widened
  split at widened
  · unfold booleanAbstraction at widened
    split at widened
    · exact exists_of_cartesianAbstraction widened
    · obtain ⟨pairs, formed, rest⟩ := bind_eq_ok_iff.1 widened
      obtain rfl := pure_eq_ok_iff.1 rest
      refine ⟨_, fun cube member => ?_, rfl⟩
      exact isCube_of_mem_combinations isCube_top (side_of_mapM formed) (List.mem_filter.1 member).1
  · exact exists_of_cartesianAbstraction widened

theorem Side.obtained {side : Formula} (asked : Side predicates side) : side.Obtained := by
  cases asked with
  | nothing => exact .top
  | positive _ formed => exact .expression formed
  | negative _ formed => exact .expression formed

/-- Abstractions come from expressions. -/
theorem obtained_of_widen (widened : domain.widen f predicates = .ok g) : g.Obtained := by
  obtain ⟨cubes, each, rfl⟩ := exists_of_widen widened
  refine Formula.obtained_foldl_disjunction .bottom fun cube member => ?_
  obtain ⟨sides, all, rfl⟩ := each cube member
  exact Formula.obtained_foldl_conjunction .top fun side inside => (all side inside).obtained

/-! ### Without versions -/

/-- The formulas of the predicates and of their negations. -/
def sidesOver (precision : Precision) : List Formula :=
  precision.toList.flatMap fun e =>
    (Formula.ofExpression e).toOption.toList ++ (Formula.ofExpression (.not e)).toOption.toList

/-- The conjunctions of sides. -/
def cubesOver (precision : Precision) : List Formula :=
  (sidesOver precision).sublists.map (·.foldl Formula.conjunction .top)

/-- The disjunctions of conjunctions of sides: whatever predicates can say. -/
def summariesOver (precision : Precision) : List Formula :=
  (cubesOver precision).sublists.map (·.foldl Formula.disjunction .bottom)

theorem mem_sidesOver {side : Formula} : side ∈ sidesOver precision ↔
    ∃ e ∈ precision, Formula.ofExpression e = .ok side ∨
      Formula.ofExpression (.not e) = .ok side := by
  simp [sidesOver, SortedSet.mem_def, toOption_eq_some_iff]

theorem mem_cubesOver {sides : List Formula}
    (each : ∀ side ∈ sides, side = .top ∨ side ∈ sidesOver precision) :
    sides.foldl Formula.conjunction .top ∈ cubesOver precision := by
  refine List.mem_map.2 ⟨(sidesOver precision).filter (· ∈ sides),
    List.mem_sublists.2 (List.filter_sublist ..), ?_⟩
  -- a side that says nothing may be missing among the sides of the predicates
  apply Formula.eq_of_lower
  intro h
  simp only [Formula.implies_foldl_conjunction, Formula.implies_top, true_and]
  constructor
  · intro all side member
    rcases each side member with rfl | listed
    · exact Formula.implies_top h
    · exact all side (List.mem_filter.2 ⟨listed, decide_eq_true member⟩)
  · exact fun all side member => all side (of_decide_eq_true (List.mem_filter.1 member).2)

theorem mem_summariesOver {cubes : List Formula}
    (each : ∀ cube ∈ cubes, cube ∈ cubesOver precision) :
    cubes.foldl Formula.disjunction .bottom ∈ summariesOver precision := by
  refine List.mem_map.2 ⟨(cubesOver precision).filter (· ∈ cubes),
    List.mem_sublists.2 (List.filter_sublist ..), Formula.foldl_disjunction_congr fun h => ?_⟩
  rw [List.mem_filter, decide_eq_true_iff]
  exact and_iff_right_of_imp (each h)

/-- No variable of the predicates has a version. -/
def Unversioned (precision : Precision) : Prop :=
  ∀ e ∈ precision, ∀ v ∈ e.variables, v.version = none

theorem rename_renameReads {e : Expression} (unversioned : ∀ v ∈ e.variables, v.version = none) :
    (renameReads versions e).rename Variable.base = e := by
  unfold renameReads
  rw [Expression.rename_rename]
  refine Expression.rename_of_fixed fun v member => ?_
  exact (VersionMap.base_current versions v).trans
    (Variable.base_of_unversioned (unversioned v member))

/-- Without its versions a side of a predicate that is read at some versions is one of the
predicate. -/
theorem rename_side {side : Formula} (unversioned : Unversioned precision)
    (asked : Side (.ofList (precision.toList.map (renameReads versions))) side) :
    side.rename Variable.base = .top ∨ side.rename Variable.base ∈ sidesOver precision := by
  have predicate : ∀ {e : Expression},
      e ∈ SortedSet.ofList (precision.toList.map (renameReads versions)) →
        e.rename Variable.base ∈ precision := by
    intro e member
    obtain ⟨original, listed, rfl⟩ := List.mem_map.1 (SortedSet.mem_ofList.1 member)
    rw [rename_renameReads (unversioned original listed)]
    exact listed
  cases asked with
  | nothing => exact Or.inl Formula.rename_top
  | positive member formed =>
    exact Or.inr (mem_sidesOver.2 ⟨_, predicate member,
      Or.inl (Formula.ofExpression_rename (r := Variable.base) (fun _ => rfl) formed)⟩)
  | negative member formed =>
    exact Or.inr (mem_sidesOver.2 ⟨_, predicate member,
      Or.inr (Formula.ofExpression_rename (r := Variable.base) (fun _ => rfl) formed)⟩)

/-- At whatever versions the predicates are read, an abstraction without its versions is one of
the formulas that the predicates can say. -/
theorem rename_widen_mem (unversioned : Unversioned precision)
    (widened : domain.widen f (.ofList (precision.toList.map (renameReads versions))) = .ok g) :
    g.rename Variable.base ∈ summariesOver precision := by
  obtain ⟨cubes, each, rfl⟩ := exists_of_widen widened
  rw [Formula.rename_foldl_disjunction, Formula.rename_bottom]
  refine mem_summariesOver fun cube member => ?_
  obtain ⟨versioned, listed, rfl⟩ := List.mem_map.1 member
  obtain ⟨sides, all, rfl⟩ := each versioned listed
  rw [Formula.rename_foldl_conjunction, Formula.rename_top]
  refine mem_cubesOver fun side inside => ?_
  obtain ⟨original, asked, rfl⟩ := List.mem_map.1 inside
  exact rename_side unversioned (all original asked)

end PredicateDomain

end EventCheck
