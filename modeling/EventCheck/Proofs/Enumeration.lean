import EventCheck.Proofs.Formula
import EventCheck.Solver.Enumeration
import Mathlib.Algebra.Group.Nat.Defs

/-!
What the answers of the enumerating solver mean. Values that a cube forces hold in every lookup
that satisfies the cube, so a cube is only given up when no lookup satisfies it; and a model that
is found satisfies the formula, whatever values the other variables get.
-/

namespace EventCheck

variable {lookup : Variable → Option Constant}

/-- Each known variable holds a value of its type. -/
def TypedLookup (lookup : Variable → Option Constant) : Prop :=
  ∀ v c, lookup v = some c → c.dataType = v.dataType

namespace Enumeration

variable {m : Model} {c : Cube} {l : Literal}

/-! ### Forced values -/

/-- All entries of the model are entries of the lookup. -/
def Agrees (m : Model) (lookup : Variable → Option Constant) : Prop :=
  ∀ v, Expression.Refines (m.get? v) (lookup v)

theorem knownValue_eq_some_iff {e : Expression} {d : Constant} :
    knownValue m e = some d ↔ e.eval m.get? = .ok (some d) := by
  unfold knownValue
  split <;> simp_all

/-- A forced value is one that the side of an equation has, or the polarity of a variable. -/
theorem forced?_eq_some {v : Variable} {d : Constant} (forced : forced? m l = some (v, d)) :
    l.atom = .var v ∧ d = .bool l.positive ∨
      l.positive = true ∧ ∃ other, other.eval m.get? = .ok (some d) ∧
        (l.atom = .binary .eq (.var v) other ∨ l.atom = .binary .eq other (.var v)) := by
  obtain ⟨atom, positive⟩ := l
  have side : ∀ {e : Expression} {w : Variable},
      e.asVariable?.filter (fun x => !m.contains x) = some w → e = .var w := by
    intro e w found
    have named := (Option.filter_eq_some_iff.1 found).1
    cases e <;> simp [Expression.asVariable?] at named
    rw [named]
  unfold forced? at forced
  dsimp only at forced ⊢
  split at forced
  · simp only [Option.some.injEq, Prod.mk.injEq] at forced
    exact Or.inl ⟨by rw [forced.1], forced.2.symm⟩
  · rename_i lhs rhs
    split at forced
    · rename_i w _ found
      obtain ⟨value, known, same⟩ := Option.map_eq_some_iff.1 forced
      obtain ⟨rfl, rfl⟩ := Prod.mk.inj same
      exact Or.inr ⟨rfl, rhs, knownValue_eq_some_iff.1 known, Or.inl (by rw [side found])⟩
    · rename_i w _ found
      obtain ⟨value, known, same⟩ := Option.map_eq_some_iff.1 forced
      obtain ⟨rfl, rfl⟩ := Prod.mk.inj same
      exact Or.inr ⟨rfl, lhs, knownValue_eq_some_iff.1 known, Or.inr (by rw [side found])⟩
    · simp at forced
  · simp at forced

theorem lookup_of_forced {v : Variable} {d : Constant} (agrees : Agrees m lookup)
    (holds : l.atom.eval lookup = .ok (some (.bool l.positive)))
    (forced : forced? m l = some (v, d)) : lookup v = some d := by
  rcases forced?_eq_some forced with ⟨atom, rfl⟩ | ⟨positive, other, known, form⟩
  · rw [atom, Expression.eval_var] at holds
    exact Except.ok.inj holds
  · have sides : ∃ e, (Expression.var v).eval lookup = .ok (some e) ∧
        other.eval lookup = .ok (some e) := by
      rcases form with form | form
      · rw [form, positive] at holds
        exact Expression.eval_eq_true_iff.1 holds
      · rw [form, positive] at holds
        obtain ⟨e, first, second⟩ := Expression.eval_eq_true_iff.1 holds
        exact ⟨e, second, first⟩
    obtain ⟨e, first, second⟩ := sides
    have same := Expression.eval_refines agrees known second d rfl
    rw [← same]
    exact Except.ok.inj ((Expression.eval_var v).symm.trans first)

theorem agrees_insert {v : Variable} {d : Constant} (agrees : Agrees m lookup)
    (value : lookup v = some d) : Agrees (m.insert v d) lookup := by
  intro w e found
  rw [SortedMap.get?_insert] at found
  by_cases same : w = v
  · rw [if_pos same] at found
    rw [same, value, Option.some.inj found]
  · rw [if_neg same] at found
    exact agrees w e found

/-- What holds before literals of a cube are used, and stays so with each of them, holds when
nothing more is forced. -/
theorem settle_induction {p : Model → Prop} {rounds : Nat} (start : p m)
    (step : ∀ m, p m → ∀ l ∈ c, p (force m l)) : p (settle c rounds m) := by
  induction rounds generalizing m with
  | zero => exact start
  | succ rounds ih =>
    unfold settle
    dsimp only
    split
    · exact start
    · apply ih
      exact List.foldlRecOn c.toList force start step

/-- The lookup has each value that a literal of the cube forces when entries of it are known. -/
def Obeys (c : Cube) (lookup : Variable → Option Constant) : Prop :=
  ∀ m : Model, Agrees m lookup → ∀ l ∈ c, ∀ v d, forced? m l = some (v, d) → lookup v = some d

theorem obeys_of_holds (holds : c.Holds lookup) : Obeys c lookup :=
  fun _ agrees l member _ _ forced => lookup_of_forced agrees (holds l member) forced

/-- A lookup that obeys the cube has all that the cube forces. -/
theorem propagate_agrees (obeys : Obeys c lookup) : Agrees (propagate c) lookup := by
  refine settle_induction (p := fun m => Agrees m lookup) (fun v d found => by simp at found) ?_
  intro m agrees l member
  unfold force
  split
  · rename_i v d forced
    split
    · exact agrees
    · exact agrees_insert agrees (obeys m agrees l member v d forced)
  · exact agrees

/-! ### Literals -/

theorem literalHolds_eq_some_iff {b : Bool} :
    literalHolds lookup l = some b ↔ l.atom.eval lookup = .ok (some (.bool (b == l.positive))) := by
  unfold literalHolds
  split
  · rename_i t value
    rw [value]
    cases t <;> cases b <;> cases l.positive <;> simp
  · rename_i undecided
    simp only [reduceCtorEq, false_iff]
    exact undecided _

theorem allHold_eq_true_iff {literals : List Literal} :
    allHold lookup literals = some true ↔ ∀ l ∈ literals, literalHolds lookup l = some true := by
  induction literals with
  | nil => simp [allHold]
  | cons l rest ih =>
    unfold allHold
    split
    · rename_i holds
      simp [holds, ih]
    · rename_i fails
      simp [fails]
    · rename_i unknown
      simp [unknown]

theorem allHold_eq_false_iff {literals : List Literal} :
    allHold lookup literals = some false ↔ ∃ l ∈ literals, literalHolds lookup l = some false := by
  induction literals with
  | nil => simp [allHold]
  | cons l rest ih =>
    unfold allHold
    split
    · rename_i holds
      simp [holds, ih]
    · rename_i fails
      simp [fails]
    · rename_i unknown
      simp [unknown, ih]

theorem literalHolds_congr {more : Variable → Option Constant}
    (same : ∀ v ∈ l.atom.variables, lookup v = more v) :
    literalHolds lookup l = literalHolds more l := by
  rw [literalHolds, literalHolds, Expression.eval_congr same]

/-- A literal that holds does not fail when more of its variables are known. -/
theorem literalHolds_ne_false {more : Variable → Option Constant}
    (holds : l.atom.eval lookup = .ok (some (.bool l.positive)))
    (refined : ∀ v ∈ l.atom.variables, Expression.Refines (lookup v) (more v)) :
    literalHolds more l ≠ some false := by
  intro fails
  let known : Variable → Option Constant := fun v => if v ∈ l.atom.variables then lookup v else none
  have same : l.atom.eval known = l.atom.eval lookup :=
    Expression.eval_congr fun v member => if_pos member
  have below : ∀ v, Expression.Refines (known v) (more v) := by
    intro v d found
    by_cases member : v ∈ l.atom.variables
    · exact refined v member d (by simpa [known, member] using found)
    · simp [known, member] at found
  have opposite := Expression.eval_refines below (same.trans holds)
    (literalHolds_eq_some_iff.1 fails) _ rfl
  cases positive : l.positive <;> simp [positive] at opposite

theorem mem_cubeVariables {v : Variable} :
    v ∈ cubeVariables c ↔ ∃ l ∈ c, v ∈ l.atom.variables := by
  simp [cubeVariables, SortedSet.mem_unionMap, SortedSet.mem_def.symm]

/-! ### Assignments -/

theorem count_cons {v : Variable} {values : Array Constant} {rest : Choices} :
    Choices.count ((v, values) :: rest) = values.size * Choices.count rest := by
  have scaled : ∀ (choices : Choices) (n : Nat),
      choices.foldl (fun n choice => n * choice.2.size) n = n * choices.count := by
    intro choices
    unfold Choices.count
    induction choices with
    | nil => simp
    | cons choice rest ih =>
      intro n
      rw [List.foldl_cons, List.foldl_cons, ih, ih (1 * _)]
      simp [Nat.mul_assoc]
  rw [Choices.count, List.foldl_cons, scaled]
  simp

/-- Every way to choose has a number. -/
theorem exists_assignment {target : Variable → Constant} {choices : Choices}
    (present : ∀ choice ∈ choices, target choice.1 ∈ choice.2) :
    ∃ index < choices.count,
      choices.assignment index = choices.map fun choice => (choice.1, target choice.1) := by
  induction choices with
  | nil => exact ⟨0, by simp [Choices.count], rfl⟩
  | cons choice rest ih =>
    obtain ⟨v, values⟩ := choice
    obtain ⟨later, below, chosen⟩ := ih fun choice member => present choice (by simp [member])
    obtain ⟨first, bound, value⟩ := Array.getElem_of_mem (present (v, values) (by simp))
    have bound : first < values.size := bound
    refine ⟨first + values.size * later, ?_, ?_⟩
    · rw [count_cons]
      calc first + values.size * later < values.size * (later + 1) := by
            rw [Nat.mul_add]
            omega
        _ ≤ values.size * Choices.count rest := Nat.mul_le_mul_left _ below
    · have digit : (first + values.size * later) % values.size = first := by
        rw [Nat.add_mul_mod_self_left, Nat.mod_eq_of_lt bound]
      have others : (first + values.size * later) / values.size = later := by
        rw [Nat.add_mul_div_left _ _ (by omega), Nat.div_eq_of_lt bound, Nat.zero_add]
      have here : values[first]? = some (target v) := by
        rw [Array.getElem?_eq_getElem bound, value]
      simp only [Choices.assignment, digit, others, here, chosen, List.map_cons]

/-- Each chosen value is one of the candidates of its variable. -/
theorem mem_assignment {choices : Choices} {index : Nat} {v : Variable} {d : Constant}
    (member : (v, d) ∈ choices.assignment index) : ∃ values, (v, values) ∈ choices ∧ d ∈ values := by
  induction choices generalizing index with
  | nil => simp [Choices.assignment] at member
  | cons choice rest ih =>
    obtain ⟨w, values⟩ := choice
    unfold Choices.assignment at member
    split at member
    · rename_i e found
      rcases List.mem_cons.1 member with same | later
      · obtain ⟨rfl, rfl⟩ := Prod.mk.inj same
        exact ⟨values, by simp, Array.mem_of_getElem? found⟩
      · obtain ⟨others, inside, candidate⟩ := ih later
        exact ⟨others, by simp [inside], candidate⟩
    · obtain ⟨others, inside, candidate⟩ := ih member
      exact ⟨others, by simp [inside], candidate⟩

/-- If all variables have candidates an assignment chooses for each of them. -/
theorem keys_assignment {choices : Choices} {index : Nat}
    (offered : ∀ choice ∈ choices, 0 < choice.2.size) :
    (choices.assignment index).map (·.1) = choices.map (·.1) := by
  induction choices generalizing index with
  | nil => rfl
  | cons choice rest ih =>
    obtain ⟨v, values⟩ := choice
    have some : index % values.size < values.size := Nat.mod_lt _ (offered (v, values) (by simp))
    have later := @ih (index / values.size) fun choice member =>
      offered choice (List.mem_cons_of_mem _ member)
    simp only [Choices.assignment, Array.getElem?_eq_getElem some, List.map_cons, later]

theorem candidates_ne_nil {range : Nat} {constants : List Constant} {type : DataType} :
    candidates range constants type ≠ [] := by
  cases type with
  | bool => exact List.cons_ne_nil _ _
  | string =>
    have empty : "" ∈ textCandidates constants := by simp [textCandidates]
    exact fun none => List.ne_nil_of_mem (SortedSet.mem_def.1 empty) (List.map_eq_nil_iff.1 none)
  | int =>
    -- the range holds zero, and the constants only add to it
    have grows : ∀ (numbers : List Int) (values : SortedSet Int), 0 ∈ values →
        0 ∈ numbers.foldl (fun values n => ((values.insert (n - 1)).insert n).insert (n + 1))
          values := by
      intro numbers
      induction numbers with
      | nil => exact fun _ member => member
      | cons n rest ih => exact fun values member => ih _ (by simp [member])
    have zero : (0 : Int) ∈ integersWithin range := by
      refine SortedSet.mem_def.2 (List.mem_map.2 ⟨range, List.mem_range.2 (by omega), ?_⟩)
      exact Int.sub_self _
    have member := grows (constants.filterMap Constant.asInt?) _ zero
    exact fun none => List.ne_nil_of_mem (SortedSet.mem_def.1 member) (List.map_eq_nil_iff.1 none)

theorem tryAssignments_eq_none_iff {choices : Choices} {rest : Outcome} {remaining index : Nat} :
    tryAssignments c m choices rest remaining index = .none ↔
      rest = .none ∧ ∀ i < remaining,
        allHold (lookupIn m (choices.assignment (index + i))) c.toList = some false := by
  induction remaining generalizing rest index with
  | zero => simp [tryAssignments]
  | succ remaining ih =>
    have next : ∀ i, index + 1 + i = index + (i + 1) := by omega
    unfold tryAssignments
    dsimp only
    simp only [Nat.forall_lt_succ_left', Nat.add_zero]
    split
    · rename_i holds
      simp [holds]
    · rename_i fails
      simp only [ih, fails, next, true_and]
    · rename_i unknown
      simp [ih, unknown]

theorem tryAssignments_model {choices : Choices} {rest : Outcome} {remaining index : Nat}
    {found : Model} (given : tryAssignments c m choices rest remaining index = .model found)
    (open_ : ∀ other, rest ≠ .model other) :
    ∃ i, allHold (lookupIn m (choices.assignment i)) c.toList = some true ∧
      found = (choices.assignment i).foldl (fun m (v, value) => m.insert v value) m := by
  induction remaining generalizing rest index with
  | zero => exact absurd given (open_ found)
  | succ remaining ih =>
    unfold tryAssignments at given
    dsimp only at given
    split at given
    · rename_i holds
      exact ⟨index, holds, (Outcome.model.inj given).symm⟩
    · exact ih given open_
    · exact ih given (by simp)

/-! ### Unsatisfiable cubes -/

theorem lookupIn_map {target : Variable → Constant} {choices : Choices} {v : Variable} :
    lookupIn m (choices.map fun choice => (choice.1, target choice.1)) v =
      if v ∈ choices.map (·.1) then some (target v) else m.get? v := by
  induction choices with
  | nil => simp [lookupIn]
  | cons choice rest ih =>
    unfold lookupIn at ih ⊢
    by_cases same : choice.1 = v
    · simp [same]
    · have different : v ≠ choice.1 := fun h => same h.symm
      rw [List.map_cons, List.find?_cons_of_neg (by simpa using same), ih]
      simp only [List.map_cons, List.mem_cons, different, false_or]

/-- The variables of the cube that nothing forces. -/
def unforced (c : Cube) : List Variable :=
  (cubeVariables c).toList.filter fun v => !(propagate c).contains v

theorem mem_unforced {v : Variable} :
    v ∈ unforced c ↔ v ∈ cubeVariables c ∧ (propagate c).get? v = none := by
  simp [unforced, SortedSet.mem_def, SortedMap.contains_eq_false_iff]

/-- What is tried for the variables that nothing forces. -/
def choices (range : Nat) (c : Cube) : Choices :=
  (unforced c).map fun v =>
    (v, (candidates range (cubeConstants c).toList v.dataType).toArray)

theorem keys_choices {range : Nat} : (choices range c).map (·.1) = unforced c := by
  simp [choices, Function.comp_def]

theorem keys_assignment_choices {range index : Nat} :
    ((choices range c).assignment index).map (·.1) = unforced c := by
  refine (keys_assignment ?_).trans keys_choices
  intro choice member
  obtain ⟨w, _, rfl⟩ := List.mem_map.1 member
  exact List.length_pos_iff.2 candidates_ne_nil

/-- The values that the cube forces make a literal of it false. -/
def Conflicts (c : Cube) : Prop := ∃ l ∈ c, literalHolds (propagate c).get? l = some false

/-- The variables that nothing forces are truth values, and so few that all values are tried. -/
structure Exhaustive (c : Cube) : Prop where
  booleans : ∀ v ∈ unforced c, v.dataType = .bool
  few : 2 ^ (unforced c).length ≤ maxAssignments

theorem count_choices {range : Nat} (booleans : ∀ v ∈ unforced c, v.dataType = .bool) :
    (choices range c).count = 2 ^ (unforced c).length := by
  unfold choices
  generalize unforced c = free at booleans
  induction free with
  | nil => rfl
  | cons v rest ih =>
    have boolean := booleans v (by simp)
    rw [List.map_cons, count_cons, ih fun w member => booleans w (by simp [member])]
    simp [boolean, candidates, Nat.pow_succ, Nat.mul_comm]

/-- A lookup of typed values that has what the cube forces and knows all variables of the cube. -/
structure Completes (c : Cube) (lookup : Variable → Option Constant) : Prop where
  typed : TypedLookup lookup
  agrees : Agrees (propagate c) lookup
  known : ∀ v ∈ cubeVariables c, ∃ d, lookup v = some d

theorem checkCube_eq (range : Nat) (c : Cube) : checkCube range c =
    if c.toList.any fun l => literalHolds (propagate c).get? l = some false then .none
    else tryAssignments c (propagate c) (choices range c)
      (if (unforced c).all (·.dataType == .bool) && (choices range c).count ≤ maxAssignments
        then .none else .undecided)
      (min (choices range c).count maxAssignments) 0 := rfl

theorem any_iff_conflicts :
    (c.toList.any fun l => literalHolds (propagate c).get? l = some false) = true ↔
      Conflicts c := by
  simp [Conflicts, SortedSet.mem_def]

/-- The search is over all values of the unforced variables exactly if the cube is exhaustive. -/
theorem complete_iff_exhaustive {range : Nat} :
    ((unforced c).all (·.dataType == .bool) && (choices range c).count ≤ maxAssignments) = true ↔
      Exhaustive c := by
  rw [Bool.and_eq_true, List.all_eq_true, decide_eq_true_iff]
  constructor
  · rintro ⟨all, few⟩
    have booleans : ∀ v ∈ unforced c, v.dataType = .bool := fun v member => by
      simpa using all v member
    exact ⟨booleans, count_choices booleans ▸ few⟩
  · rintro ⟨booleans, few⟩
    exact ⟨fun v member => by simpa using booleans v member, count_choices booleans ▸ few⟩

theorem checkCube_eq_none_iff {range : Nat} : checkCube range c = .none ↔
    Conflicts c ∨ Exhaustive c ∧ ∀ index < (choices range c).count,
      ∃ l ∈ c, literalHolds (lookupIn (propagate c) ((choices range c).assignment index)) l =
        some false := by
  rw [checkCube_eq]
  by_cases conflicts : Conflicts c
  · rw [if_pos (any_iff_conflicts.2 conflicts)]
    simp only [conflicts, true_or]
  · rw [if_neg ((not_congr any_iff_conflicts).2 conflicts), tryAssignments_eq_none_iff]
    by_cases exhaustive : Exhaustive c
    · have few : (choices range c).count ≤ maxAssignments :=
        count_choices exhaustive.booleans ▸ exhaustive.few
      simp only [if_pos (complete_iff_exhaustive.2 exhaustive), Nat.min_eq_left few, Nat.zero_add,
        allHold_eq_false_iff, conflicts, exhaustive, true_and, false_or, SortedSet.mem_def]
    · rw [if_neg ((not_congr complete_iff_exhaustive).2 exhaustive)]
      simp [conflicts, exhaustive]

/-- Some assignment is the given lookup, if that knows all variables and what is tried are truth
values. -/
theorem Completes.exists_assignment {range : Nat} (completes : Completes c lookup)
    (booleans : ∀ v ∈ unforced c, v.dataType = .bool) :
    ∃ index < (choices range c).count, ∀ v ∈ cubeVariables c,
      lookupIn (propagate c) ((choices range c).assignment index) v = lookup v := by
  let target : Variable → Constant := fun v => (lookup v).getD (.bool false)
  have value : ∀ v ∈ cubeVariables c, lookup v = some (target v) := by
    intro v occurs
    obtain ⟨d, known⟩ := completes.known v occurs
    simp [target, known]
  have present : ∀ choice ∈ choices range c, target choice.1 ∈ choice.2 := by
    intro choice member
    obtain ⟨v, inside, rfl⟩ := List.mem_map.1 member
    have boolean := booleans v inside
    have known := value v (mem_unforced.1 inside).1
    obtain ⟨b, listed⟩ := Expression.exists_bool ((completes.typed v _ known).trans boolean)
    cases b <;> simp [listed, boolean, candidates]
  obtain ⟨index, bound, chosen⟩ := Enumeration.exists_assignment present
  refine ⟨index, bound, fun v occurs => ?_⟩
  rw [chosen, lookupIn_map, keys_choices]
  split
  · exact (value v occurs).symm
  · rename_i forced
    have decided : (propagate c).get? v ≠ none := fun none => forced (mem_unforced.2 ⟨occurs, none⟩)
    obtain ⟨d, known⟩ := Option.ne_none_iff_exists'.1 decided
    rw [known, completes.agrees v d known]

/-- A cube is only given up if the forced values make a literal false, or if the search is over all
values of the other variables and each of them makes a literal false. -/
theorem fails_of_checkCube {range : Nat} (given : checkCube range c = .none) :
    Conflicts c ∨ Exhaustive c ∧
      ∀ lookup, Completes c lookup → ∃ l ∈ c, literalHolds lookup l = some false := by
  refine (checkCube_eq_none_iff.1 given).imp_right ?_
  rintro ⟨exhaustive, all⟩
  refine ⟨exhaustive, fun lookup completes => ?_⟩
  obtain ⟨index, bound, same⟩ := completes.exists_assignment exhaustive.booleans
  obtain ⟨l, member, fails⟩ := all index bound
  refine ⟨l, member, ?_⟩
  rw [← fails]
  exact literalHolds_congr fun v occurs => (same v (mem_cubeVariables.2 ⟨l, member, occurs⟩)).symm

/-- A cube that is given up holds under no typed lookup. -/
theorem not_holds_of_checkCube {range : Nat} (given : checkCube range c = .none)
    (typed : TypedLookup lookup) : ¬c.Holds lookup := by
  intro holds
  have agrees := propagate_agrees (obeys_of_holds holds)
  rcases fails_of_checkCube given with ⟨l, member, fails⟩ | ⟨_, fails⟩
  · have value := literalHolds_eq_some_iff.1 fails
    have opposite := Expression.eval_refines agrees value (holds l member) _ rfl
    cases positive : l.positive <;> simp [positive] at opposite
  · -- what the lookup leaves open does not matter, so any values of the right types will do
    let total : Variable → Option Constant := fun v => some ((lookup v).getD v.dataType.default)
    have refined : ∀ v, Expression.Refines (lookup v) (total v) := by
      intro v d known
      simp [total, known]
    have completes : Completes c total := by
      constructor
      · rintro v d ⟨⟩
        cases known : lookup v with
        | none => exact DataType.dataType_default v.dataType
        | some d => exact typed v d known
      · exact fun v d known => refined v d (agrees v d known)
      · exact fun v _ => ⟨_, rfl⟩
    obtain ⟨l, member, failing⟩ := fails total completes
    exact literalHolds_ne_false (holds l member) (fun v _ => refined v) failing

/-- A disjunction is unsatisfiable if all cubes are given up. -/
theorem checkCubes_eq_unsat_iff {range : Nat} {cubes : List Cube} :
    checkCubes range cubes = .unsat ↔ ∀ c ∈ cubes, checkCube range c = .none := by
  induction cubes with
  | nil => simp [checkCubes]
  | cons c rest ih =>
    unfold checkCubes
    cases outcome : checkCube range c with
    | model found => simp [outcome, Outcome.result]
    | none => simp [outcome, Outcome.result, ih]
    | undecided =>
      simp only [Outcome.result, List.forall_mem_cons, outcome, reduceCtorEq, false_and, iff_false]
      split <;> simp

end Enumeration

/-- The enumerating solver only calls formulas unsatisfiable that are. -/
theorem Solver.sound_enumeration (range : Nat) : (Solver.enumeration range).Sound := by
  intro f unsat lookup typed holds
  obtain ⟨c, member, satisfied⟩ := holds
  have refuted := Enumeration.checkCubes_eq_unsat_iff.1 unsat c member
  exact Enumeration.not_holds_of_checkCube refuted typed satisfied

theorem Solver.isUnsat_enumeration_iff {range : Nat} {f : Formula} :
    (Solver.enumeration range).isUnsat f = true ↔
      ∀ c ∈ f.cubes, Enumeration.checkCube range c = .none := by
  rw [Solver.isUnsat, beq_iff_eq]
  exact Enumeration.checkCubes_eq_unsat_iff

/-! ### Models -/

/-- The entries of the model, and defaults for all other variables. -/
def Model.extension (m : Model) : Environment := fun v => (m.get? v).getD v.dataType.default

theorem Model.extension_of_get? {m : Model} {v : Variable} {d : Constant}
    (found : m.get? v = some d) : m.extension v = d := by
  simp [extension, found]

theorem Model.typed_extension {m : Model} (typed : TypedLookup m.get?) : m.extension.Typed := by
  intro v
  unfold extension
  cases found : m.get? v with
  | none => exact DataType.dataType_default v.dataType
  | some d => exact typed v d found

namespace Enumeration

variable {m : Model} {c : Cube}

/-- The entries are typed, and they are of variables of the cube. -/
def Proper (c : Cube) (lookup : Variable → Option Constant) : Prop :=
  ∀ v d, lookup v = some d → d.dataType = v.dataType ∧ v ∈ cubeVariables c

theorem Proper.typed {lookup : Variable → Option Constant} (proper : Proper c lookup) :
    TypedLookup lookup :=
  fun v d found => (proper v d found).1

theorem proper_forced {l : Literal} {v : Variable} {d : Constant} (proper : Proper c m.get?)
    (member : l ∈ c) (wellTyped : l.atom.WellTyped) (boolean : l.atom.dataType = .bool)
    (forced : forced? m l = some (v, d)) : d.dataType = v.dataType ∧ v ∈ cubeVariables c := by
  rw [mem_cubeVariables]
  rcases forced?_eq_some forced with ⟨atom, rfl⟩ | ⟨_, other, known, form | form⟩
  · rw [atom] at boolean
    exact ⟨boolean.symm, l, member, by simp [atom, Expression.variables]⟩
  · rw [form] at wellTyped
    exact ⟨(Expression.dataType_of_eval proper.typed known).trans wellTyped.2.2.2, l, member,
      by simp [form, Expression.variables]⟩
  · rw [form] at wellTyped
    exact ⟨(Expression.dataType_of_eval proper.typed known).trans wellTyped.2.2.2.symm, l, member,
      by simp [form, Expression.variables]⟩

theorem proper_force {l : Literal} (proper : Proper c m.get?) (member : l ∈ c)
    (wellTyped : l.atom.WellTyped) (boolean : l.atom.dataType = .bool) :
    Proper c (force m l).get? := by
  unfold force
  split
  · rename_i v d forced
    split
    · exact proper
    · intro w e found
      rw [SortedMap.get?_insert] at found
      split at found
      · rename_i same
        rw [same, ← Option.some.inj found]
        exact proper_forced proper member wellTyped boolean forced
      · exact proper w e found
  · exact proper

theorem proper_propagate (wellTyped : ∀ l ∈ c, l.atom.WellTyped ∧ l.atom.dataType = .bool) :
    Proper c (propagate c).get? := by
  refine settle_induction (p := fun m => Proper c m.get?) (fun v d found => by simp at found) ?_
  intro m proper l member
  exact proper_force proper member (wellTyped l member).1 (wellTyped l member).2

theorem dataType_of_mem_candidates {range : Nat} {constants : List Constant} {type : DataType}
    {d : Constant} (member : d ∈ candidates range constants type) : d.dataType = type := by
  cases type <;> simp only [candidates, List.mem_map, List.mem_cons, List.not_mem_nil, or_false]
    at member
  · obtain ⟨n, _, rfl⟩ := member
    rfl
  · rcases member with rfl | rfl <;> rfl
  · obtain ⟨s, _, rfl⟩ := member
    rfl

/-- Insertion of chosen values, each for a variable of its own, is looking them up first. -/
theorem get?_foldl_chosen {chosen : List (Variable × Constant)} {v : Variable}
    (distinct : (chosen.map (·.1)).Nodup) :
    (chosen.foldl (fun m (v, value) => m.insert v value) m).get? v = lookupIn m chosen v := by
  induction chosen generalizing m with
  | nil => simp [lookupIn]
  | cons entry rest ih =>
    obtain ⟨fresh, distinct⟩ := List.nodup_cons.1 distinct
    rw [List.foldl_cons, ih distinct]
    unfold lookupIn
    by_cases same : entry.1 = v
    · have absent : rest.find? (·.1 == v) = none := by
        refine List.find?_eq_none.2 fun other member => ?_
        intro equal
        refine fresh (List.mem_map.2 ⟨other, member, ?_⟩)
        exact (eq_of_beq equal).trans same.symm
      rw [absent, List.find?_cons_of_pos (by simpa using same), SortedMap.get?_insert]
      simp [same]
    · rw [List.find?_cons_of_neg (by simpa using same)]
      split
      · rfl
      · rw [SortedMap.get?_insert, if_neg fun h => same h.symm]

/-- A cube all of whose literals hold with the entries of the model holds in every typed
environment with these entries. -/
theorem holds_of_literalHolds {env : Environment} (typed : env.Typed)
    (agrees : Agrees m env.lookup)
    (decided : ∀ l ∈ c, l.atom.Total ∧ l.atom.dataType = .bool)
    (all : ∀ l ∈ c, literalHolds m.get? l = some true) : c.Holds env.lookup := by
  intro l member
  obtain ⟨total, boolean⟩ := decided l member
  obtain ⟨b, value⟩ := Expression.eval_total_bool typed total boolean
  have known := literalHolds_eq_some_iff.1 (all l member)
  have same := Expression.eval_refines agrees known value _ rfl
  rw [value, same]
  simp

theorem proper_lookupIn {range index : Nat} (proper : Proper c (propagate c).get?) :
    Proper c (lookupIn (propagate c) ((choices range c).assignment index)) := by
  intro v d value
  unfold lookupIn at value
  split at value
  · rename_i w e first
    have member := List.mem_of_find?_eq_some first
    have same : w = v := by simpa using List.find?_some first
    obtain ⟨values, offered, candidate⟩ := mem_assignment member
    obtain ⟨x, listed, entry⟩ := List.mem_map.1 offered
    obtain ⟨rfl, rfl⟩ := Prod.mk.inj entry
    rw [← Option.some.inj value, ← same]
    exact ⟨dataType_of_mem_candidates (List.mem_toArray.1 candidate), (mem_unforced.1 listed).1⟩
  · exact proper v d value

theorem known_lookupIn {range index : Nat} {v : Variable} (occurs : v ∈ cubeVariables c) :
    ∃ d, lookupIn (propagate c) ((choices range c).assignment index) v = some d := by
  unfold lookupIn
  split
  · exact ⟨_, rfl⟩
  · rename_i absent
    cases known : (propagate c).get? v with
    | some d => exact ⟨d, rfl⟩
    | none =>
      have free : v ∈ ((choices range c).assignment index).map (·.1) :=
        keys_assignment_choices ▸ mem_unforced.2 ⟨occurs, known⟩
      obtain ⟨entry, inside, same⟩ := List.mem_map.1 free
      exact absurd (beq_iff_eq.2 same) (List.find?_eq_none.1 absent entry inside)

theorem agrees_lookupIn {range index : Nat} :
    Agrees (propagate c) (lookupIn (propagate c) ((choices range c).assignment index)) := by
  intro v d known
  unfold lookupIn
  split
  · rename_i w e first
    have same : w = v := by simpa using List.find?_some first
    have free : w ∈ unforced c := by
      rw [← @keys_assignment_choices c range index]
      exact List.mem_map_of_mem (List.mem_of_find?_eq_some first)
    rw [same, mem_unforced, known] at free
    exact absurd free.2 (by simp)
  · exact known

theorem completes_lookupIn {range index : Nat} (proper : Proper c (propagate c).get?) :
    Completes c (lookupIn (propagate c) ((choices range c).assignment index)) :=
  ⟨(proper_lookupIn proper).typed, agrees_lookupIn, fun _ => known_lookupIn⟩

/-- The model that is found has what the search looked up, and makes all literals hold. -/
theorem checkCube_eq_model {range : Nat} {found : Model}
    (given : checkCube range c = .model found) :
    ∃ index, found.get? = lookupIn (propagate c) ((choices range c).assignment index) ∧
      ∀ l ∈ c, literalHolds found.get? l = some true := by
  rw [checkCube_eq] at given
  split at given
  · simp at given
  · obtain ⟨index, all, rfl⟩ := tryAssignments_model given (by intro other; split <;> simp)
    have distinct : (((choices range c).assignment index).map (·.1)).Nodup :=
      keys_assignment_choices ▸ (cubeVariables c).nodup.filter _
    have looked : (((choices range c).assignment index).foldl
        (fun m (v, value) => m.insert v value) (propagate c)).get? =
          lookupIn (propagate c) ((choices range c).assignment index) :=
      funext fun v => get?_foldl_chosen distinct
    exact ⟨index, looked, looked ▸ allHold_eq_true_iff.1 all⟩

theorem model_of_checkCube {range : Nat} {found : Model}
    (given : checkCube range c = .model found)
    (wellTyped : ∀ l ∈ c, l.atom.WellTyped ∧ l.atom.dataType = .bool) :
    Proper c found.get? ∧ ∀ l ∈ c, literalHolds found.get? l = some true := by
  obtain ⟨index, looked, all⟩ := checkCube_eq_model given
  exact ⟨looked ▸ proper_lookupIn (proper_propagate wellTyped), all⟩

theorem check_sat {range : Nat} {cubes : List Cube} (sat : checkCubes range cubes = .sat) :
    ∃ found, cubes.findSome? (fun c => (checkCube range c).model?) = some found := by
  induction cubes with
  | nil => simp [checkCubes] at sat
  | cons c rest ih =>
    rw [List.findSome?_cons]
    unfold checkCubes at sat
    cases outcome : checkCube range c with
    | model found => exact ⟨found, by simp [Outcome.model?]⟩
    | none =>
      simp only [outcome, Outcome.result] at sat
      exact ih sat
    | undecided =>
      simp only [outcome, Outcome.result] at sat
      split at sat
      · rename_i later
        exact ih later
      · simp at sat

end Enumeration

/-- A decided formula that the enumerating solver calls satisfiable holds in a typed environment
that has the entries of the solver's model, which are of variables of the formula. -/
theorem Solver.model_enumeration {range : Nat} {f : Formula} (decided : f.Decided)
    (sat : (Solver.enumeration range).check f = .sat) :
    ∃ found, (Solver.enumeration range).model f = some found ∧ found.extension.Typed ∧
      f.Holds found.extension.lookup ∧
      ∀ p : Variable → Prop, f.Within p → ∀ v d, found.get? v = some d → p v := by
  obtain ⟨found, first⟩ := Enumeration.check_sat sat
  refine ⟨found, first, ?_⟩
  obtain ⟨c, member, outcome⟩ := List.exists_of_findSome?_eq_some first
  have given : Enumeration.checkCube range c = .model found := by
    cases given : Enumeration.checkCube range c <;>
      simp_all [Enumeration.Outcome.model?]
  obtain ⟨entries, all⟩ := Enumeration.model_of_checkCube given fun l inside =>
    (decided c member l inside).imp_left Expression.Total.wellTyped
  have typed := Model.typed_extension entries.typed
  have agrees : Enumeration.Agrees found found.extension.lookup := by
    intro v d value
    rw [Environment.lookup, Model.extension_of_get? value]
  refine ⟨typed, ⟨c, member,
    Enumeration.holds_of_literalHolds typed agrees (decided c member) all⟩, fun p within v d value => ?_⟩
  obtain ⟨l, inside, occurs⟩ := Enumeration.mem_cubeVariables.1 (entries v d value).2
  exact within c member l inside v occurs

end EventCheck
