import EventCheck.Lattice.Formula
import EventCheck.Proofs.Evaluation

/-!
What formulas in disjunctive normal form mean. Normalization drops only cubes that hold nowhere or
that another cube makes superfluous, so conjunction and disjunction of formulas are those of their
meanings, and the formula of an expression holds exactly where the expression is true.
-/

namespace EventCheck

variable {lookup known more : Variable → Option Constant}

namespace Cube

@[simp] theorem holds_empty : (∅ : Cube).Holds lookup := by
  intro l member
  simp at member

theorem holds_union {c d : Cube} : (c ∪ d).Holds lookup ↔ c.Holds lookup ∧ d.Holds lookup := by
  simp only [Holds, SortedSet.mem_union, or_imp, forall_and]

theorem Holds.subset {c d : Cube} (holds : d.Holds lookup) (contained : c ⊆ d) : c.Holds lookup :=
  fun l member => holds l (contained l member)

theorem Holds.consistent {c : Cube} (holds : c.Holds lookup) : c.Consistent := by
  rintro atom ⟨negative, positive⟩
  have first := holds _ negative
  rw [holds _ positive] at first
  simp at first

end Cube

namespace Formula

/-! ### Normalization -/

theorem mem_of_mem_normalize {cubes : SortedSet Cube} {c : Cube}
    (member : c ∈ (normalize cubes).cubes) : c ∈ cubes := by
  simp only [normalize, SortedSet.mem_filter] at member
  exact member.1.1

theorem mem_normalize_iff {cubes : SortedSet Cube} {c : Cube} :
    c ∈ (normalize cubes).cubes ↔ c ∈ cubes ∧ c.Consistent ∧
      ∀ d ∈ cubes, d.Consistent → d ⊆ c → d = c := by
  simp only [normalize, SortedSet.mem_filter, Bool.not_eq_true', ← Bool.not_eq_true,
    isSubsumed_iff, Cube.isConsistent_iff, not_exists, not_and, Classical.not_not]
  simp only [← SortedSet.mem_def, SortedSet.mem_filter, Cube.isConsistent_iff, and_imp, and_assoc]

/-- Every consistent cube contains one that normalization keeps. -/
theorem exists_mem_normalize {cubes : SortedSet Cube} {c : Cube} (member : c ∈ cubes)
    (consistent : c.Consistent) : ∃ d ∈ (normalize cubes).cubes, d ⊆ c := by
  induction size : c.size using Nat.strongRecOn generalizing c with
  | _ n ih =>
    by_cases kept : c ∈ (normalize cubes).cubes
    · exact ⟨c, kept, fun _ h => h⟩
    · have subsumed : ∃ d ∈ cubes, d.Consistent ∧ d ⊆ c ∧ d ≠ c := by
        simpa [mem_normalize_iff, member, consistent] using kept
      obtain ⟨d, inside, sound, contained, different⟩ := subsumed
      have proper := SortedSet.isProperSubset_iff.2 ⟨contained, different⟩
      have smaller : d.size < c.size := by
        simp only [SortedSet.isProperSubset, Bool.and_eq_true, decide_eq_true_eq] at proper
        exact proper.1
      obtain ⟨e, found, below⟩ := ih d.size (size ▸ smaller) inside sound rfl
      exact ⟨e, found, fun l h => contained l (below l h)⟩

theorem holds_normalize {cubes : SortedSet Cube} :
    (normalize cubes).Holds lookup ↔ ∃ c ∈ cubes, c.Holds lookup := by
  constructor
  · rintro ⟨c, member, holds⟩
    exact ⟨c, mem_of_mem_normalize member, holds⟩
  · rintro ⟨c, member, holds⟩
    obtain ⟨d, kept, contained⟩ := exists_mem_normalize member holds.consistent
    exact ⟨d, kept, holds.subset contained⟩

/-- A formula is its own normal form. -/
theorem normalize_cubes (f : Formula) : normalize f.cubes = f := by
  refine cubes_injective (SortedSet.ext_mem fun c => ?_)
  rw [mem_normalize_iff]
  constructor
  · exact fun kept => kept.1
  · intro member
    exact ⟨member, f.consistent c member, fun d inside _ below => f.minimal d inside c member below⟩

/-! ### Connectives -/

@[simp] theorem holds_top : top.Holds lookup := ⟨∅, by simp [top], Cube.holds_empty⟩

@[simp] theorem not_holds_bottom : ¬bottom.Holds lookup := by
  rintro ⟨c, member, _⟩
  simp [bottom] at member

theorem mem_product {f g : Formula} {c : Cube} :
    c ∈ SortedSet.ofList (f.cubes.toList.flatMap fun c => g.cubes.toList.map fun d => c ∪ d) ↔
      ∃ d ∈ f.cubes, ∃ e ∈ g.cubes, d ∪ e = c := by
  simp [SortedSet.mem_def.symm]

@[simp] theorem holds_conjunction {f g : Formula} :
    (f.conjunction g).Holds lookup ↔ f.Holds lookup ∧ g.Holds lookup := by
  simp only [conjunction, holds_normalize, mem_product]
  constructor
  · rintro ⟨_, ⟨c, first, d, second, rfl⟩, holds⟩
    obtain ⟨left, right⟩ := Cube.holds_union.1 holds
    exact ⟨⟨c, first, left⟩, d, second, right⟩
  · rintro ⟨⟨c, first, left⟩, d, second, right⟩
    exact ⟨c ∪ d, ⟨c, first, d, second, rfl⟩, Cube.holds_union.2 ⟨left, right⟩⟩

@[simp] theorem holds_disjunction {f g : Formula} :
    (f.disjunction g).Holds lookup ↔ f.Holds lookup ∨ g.Holds lookup := by
  simp only [disjunction, holds_normalize, SortedSet.mem_union, or_and_right, exists_or]
  rfl

theorem holds_ofCube {c : Cube} : (ofCube c).Holds lookup ↔ c.Holds lookup := by
  simp [ofCube, holds_normalize]

theorem consistent_singleton (l : Literal) : Cube.Consistent (.singleton l) := by
  rintro atom ⟨negative, positive⟩
  have first := SortedSet.mem_singleton.1 negative
  rw [← SortedSet.mem_singleton.1 positive] at first
  cases first

theorem mem_ofLiteral (l : Literal) : SortedSet.singleton l ∈ (ofLiteral l).cubes := by
  rw [ofLiteral, ofCube, mem_normalize_iff]
  refine ⟨by simp, consistent_singleton l, ?_⟩
  intro d member _ _
  exact SortedSet.mem_singleton.1 member

@[simp] theorem holds_ofLiteral {l : Literal} :
    (ofLiteral l).Holds lookup ↔ l.atom.eval lookup = .ok (some (.bool l.positive)) := by
  simp [ofLiteral, holds_ofCube, Cube.Holds]

theorem isFalse_iff {f : Formula} : f.isFalse = true ↔ f = bottom := by
  constructor
  · intro empty
    refine cubes_injective (SortedSet.toList_injective ?_)
    simpa [isFalse, SortedSet.isEmpty, bottom] using empty
  · rintro rfl
    rfl

theorem not_isFalse_of_holds {f : Formula} (holds : f.Holds lookup) : f.isFalse = false := by
  refine Bool.eq_false_iff.2 fun empty => ?_
  rw [isFalse_iff.1 empty] at holds
  exact not_holds_bottom holds

theorem isTrue_iff {f : Formula} : f.isTrue = true ↔ f = top := by
  rw [isTrue, SortedSet.contains_iff]
  constructor
  · intro member
    refine cubes_injective (SortedSet.ext_mem fun c => ?_)
    constructor
    · intro inside
      have same := f.minimal ∅ member c inside (by simp [HasSubset.Subset])
      simp [top, ← same]
    · intro inside
      rw [SortedSet.mem_singleton.1 inside]
      exact member
  · rintro rfl
    simp [top]

theorem conjunction_top (f : Formula) : f.conjunction top = f := by
  have same : SortedSet.ofList
      (f.cubes.toList.flatMap fun c => top.cubes.toList.map fun d => c ∪ d) = f.cubes := by
    refine SortedSet.ext_mem fun c => ?_
    have alone : ∀ d : Cube, d ∪ ∅ = d := fun d => SortedSet.ext_mem (by simp)
    rw [mem_product]
    simp [top, alone]
  rw [conjunction, same, normalize_cubes]

theorem disjunction_self (f : Formula) : f.disjunction f = f := by
  have same : f.cubes ∪ f.cubes = f.cubes := SortedSet.ext_mem (by simp)
  rw [disjunction, same, normalize_cubes]

theorem implies_iff {f g : Formula} :
    f.implies g = true ↔ ∀ c ∈ f.cubes, ∃ d ∈ g.cubes, d ⊆ c := by
  simp [implies, SortedSet.mem_def, SortedSet.isSubset_iff]

theorem implies_refl (f : Formula) : f.implies f = true := by
  rw [implies_iff]
  intro c member
  exact ⟨c, member, fun _ inside => inside⟩

theorem implies_trans {f g h : Formula} (first : f.implies g = true)
    (second : g.implies h = true) : f.implies h = true := by
  rw [implies_iff] at first second ⊢
  intro c member
  obtain ⟨d, inside, left⟩ := first c member
  obtain ⟨e, found, right⟩ := second d inside
  exact ⟨e, found, fun l occurs => left l (right l occurs)⟩

theorem holds_of_implies {f g : Formula} (implied : f.implies g = true) (holds : f.Holds lookup) :
    g.Holds lookup := by
  obtain ⟨c, member, all⟩ := holds
  obtain ⟨d, found, contained⟩ := implies_iff.1 implied c member
  exact ⟨d, found, all.subset contained⟩

/-- A conjunction implies its first part by form alone. -/
theorem conjunction_implies (f g : Formula) : (f.conjunction g).implies f = true := by
  refine implies_iff.2 fun c member => ?_
  obtain ⟨d, first, e, _, rfl⟩ := mem_product.1 (mem_of_mem_normalize member)
  exact ⟨d, first, fun l inside => by simp [inside]⟩

/-! ### Atoms -/

/-- All atoms of the formula are as `p` says. -/
def AllAtoms (p : Expression → Prop) (f : Formula) : Prop := ∀ c ∈ f.cubes, ∀ l ∈ c, p l.atom

section AllAtoms

variable {p q : Expression → Prop} {f g : Formula}

theorem AllAtoms.imp (weaker : ∀ e, p e → q e) (all : f.AllAtoms p) : f.AllAtoms q :=
  fun c member l inside => weaker l.atom (all c member l inside)

theorem AllAtoms.and (left : f.AllAtoms p) (right : f.AllAtoms q) :
    f.AllAtoms fun e => p e ∧ q e :=
  fun c member l inside => ⟨left c member l inside, right c member l inside⟩

theorem allAtoms_normalize {cubes : SortedSet Cube} (all : ∀ c ∈ cubes, ∀ l ∈ c, p l.atom) :
    (normalize cubes).AllAtoms p :=
  fun c member => all c (mem_of_mem_normalize member)

@[simp] theorem allAtoms_top : top.AllAtoms p := by
  intro c member l inside
  simp only [top, SortedSet.mem_singleton] at member
  simp [member] at inside

@[simp] theorem allAtoms_bottom : bottom.AllAtoms p := by
  intro c member
  simp [bottom] at member

theorem AllAtoms.conjunction (left : f.AllAtoms p) (right : g.AllAtoms p) :
    (f.conjunction g).AllAtoms p := by
  refine allAtoms_normalize fun c member l inside => ?_
  obtain ⟨d, first, e, second, rfl⟩ := mem_product.1 member
  rcases SortedSet.mem_union.1 inside with inside | inside
  · exact left d first l inside
  · exact right e second l inside

theorem AllAtoms.disjunction (left : f.AllAtoms p) (right : g.AllAtoms p) :
    (f.disjunction g).AllAtoms p := by
  refine allAtoms_normalize fun c member => ?_
  rcases SortedSet.mem_union.1 member with member | member
  · exact left c member
  · exact right c member

theorem allAtoms_ofCube {c : Cube} (all : ∀ l ∈ c, p l.atom) : (ofCube c).AllAtoms p := by
  refine allAtoms_normalize fun d member => ?_
  rw [SortedSet.mem_singleton.1 member]
  exact all

theorem allAtoms_ofLiteral {l : Literal} (holds : p l.atom) : (ofLiteral l).AllAtoms p := by
  refine allAtoms_ofCube fun m inside => ?_
  rw [SortedSet.mem_singleton.1 inside]
  exact holds

theorem mem_atoms {e : Expression} : e ∈ f.atoms ↔ ∃ c ∈ f.cubes, ∃ l ∈ c, l.atom = e := by
  simp [atoms, SortedSet.mem_def.symm]

end AllAtoms

/-- All variables of the formula are as `p` says. -/
def Within (p : Variable → Prop) (f : Formula) : Prop :=
  f.AllAtoms fun e => ∀ v ∈ e.variables, p v

theorem Within.imp {p q : Variable → Prop} {f : Formula} (weaker : ∀ v, p v → q v)
    (within : f.Within p) : f.Within q :=
  AllAtoms.imp (fun _ all v member => weaker v (all v member)) within

/-- Only the variables of a formula decide whether it holds. -/
theorem Within.holds_iff {p : Variable → Prop} {f : Formula} (within : f.Within p)
    (same : ∀ v, p v → known v = more v) : f.Holds known ↔ f.Holds more := by
  have evaluated : ∀ c ∈ f.cubes, ∀ l ∈ c, l.atom.eval known = l.atom.eval more :=
    fun c member l inside => Expression.eval_congr fun v occurs =>
      same v (within c member l inside v occurs)
  constructor
  · rintro ⟨c, member, all⟩
    exact ⟨c, member, fun l inside => (evaluated c member l inside).symm.trans (all l inside)⟩
  · rintro ⟨c, member, all⟩
    exact ⟨c, member, fun l inside => (evaluated c member l inside).trans (all l inside)⟩

/-! ### Formulas of expressions -/

end Formula

/-- Neither a negation nor a conjunction or disjunction. -/
def Expression.Atomic : Expression → Prop
  | not _ | binary .and _ _ | binary .or _ _ => False
  | _ => True

namespace Formula

theorem ofAtom_eq_ok_iff {e : Expression} {positive : Bool} {f : Formula} :
    ofAtom e positive = .ok f ↔
      e.isGround = false ∧ f = ofLiteral ⟨e, positive⟩ ∨
        e.isGround = true ∧ ∃ b, e.evalGround = .ok (.bool b) ∧
          f = if b = positive then top else bottom := by
  unfold ofAtom
  cases ground : e.isGround with
  | false => simp [eq_comm]
  | true =>
    cases value : e.evalGround with
    | error error => simp [bind, Except.bind]
    | ok c => cases c <;> simp [bind, Except.bind, pure, Except.pure, eq_comm]

theorem dataType_of_ofExpression {e : Expression} {positive : Bool} {f : Formula}
    (formed : ofExpressionPolarity e positive = .ok f) : e.dataType = .bool := by
  unfold ofExpressionPolarity at formed
  split at formed
  · simp at formed
  · rename_i boolean
    exact Classical.not_not.1 boolean

/-- Formulas of expressions, by the form of the expression: what holds of the formulas of atoms
and is kept along negations and connectives holds of all. -/
theorem ofExpressionPolarity_induction {motive : Expression → Bool → Formula → Prop}
    (atom : ∀ e positive f, e.Atomic → e.dataType = .bool → ofAtom e positive = .ok f →
      motive e positive f)
    (not : ∀ e positive f, motive e (!positive) f → motive (.not e) positive f)
    (and : ∀ lhs rhs positive f g, motive lhs positive f → motive rhs positive g →
      motive (.binary .and lhs rhs) positive
        (if positive then f.conjunction g else f.disjunction g))
    (or : ∀ lhs rhs positive f g, motive lhs positive f → motive rhs positive g →
      motive (.binary .or lhs rhs) positive
        (if positive then f.disjunction g else f.conjunction g))
    {e : Expression} {positive : Bool} {f : Formula}
    (formed : ofExpressionPolarity e positive = .ok f) : motive e positive f := by
  induction e generalizing positive f with
  | var v =>
    unfold ofExpressionPolarity at formed
    split at formed
    · simp at formed
    · rename_i boolean
      exact atom _ _ _ trivial (Classical.not_not.1 boolean) formed
  | const c =>
    unfold ofExpressionPolarity at formed
    split at formed
    · simp at formed
    · rename_i boolean
      exact atom _ _ _ trivial (Classical.not_not.1 boolean) formed
  | not operand ih =>
    unfold ofExpressionPolarity at formed
    exact not _ _ _ (ih (by simpa [Expression.dataType] using formed))
  | binary op lhs rhs left right =>
    unfold ofExpressionPolarity at formed
    split at formed
    · simp at formed
    · rename_i boolean
      cases op with
      | and | or =>
        cases first : ofExpressionPolarity lhs positive with
        | error error => simp [first, bind, Except.bind] at formed
        | ok g =>
          cases second : ofExpressionPolarity rhs positive with
          | error error => simp [first, second, bind, Except.bind] at formed
          | ok h =>
            simp only [first, second, bind, Except.bind, pure, Except.pure, Except.ok.injEq]
              at formed
            subst formed
            first
            | exact and _ _ _ _ _ (left first) (right second)
            | exact or _ _ _ _ _ (left first) (right second)
      | add | sub | mul | div | mod | eq | lt => exact atom _ _ _ trivial (Classical.not_not.1 boolean) formed

/-- The value of a ground expression does not depend on what is known. -/
theorem eval_of_isGround {e : Expression} (ground : e.isGround = true) :
    e.eval lookup = e.eval fun _ => none := by
  have closed : ∀ v, v ∉ e.variables := by
    induction e with
    | var v => simp [Expression.isGround] at ground
    | const c => simp [Expression.variables]
    | not operand ih => exact ih ground
    | binary op lhs rhs left right =>
      simp only [Expression.isGround, Bool.and_eq_true] at ground
      simp [Expression.variables, left ground.1, right ground.2]
  exact Expression.eval_congr fun v member => absurd member (closed v)

theorem eval_of_evalGround {e : Expression} {c : Constant} (ground : e.isGround = true)
    (value : e.evalGround = .ok c) : e.eval lookup = .ok (some c) := by
  rw [eval_of_isGround ground]
  unfold Expression.evalGround at value
  cases evaluated : e.eval fun _ => none with
  | error error => simp [evaluated, bind, Except.bind] at value
  | ok result =>
    cases result with
    | none => simp [evaluated, bind, Except.bind] at value
    | some d =>
      simp only [evaluated, bind, Except.bind, pure, Except.pure, Except.ok.injEq] at value
      rw [value]

/-- A ground expression that is true or false makes a formula. -/
theorem exists_ofAtom {e : Expression} (total : e.Total) (boolean : e.dataType = .bool)
    (positive : Bool) : ∃ f, ofAtom e positive = .ok f := by
  unfold ofAtom
  by_cases ground : e.isGround = true
  · have typed : Environment.Typed fun v => v.dataType.default :=
      fun v => DataType.dataType_default v.dataType
    obtain ⟨b, value⟩ := Expression.eval_total_bool typed total boolean
    rw [eval_of_isGround ground] at value
    have found : e.evalGround = .ok (.bool b) := by
      rw [Expression.evalGround, value]
      rfl
    rw [if_pos ground, found]
    exact ⟨_, rfl⟩
  · rw [if_neg ground]
    exact ⟨_, rfl⟩

theorem exists_ofExpressionPolarity {e : Expression} (total : e.Total) (boolean : e.dataType = .bool)
    (positive : Bool) : ∃ f, ofExpressionPolarity e positive = .ok f := by
  induction e generalizing positive with
  | var v | const c =>
    unfold ofExpressionPolarity
    rw [if_neg fun different => different boolean]
    exact exists_ofAtom total boolean positive
  | not operand ih =>
    unfold ofExpressionPolarity
    rw [if_neg fun different => different boolean]
    exact ih total.operand total.wellTyped.2 !positive
  | binary op lhs rhs left right =>
    unfold ofExpressionPolarity
    rw [if_neg fun different => different boolean]
    obtain ⟨_, _, first, second⟩ := total.wellTyped
    cases op with
    | and | or =>
      obtain ⟨f, one⟩ := left total.lhs first positive
      obtain ⟨g, two⟩ := right total.rhs second positive
      simp only [one, two]
      exact ⟨_, rfl⟩
    | add | sub | mul | div | mod | eq | lt => exact exists_ofAtom total boolean positive

/-- Where an expression has the polarity as its value, its formula holds. -/
theorem holds_ofExpressionPolarity {e : Expression} {positive : Bool} {f : Formula}
    (formed : ofExpressionPolarity e positive = .ok f)
    (value : e.eval lookup = .ok (some (.bool positive))) : f.Holds lookup := by
  revert value
  refine ofExpressionPolarity_induction (motive := fun e positive f =>
    e.eval lookup = .ok (some (.bool positive)) → f.Holds lookup) ?atom ?not ?and ?or formed
  case atom =>
    intro e positive f _ _ formed value
    rcases ofAtom_eq_ok_iff.1 formed with ⟨_, rfl⟩ | ⟨ground, b, decided, rfl⟩
    · exact holds_ofLiteral.2 value
    · rw [eval_of_evalGround ground decided] at value
      simp_all
  case not =>
    intro e positive f ih value
    exact ih (Expression.eval_not_bool_iff.1 value)
  case and =>
    intro lhs rhs positive f g left right value
    cases positive with
    | true =>
      obtain ⟨first, second⟩ := Expression.eval_and_true_iff.1 value
      exact holds_conjunction.2 ⟨left first, right second⟩
    | false => exact holds_disjunction.2 ((Expression.eval_and_false value).imp left right)
  case or =>
    intro lhs rhs positive f g left right value
    cases positive with
    | true => exact holds_disjunction.2 ((Expression.eval_or_true value).imp left right)
    | false =>
      obtain ⟨first, second⟩ := Expression.eval_or_false_iff.1 value
      exact holds_conjunction.2 ⟨left first, right second⟩

/-- Where the formula of an expression holds, the expression has the polarity as its value if it
has one, even one decided by part of the variables. -/
theorem eq_of_holds_ofExpressionPolarity {e : Expression} {positive b : Bool} {f : Formula}
    (formed : ofExpressionPolarity e positive = .ok f)
    (refined : ∀ v, Expression.Refines (known v) (more v)) (holds : f.Holds more)
    (value : e.eval known = .ok (some (.bool b))) : b = positive := by
  revert value holds b
  refine ofExpressionPolarity_induction (motive := fun e positive f =>
    ∀ {b}, f.Holds more → e.eval known = .ok (some (.bool b)) → b = positive)
    ?atom ?not ?and ?or formed
  case atom =>
    intro e positive f _ _ formed b holds value
    rcases ofAtom_eq_ok_iff.1 formed with ⟨_, rfl⟩ | ⟨ground, c, decided, rfl⟩
    · have whole := Expression.eval_refines refined value (holds_ofLiteral.1 holds) _ rfl
      exact (Constant.bool.inj (Option.some.inj whole)).symm
    · rw [eval_of_evalGround ground decided] at value
      have same : c = b := by simpa using value
      by_cases agrees : c = positive
      · exact same.symm.trans agrees
      · simp [agrees] at holds
  case not =>
    intro e positive f ih b holds value
    have inner := ih holds (Expression.eval_not_bool_iff.1 value)
    simpa using inner
  case and =>
    intro lhs rhs positive f g left right b holds value
    cases positive with
    | true =>
      obtain ⟨first, second⟩ := holds_conjunction.1 holds
      refine eq_true_of_ne_false fun false => ?_
      subst false
      rcases Expression.eval_and_false value with value | value
      · exact Bool.false_ne_true (left first value)
      · exact Bool.false_ne_true (right second value)
    | false =>
      refine eq_false_of_ne_true fun true => ?_
      subst true
      obtain ⟨first, second⟩ := Expression.eval_and_true_iff.1 value
      rcases holds_disjunction.1 holds with holds | holds
      · exact Bool.false_ne_true (left holds first).symm
      · exact Bool.false_ne_true (right holds second).symm
  case or =>
    intro lhs rhs positive f g left right b holds value
    cases positive with
    | true =>
      refine eq_true_of_ne_false fun false => ?_
      subst false
      obtain ⟨first, second⟩ := Expression.eval_or_false_iff.1 value
      rcases holds_disjunction.1 holds with holds | holds
      · exact Bool.false_ne_true (left holds first)
      · exact Bool.false_ne_true (right holds second)
    | false =>
      obtain ⟨first, second⟩ := holds_conjunction.1 holds
      refine eq_false_of_ne_true fun true => ?_
      subst true
      rcases Expression.eval_or_true value with value | value
      · exact Bool.false_ne_true (left first value).symm
      · exact Bool.false_ne_true (right second value).symm

/-- The formula of an expression that is true or false holds exactly if it is true. -/
theorem holds_ofExpression_iff {e : Expression} {b : Bool} {f : Formula}
    (formed : ofExpression e = .ok f) (value : e.eval lookup = .ok (some (.bool b))) :
    f.Holds lookup ↔ b = true := by
  constructor
  · exact fun holds =>
      eq_of_holds_ofExpressionPolarity formed (fun _ _ same => same) holds value
  · rintro rfl
    exact holds_ofExpressionPolarity formed value

/-- A property that operands inherit is one of the atoms, too. -/
theorem allAtoms_ofExpression {p : Expression → Prop}
    (inherits : ∀ e, p e → ∀ operand ∈ e.operands, p operand) {e : Expression} {positive : Bool}
    {f : Formula} (formed : ofExpressionPolarity e positive = .ok f) (holds : p e) :
    f.AllAtoms fun atom => p atom ∧ atom.dataType = .bool := by
  revert holds
  refine ofExpressionPolarity_induction (motive := fun e _ f =>
    p e → f.AllAtoms fun atom => p atom ∧ atom.dataType = .bool) ?atom ?not ?and ?or formed
  case atom =>
    intro e positive f _ boolean formed holds
    rcases ofAtom_eq_ok_iff.1 formed with ⟨_, rfl⟩ | ⟨_, b, _, rfl⟩
    · exact allAtoms_ofLiteral ⟨holds, boolean⟩
    · split
      · exact allAtoms_top
      · exact allAtoms_bottom
  case not =>
    intro e positive f ih holds
    exact ih (inherits _ holds e (by simp [Expression.operands]))
  case and =>
    intro lhs rhs positive f g left right holds
    have left := left (inherits _ holds lhs (by simp [Expression.operands]))
    have right := right (inherits _ holds rhs (by simp [Expression.operands]))
    cases positive with
    | true => exact left.conjunction right
    | false => exact left.disjunction right
  case or =>
    intro lhs rhs positive f g left right holds
    have left := left (inherits _ holds lhs (by simp [Expression.operands]))
    have right := right (inherits _ holds rhs (by simp [Expression.operands]))
    cases positive with
    | true => exact left.disjunction right
    | false => exact left.conjunction right

theorem within_ofExpression {p : Variable → Prop} {e : Expression} {positive : Bool} {f : Formula}
    (formed : ofExpressionPolarity e positive = .ok f) (all : ∀ v ∈ e.variables, p v) :
    f.Within p := by
  have inherits : ∀ e : Expression, (∀ v ∈ e.variables, p v) →
      ∀ operand ∈ e.operands, ∀ v ∈ operand.variables, p v := by
    intro e all operand member v occurs
    refine all v ?_
    cases e with
    | var _ | const _ => simp [Expression.operands] at member
    | not inner =>
      simp only [Expression.operands, List.mem_singleton] at member
      exact member ▸ occurs
    | binary op lhs rhs =>
      simp only [Expression.operands, List.mem_cons, List.not_mem_nil, or_false] at member
      rcases member with rfl | rfl <;> simp [Expression.variables, occurs]
  exact AllAtoms.imp (fun _ both => both.1) (allAtoms_ofExpression inherits formed all)

/-- All atoms are truth values in every typed environment. -/
def Decided (f : Formula) : Prop := f.AllAtoms fun e => e.Total ∧ e.dataType = .bool

theorem decided_ofExpression {e : Expression} {positive : Bool} {f : Formula}
    (formed : ofExpressionPolarity e positive = .ok f) (total : e.Total) : f.Decided := by
  refine allAtoms_ofExpression ?_ formed total
  intro e total operand member
  cases e with
  | var _ | const _ => simp [Expression.operands] at member
  | not inner =>
    simp only [Expression.operands, List.mem_singleton] at member
    exact member ▸ total.operand
  | binary op lhs rhs =>
    simp only [Expression.operands, List.mem_cons, List.not_mem_nil, or_false] at member
    rcases member with rfl | rfl
    · exact total.lhs
    · exact total.rhs

/-! ### Expressions of formulas -/

theorem eval_foldl_and {first : Expression} {rest : List Expression}
    (decided : ∀ e ∈ first :: rest, ∃ b, e.eval lookup = .ok (some (.bool b))) :
    ∃ b, (rest.foldl (.binary .and) first).eval lookup = .ok (some (.bool b)) ∧
      (b = true ↔ ∀ e ∈ first :: rest, e.eval lookup = .ok (some (.bool true))) := by
  induction rest generalizing first with
  | nil =>
    obtain ⟨b, value⟩ := decided first (by simp)
    exact ⟨b, value, by simp [value]⟩
  | cons e rest ih =>
    obtain ⟨p, left⟩ := decided first (by simp)
    obtain ⟨q, right⟩ := decided e (by simp)
    have joined : ∀ x ∈ Expression.binary .and first e :: rest,
        ∃ b, x.eval lookup = .ok (some (.bool b)) := by
      intro x member
      rcases List.mem_cons.1 member with rfl | later
      · exact ⟨_, Expression.eval_and_bool left right⟩
      · exact decided x (by simp [later])
    obtain ⟨b, value, truth⟩ := ih joined
    refine ⟨b, value, truth.trans ?_⟩
    simp only [List.forall_mem_cons, Expression.eval_and_true_iff, and_assoc]

theorem eval_foldl_or {first : Expression} {rest : List Expression}
    (decided : ∀ e ∈ first :: rest, ∃ b, e.eval lookup = .ok (some (.bool b))) :
    ∃ b, (rest.foldl (.binary .or) first).eval lookup = .ok (some (.bool b)) ∧
      (b = true ↔ ∃ e ∈ first :: rest, e.eval lookup = .ok (some (.bool true))) := by
  induction rest generalizing first with
  | nil =>
    obtain ⟨b, value⟩ := decided first (by simp)
    exact ⟨b, value, by simp [value]⟩
  | cons e rest ih =>
    obtain ⟨p, left⟩ := decided first (by simp)
    obtain ⟨q, right⟩ := decided e (by simp)
    have either := Expression.eval_or_bool left right
    have joined : ∀ x ∈ Expression.binary .or first e :: rest,
        ∃ b, x.eval lookup = .ok (some (.bool b)) := by
      intro x member
      rcases List.mem_cons.1 member with rfl | later
      · exact ⟨_, either⟩
      · exact decided x (by simp [later])
    obtain ⟨b, value, truth⟩ := ih joined
    refine ⟨b, value, truth.trans ?_⟩
    simp [either, left, right, or_assoc]

theorem eval_literal {l : Literal} {b : Bool} (value : l.atom.eval lookup = .ok (some (.bool b))) :
    l.toExpression.eval lookup = .ok (some (.bool (b == l.positive))) := by
  unfold Literal.toExpression
  cases l.positive with
  | true => simpa using value
  | false => simpa using Expression.eval_not_bool_iff.2 (by simpa using value)

/-- The expression of a cube over decided atoms is true exactly if the cube holds. -/
theorem eval_cube {c : Cube} (decided : ∀ l ∈ c, ∃ b, l.atom.eval lookup = .ok (some (.bool b))) :
    ∃ b, c.toExpression.eval lookup = .ok (some (.bool b)) ∧ (b = true ↔ c.Holds lookup) := by
  have literals : ∀ e ∈ c.toList.map Literal.toExpression,
      ∃ b, e.eval lookup = .ok (some (.bool b)) := by
    intro e member
    obtain ⟨l, inside, rfl⟩ := List.mem_map.1 member
    obtain ⟨b, value⟩ := decided l inside
    exact ⟨_, eval_literal value⟩
  have meaning : c.Holds lookup ↔
      ∀ e ∈ c.toList.map Literal.toExpression, e.eval lookup = .ok (some (.bool true)) := by
    simp only [List.forall_mem_map]
    refine forall₂_congr fun l inside => ?_
    obtain ⟨b, value⟩ := decided l inside
    simp [value, eval_literal value]
  rw [meaning]
  unfold Cube.toExpression
  split
  · rename_i none
    exact ⟨true, by simp, by simp [none]⟩
  · rename_i first rest some
    rw [some] at literals ⊢
    exact eval_foldl_and literals

/-- The expression of a formula over decided atoms is true exactly if the formula holds. -/
theorem eval_toExpression {f : Formula}
    (decided : f.AllAtoms fun e => ∃ b, e.eval lookup = .ok (some (.bool b))) :
    ∃ b, f.toExpression.eval lookup = .ok (some (.bool b)) ∧ (b = true ↔ f.Holds lookup) := by
  have cubes : ∀ e ∈ f.cubes.toList.map Cube.toExpression,
      ∃ b, e.eval lookup = .ok (some (.bool b)) := by
    intro e member
    obtain ⟨c, inside, rfl⟩ := List.mem_map.1 member
    obtain ⟨b, value, _⟩ := eval_cube (decided c inside)
    exact ⟨b, value⟩
  have meaning : f.Holds lookup ↔
      ∃ e ∈ f.cubes.toList.map Cube.toExpression, e.eval lookup = .ok (some (.bool true)) := by
    constructor
    · rintro ⟨c, inside, holds⟩
      obtain ⟨b, value, truth⟩ := eval_cube (decided c inside)
      exact ⟨_, List.mem_map_of_mem inside, truth.2 holds ▸ value⟩
    · rintro ⟨e, member, true⟩
      obtain ⟨c, inside, rfl⟩ := List.mem_map.1 member
      obtain ⟨b, value, truth⟩ := eval_cube (decided c inside)
      exact ⟨c, inside, truth.1 (by simpa [value] using true)⟩
  rw [meaning]
  unfold Formula.toExpression
  split
  · rename_i none
    exact ⟨false, by simp, by simp [none]⟩
  · rename_i first rest some
    rw [some] at cubes ⊢
    exact eval_foldl_or cubes

theorem total_foldl {op : BinaryOp} (connective : op = .and ∨ op = .or) {first : Expression}
    {rest : List Expression} (all : ∀ e ∈ first :: rest, e.Total ∧ e.dataType = .bool) :
    (rest.foldl (.binary op) first).Total ∧ (rest.foldl (.binary op) first).dataType = .bool := by
  induction rest generalizing first with
  | nil => exact all first (by simp)
  | cons e rest ih =>
    refine ih fun x member => ?_
    rcases List.mem_cons.1 member with rfl | later
    · obtain ⟨left, first⟩ := all first (by simp)
      obtain ⟨right, second⟩ := all e (by simp)
      rcases connective with rfl | rfl <;>
        exact ⟨⟨⟨left.wellTyped, right.wellTyped, first, second⟩,
          ⟨nofun, nofun, left.divisionFree, right.divisionFree⟩⟩, rfl⟩
    · exact all x (by simp [later])

theorem total_cube {c : Cube} (all : ∀ l ∈ c, l.atom.Total ∧ l.atom.dataType = .bool) :
    c.toExpression.Total ∧ c.toExpression.dataType = .bool := by
  have literals : ∀ e ∈ c.toList.map Literal.toExpression, e.Total ∧ e.dataType = .bool := by
    intro e member
    obtain ⟨l, inside, rfl⟩ := List.mem_map.1 member
    obtain ⟨total, boolean⟩ := all l inside
    unfold Literal.toExpression
    split
    · exact ⟨total, boolean⟩
    · exact ⟨⟨⟨total.wellTyped, boolean⟩, total.divisionFree⟩, rfl⟩
  unfold Cube.toExpression
  split
  · exact ⟨⟨trivial, trivial⟩, rfl⟩
  · rename_i first rest some
    exact total_foldl (Or.inl rfl) (some ▸ literals)

theorem Decided.total_toExpression {f : Formula} (decided : f.Decided) :
    f.toExpression.Total := by
  have cubes : ∀ e ∈ f.cubes.toList.map Cube.toExpression, e.Total ∧ e.dataType = .bool := by
    intro e member
    obtain ⟨c, inside, rfl⟩ := List.mem_map.1 member
    exact total_cube (decided c inside)
  unfold Formula.toExpression
  split
  · exact ⟨trivial, trivial⟩
  · rename_i first rest some
    exact (total_foldl (Or.inr rfl) (some ▸ cubes)).1

/-- In a typed environment the expression of a decided formula is true or false as the formula
holds or does not. -/
theorem Decided.eval_toExpression {f : Formula} (decided : f.Decided) {env : Environment}
    (typed : env.Typed) : ∃ b, f.toExpression.eval env.lookup = .ok (some (.bool b)) ∧
      (b = true ↔ f.Holds env.lookup) :=
  Formula.eval_toExpression
    (AllAtoms.imp (fun _ both => Expression.eval_total_bool typed both.1 both.2) decided)

/-- Where all atoms are true or false, the complement of a formula holds if the formula does not. -/
theorem holds_complement {f complement : Formula}
    (values : f.AllAtoms fun e => ∃ b, e.eval lookup = .ok (some (.bool b)))
    (formed : ofExpression (.not f.toExpression) = .ok complement)
    (fails : ¬f.Holds lookup) : complement.Holds lookup := by
  obtain ⟨b, value, truth⟩ := eval_toExpression values
  have false : b = false := eq_false_of_ne_true fun true => fails (truth.1 true)
  subst false
  exact holds_ofExpressionPolarity formed (Expression.eval_not_bool_iff.2 value)

end Formula

end EventCheck
