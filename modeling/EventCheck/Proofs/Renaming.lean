import EventCheck.Analysis.Abstraction
import EventCheck.Proofs.RoundTrips

/-!
Formulas over other variables. Replacing the variables of a formula goes along with everything that
formulas are made by, so stripping the versions of a formula from an expression never fails and
comes to the formula of the expression without versions.
-/

namespace EventCheck

variable {r q : Variable → Variable}

/-! ### Expressions, literals and cubes -/

namespace Expression

variable {e : Expression}

theorem rename_rename : (e.rename r).rename q = e.rename (q ∘ r) := by
  induction e with
  | var v => rfl
  | const c => rfl
  | not operand ih => exact congrArg Expression.not ih
  | binary op lhs rhs left right => exact congrArg₂ (Expression.binary op) left right

/-- An expression whose variables stay as they are does so as well. -/
theorem rename_of_fixed (fixed : ∀ v ∈ e.variables, r v = v) : e.rename r = e := by
  induction e with
  | var v => exact congrArg Expression.var (fixed v (SortedSet.mem_singleton.2 rfl))
  | const c => rfl
  | not operand ih => exact congrArg Expression.not (ih fixed)
  | binary op lhs rhs left right =>
    exact congrArg₂ (Expression.binary op)
      (left fun v member => fixed v (SortedSet.mem_union.2 (Or.inl member)))
      (right fun v member => fixed v (SortedSet.mem_union.2 (Or.inr member)))

theorem isGround_rename : (e.rename r).isGround = e.isGround := by
  induction e with
  | var v => rfl
  | const c => rfl
  | not operand ih => exact ih
  | binary op lhs rhs left right => exact congrArg₂ and left right

theorem variables_of_isGround (ground : e.isGround = true) (v : Variable) : v ∉ e.variables := by
  induction e with
  | var w => cases ground
  | const c => exact SortedSet.not_mem_empty v
  | not operand ih => exact ih ground
  | binary op lhs rhs left right =>
    obtain ⟨first, second⟩ := Bool.and_eq_true_iff.1 ground
    intro member
    exact (SortedSet.mem_union.1 member).elim (left first) (right second)

theorem Atomic.rename (atomic : e.Atomic) : (e.rename r).Atomic := by
  cases e with
  | var v => trivial
  | const c => trivial
  | not operand => cases atomic
  | binary op lhs rhs =>
    cases op with
    | and | or => cases atomic
    | add | sub | mul | div | mod | eq | lt => trivial

theorem IsAtom.rename (types : ∀ v, (r v).dataType = v.dataType) (atom : e.IsAtom) :
    (e.rename r).IsAtom where
  boolean := (dataType_rename types e).trans atom.boolean
  atomic := atom.atomic.rename
  notGround := isGround_rename.trans atom.notGround

end Expression

def Literal.rename (r : Variable → Variable) (l : Literal) : Literal :=
  { l with atom := l.atom.rename r }

namespace Cube

variable {c d : Cube} {l : Literal}

def rename (r : Variable → Variable) (c : Cube) : Cube := .ofList (c.toList.map (Literal.rename r))

theorem mem_rename : l ∈ c.rename r ↔ ∃ m ∈ c, m.rename r = l := by
  simp [rename, SortedSet.mem_def.symm]

theorem rename_subset (contained : c ⊆ d) : c.rename r ⊆ d.rename r := by
  intro l member
  obtain ⟨m, inside, same⟩ := mem_rename.1 member
  exact mem_rename.2 ⟨m, contained m inside, same⟩

theorem rename_union : (c ∪ d).rename r = c.rename r ∪ d.rename r := by
  refine SortedSet.ext_mem fun l => ?_
  simp only [mem_rename, SortedSet.mem_union, or_and_right, exists_or]

theorem rename_rename : (c.rename r).rename q = c.rename (q ∘ r) := by
  refine SortedSet.ext_mem fun l => ?_
  simp only [mem_rename, exists_exists_and_eq_and, Literal.rename, Expression.rename_rename]

/-- A cube that contradicts itself still does over other variables. -/
theorem Consistent.of_rename (consistent : (c.rename r).Consistent) : c.Consistent := by
  rintro atom ⟨negative, positive⟩
  exact consistent (atom.rename r)
    ⟨mem_rename.2 ⟨_, negative, rfl⟩, mem_rename.2 ⟨_, positive, rfl⟩⟩

end Cube

namespace Formula

variable {f g h : Formula} {cubes : SortedSet Cube} {e : Expression} {positive : Bool}

/-! ### Formulas -/

/-- The formula over other variables. -/
def rename (r : Variable → Variable) (f : Formula) : Formula :=
  normalize (.ofList (f.cubes.toList.map (Cube.rename r)))

theorem rename_implies_iff : (f.rename r).implies h = true ↔
    ∀ c ∈ f.cubes, (c.rename r).Consistent → ∃ d ∈ h.cubes, d ⊆ c.rename r := by
  simp [rename, normalize_implies_iff, SortedSet.mem_def.symm]

/-- Normalization leaves out cubes that would be left out after renaming. -/
theorem rename_normalize_implies_iff : ((normalize cubes).rename r).implies h = true ↔
    ∀ c ∈ cubes, (c.rename r).Consistent → ∃ d ∈ h.cubes, d ⊆ c.rename r := by
  rw [rename_implies_iff]
  constructor
  · intro all c member consistent
    obtain ⟨d, kept, below⟩ := exists_mem_normalize member consistent.of_rename
    have contained := Cube.rename_subset (r := r) below
    obtain ⟨e, found, lower⟩ := all d kept (consistent.subset contained)
    exact ⟨e, found, fun l inside => contained l (lower l inside)⟩
  · exact fun all c kept => all c (mem_of_mem_normalize kept)

theorem rename_disjunction :
    (f.disjunction g).rename r = (f.rename r).disjunction (g.rename r) := by
  apply eq_of_upper
  intro h
  rw [disjunction_implies_iff, disjunction, rename_normalize_implies_iff, rename_implies_iff,
    rename_implies_iff]
  simp only [SortedSet.mem_union, or_imp, forall_and]

theorem rename_conjunction :
    (f.conjunction g).rename r = (f.rename r).conjunction (g.rename r) := by
  apply eq_of_upper
  intro h
  rw [conjunction, conjunction, rename_normalize_implies_iff, normalize_implies_iff]
  constructor
  · intro all c product consistent
    obtain ⟨d, left, e, right, rfl⟩ := mem_product.1 product
    obtain ⟨d, first, rfl⟩ : ∃ c ∈ f.cubes, c.rename r = d := by
      simpa [SortedSet.mem_def.symm] using mem_of_mem_normalize left
    obtain ⟨e, second, rfl⟩ : ∃ c ∈ g.cubes, c.rename r = e := by
      simpa [SortedSet.mem_def.symm] using mem_of_mem_normalize right
    have whole := all (d ∪ e) (mem_product.2 ⟨d, first, e, second, rfl⟩)
    rw [Cube.rename_union] at whole
    exact whole consistent
  · intro all c product consistent
    obtain ⟨d, first, e, second, rfl⟩ := mem_product.1 product
    rw [Cube.rename_union] at consistent ⊢
    -- each side keeps a cube below its own, and their union is below the given one
    have keeps : ∀ {k : Formula} {b : Cube}, b ∈ k.cubes → (b.rename r).Consistent →
        ∃ u ∈ (k.rename r).cubes, u ⊆ b.rename r := by
      intro k b member sound
      refine exists_mem_normalize ?_ sound
      exact SortedSet.mem_ofList.2 (List.mem_map.2 ⟨b, member, rfl⟩)
    obtain ⟨u, left, below⟩ := keeps first
      (consistent.subset fun l inside => SortedSet.mem_union.2 (Or.inl inside))
    obtain ⟨w, right, lower⟩ := keeps second
      (consistent.subset fun l inside => SortedSet.mem_union.2 (Or.inr inside))
    have contained : u ∪ w ⊆ d.rename r ∪ e.rename r := fun l inside =>
      SortedSet.mem_union.2 ((SortedSet.mem_union.1 inside).imp (below l) (lower l))
    obtain ⟨k, found, under⟩ := all (u ∪ w) (mem_product.2 ⟨u, left, w, right, rfl⟩)
      (consistent.subset contained)
    exact ⟨k, found, fun l inside => contained l (under l inside)⟩

theorem rename_ofLiteral (l : Literal) : (ofLiteral l).rename r = ofLiteral (l.rename r) := by
  have same : Cube.rename r (.singleton l) = .singleton (l.rename r) := by
    refine SortedSet.ext_mem fun m => ?_
    simp only [Cube.mem_rename, SortedSet.mem_singleton, exists_eq_left]
    exact eq_comm
  apply eq_of_upper
  intro h
  rw [ofLiteral, ofCube, ofLiteral, ofCube, rename_normalize_implies_iff, normalize_implies_iff]
  simp only [SortedSet.mem_singleton, forall_eq, same]

theorem rename_bottom : bottom.rename r = bottom := rfl

theorem rename_top : top.rename r = top := rfl

theorem rename_rename : (f.rename r).rename q = f.rename (q ∘ r) := by
  apply eq_of_upper
  intro h
  show ((normalize _).rename q).implies h = true ↔ _
  rw [rename_normalize_implies_iff, rename_implies_iff]
  simp [SortedSet.mem_def.symm, Cube.rename_rename]

/-! ### Formulas of expressions -/

/-- The formula of an expression over other variables is the formula over other variables. -/
theorem ofExpressionPolarity_rename (types : ∀ v, (r v).dataType = v.dataType)
    (formed : ofExpressionPolarity e positive = .ok f) :
    ofExpressionPolarity (e.rename r) positive = .ok (f.rename r) := by
  refine ofExpressionPolarity_induction
    (motive := fun e positive f => ofExpressionPolarity (e.rename r) positive = .ok (f.rename r))
    ?atom ?not ?and ?or formed
  case atom =>
    intro e positive f atomic boolean formed
    rcases ofAtom_eq_ok_iff.1 formed with ⟨unknown, rfl⟩ | ⟨ground, b, _, rfl⟩
    · rw [ofExpressionPolarity_atomic atomic.rename
        ((Expression.dataType_rename types e).trans boolean), rename_ofLiteral]
      exact ofAtom_eq_ok_iff.2 (Or.inl ⟨Expression.isGround_rename.trans unknown, rfl⟩)
    · have fixed : e.rename r = e := Expression.rename_of_fixed fun v member =>
        absurd member (Expression.variables_of_isGround ground v)
      rw [fixed, ofExpressionPolarity_atomic atomic boolean, formed]
      split
      · rw [rename_top]
      · rw [rename_bottom]
  case not => exact fun _ _ _ ih => ofExpressionPolarity_not.trans ih
  case and =>
    intro lhs rhs positive f g left right
    refine (ofExpressionPolarity_and left right).trans (congrArg Except.ok ?_)
    cases positive with
    | true => exact rename_conjunction.symm
    | false => exact rename_disjunction.symm
  case or =>
    intro lhs rhs positive f g left right
    refine (ofExpressionPolarity_or left right).trans (congrArg Except.ok ?_)
    cases positive with
    | true => exact rename_disjunction.symm
    | false => exact rename_conjunction.symm

theorem ofExpression_rename (types : ∀ v, (r v).dataType = v.dataType)
    (formed : ofExpression e = .ok f) : ofExpression (e.rename r) = .ok (f.rename r) :=
  ofExpressionPolarity_rename types formed

theorem Obtained.rename (types : ∀ v, (r v).dataType = v.dataType) (obtained : f.Obtained) :
    (f.rename r).Obtained :=
  .expression (ofExpression_rename types (obtained_iff_returns.1 obtained))

/-- Stripping the versions of a formula from an expression never fails. -/
theorem Obtained.stripVersions_eq (obtained : f.Obtained) :
    f.stripVersions = .ok (f.rename Variable.base) :=
  ofExpression_rename (fun _ => rfl) (obtained_iff_returns.1 obtained)

end Formula

end EventCheck
