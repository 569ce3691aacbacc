import EventCheck.Proofs.Formula
import EventCheck.Proofs.Lattices

/-!
Formulas as normal forms. The sets of cubes that the operations on formulas lead to are those of
consistent cubes none of which contains another. Ordered by containment of cubes they are a
distributive lattice with disjunction and conjunction as its operations.
-/

namespace EventCheck

theorem Cube.Consistent.subset {c d : Cube} (consistent : c.Consistent) (contained : d ⊆ c) :
    d.Consistent := by
  intro atom both
  exact consistent atom ⟨contained _ both.1, contained _ both.2⟩

namespace Formula

variable {f g h : Formula} {cubes : SortedSet Cube}

/-! ### The order -/

/-- Each cube of one of two formulas that imply each other is one of the other formula. -/
theorem mem_of_implies (first : f.implies g = true) (second : g.implies f = true) {c : Cube}
    (member : c ∈ f.cubes) : c ∈ g.cubes := by
  rw [implies_iff] at first second
  obtain ⟨d, inside, below⟩ := first c member
  obtain ⟨e, found, lower⟩ := second d inside
  have whole : e = c := f.minimal e found c member fun l occurs => below l (lower l occurs)
  have same : d = c := by
    apply SortedSet.ext_mem
    intro l
    constructor
    · exact below l
    · intro occurs
      exact lower l (whole ▸ occurs)
  exact same ▸ inside

theorem implies_antisymm (first : f.implies g = true) (second : g.implies f = true) : f = g := by
  apply cubes_injective
  apply SortedSet.ext_mem
  intro c
  constructor
  · exact mem_of_implies first second
  · exact mem_of_implies second first

theorem bottom_implies (f : Formula) : bottom.implies f = true := by
  rw [implies_iff]
  intro c member
  simp [bottom] at member

theorem implies_top (f : Formula) : f.implies top = true := by
  rw [implies_iff]
  intro c _
  refine ⟨∅, by simp [top], ?_⟩
  intro l occurs
  simp at occurs

/-! ### Bounds -/

theorem normalize_implies_iff : (normalize cubes).implies f = true ↔
    ∀ c ∈ cubes, c.Consistent → ∃ d ∈ f.cubes, d ⊆ c := by
  rw [implies_iff]
  constructor
  · intro implied c member consistent
    obtain ⟨d, kept, below⟩ := exists_mem_normalize member consistent
    obtain ⟨e, found, lower⟩ := implied d kept
    exact ⟨e, found, fun l occurs => below l (lower l occurs)⟩
  · intro all c kept
    exact all c (mem_of_mem_normalize kept) ((normalize cubes).consistent c kept)

theorem implies_normalize_iff : f.implies (normalize cubes) = true ↔
    ∀ c ∈ f.cubes, ∃ d ∈ cubes, d ⊆ c := by
  rw [implies_iff]
  constructor
  · intro implied c member
    obtain ⟨d, kept, below⟩ := implied c member
    exact ⟨d, mem_of_mem_normalize kept, below⟩
  · intro all c member
    obtain ⟨d, inside, below⟩ := all c member
    have consistent : d.Consistent := (f.consistent c member).subset below
    obtain ⟨e, kept, lower⟩ := exists_mem_normalize inside consistent
    exact ⟨e, kept, fun l occurs => below l (lower l occurs)⟩

theorem disjunction_implies_iff : (f.disjunction g).implies h = true ↔
    f.implies h = true ∧ g.implies h = true := by
  rw [disjunction, normalize_implies_iff, implies_iff, implies_iff]
  constructor
  · intro all
    constructor
    · intro c member
      exact all c (SortedSet.mem_union.2 (Or.inl member)) (f.consistent c member)
    · intro c member
      exact all c (SortedSet.mem_union.2 (Or.inr member)) (g.consistent c member)
  · rintro ⟨left, right⟩ c member _
    rcases SortedSet.mem_union.1 member with member | member
    · exact left c member
    · exact right c member

theorem implies_conjunction_iff : h.implies (f.conjunction g) = true ↔
    h.implies f = true ∧ h.implies g = true := by
  rw [conjunction, implies_normalize_iff, implies_iff, implies_iff]
  constructor
  · intro all
    constructor
    · intro c member
      obtain ⟨u, product, below⟩ := all c member
      obtain ⟨d, first, e, _, rfl⟩ := mem_product.1 product
      exact ⟨d, first, fun l occurs => below l (SortedSet.mem_union.2 (Or.inl occurs))⟩
    · intro c member
      obtain ⟨u, product, below⟩ := all c member
      obtain ⟨d, _, e, second, rfl⟩ := mem_product.1 product
      exact ⟨e, second, fun l occurs => below l (SortedSet.mem_union.2 (Or.inr occurs))⟩
  · rintro ⟨left, right⟩ c member
    obtain ⟨d, first, below⟩ := left c member
    obtain ⟨e, second, lower⟩ := right c member
    refine ⟨d ∪ e, mem_product.2 ⟨d, first, e, second, rfl⟩, ?_⟩
    intro l occurs
    rcases SortedSet.mem_union.1 occurs with occurs | occurs
    · exact below l occurs
    · exact lower l occurs

theorem lawful_lattice : lattice.Lawful where
  decides f g := ⟨f.implies g, rfl⟩
  refl f := congrArg Except.ok (implies_refl f)
  trans _ _ _ first second :=
    congrArg Except.ok (implies_trans (Except.ok.inj first) (Except.ok.inj second))
  antisymm _ _ first second := implies_antisymm (Except.ok.inj first) (Except.ok.inj second)
  join_below f g h := by
    simp only [Lattice.Below, lattice, Except.ok.injEq]
    exact disjunction_implies_iff
  below_meet f g h := by
    simp only [Lattice.Below, lattice, Except.ok.injEq]
    exact implies_conjunction_iff
  bottom_below f := congrArg Except.ok (bottom_implies f)
  below_top t given f := by
    obtain rfl := Except.ok.inj given
    exact congrArg Except.ok (implies_top f)

/-- A cube of a conjunction with a disjunction joins a cube of the first part with one of either
alternative, and these make a cube of the conjunction with that alternative. -/
theorem conjunction_disjunction_implies (f g h : Formula) :
    (f.conjunction (g.disjunction h)).implies
      ((f.conjunction g).disjunction (f.conjunction h)) = true := by
  have upper := disjunction_implies_iff.1
    (implies_refl ((f.conjunction g).disjunction (f.conjunction h)))
  rw [conjunction, normalize_implies_iff]
  intro u product consistent
  obtain ⟨d, first, e, either, rfl⟩ := mem_product.1 product
  -- the conjunction with one alternative has a cube inside of the given one
  have inside : ∀ k : Formula, e ∈ k.cubes →
      (f.conjunction k).implies ((f.conjunction g).disjunction (f.conjunction h)) = true →
      ∃ c ∈ ((f.conjunction g).disjunction (f.conjunction h)).cubes, c ⊆ d ∪ e := by
    intro k second implied
    obtain ⟨c, kept, below⟩ :=
      exists_mem_normalize (mem_product.2 ⟨d, first, e, second, rfl⟩) consistent
    obtain ⟨b, found, lower⟩ := implies_iff.1 implied c kept
    exact ⟨b, found, fun l occurs => below l (lower l occurs)⟩
  rcases SortedSet.mem_union.1 (mem_of_mem_normalize either) with second | second
  · exact inside g second upper.1
  · exact inside h second upper.2

theorem distributive_lattice : lattice.Distributive := by
  apply lawful_lattice.distributive
  intro f g h
  exact congrArg Except.ok (conjunction_disjunction_implies f g h)

/-! ### Normal forms -/

/-- Consistent cubes none of which contains another one. -/
structure NormalForm (cubes : SortedSet Cube) : Prop where
  consistent : ∀ c ∈ cubes, c.Consistent
  minimal : ∀ c ∈ cubes, ∀ d ∈ cubes, ¬(c ⊆ d ∧ c ≠ d)

/-- The formulas that the operations lead to. -/
inductive Built : Formula → Prop
  | top : Built top
  | bottom : Built bottom
  | cube (c : Cube) : Built (ofCube c)
  | literal (l : Literal) : Built (ofLiteral l)
  | expression {e : Expression} {f : Formula} (formed : ofExpression e = .ok f) : Built f
  | conjunction {f g : Formula} (left : Built f) (right : Built g) : Built (f.conjunction g)
  | disjunction {f g : Formula} (left : Built f) (right : Built g) : Built (f.disjunction g)

/-- The disjunction of listed cubes implies what the consistent ones among them do. -/
theorem exists_built (listed : List Cube) : ∃ f, Built f ∧ ∀ g : Formula, f.implies g = true ↔
    ∀ c ∈ listed, c.Consistent → ∃ d ∈ g.cubes, d ⊆ c := by
  induction listed with
  | nil =>
    refine ⟨bottom, .bottom, ?_⟩
    intro g
    simp [bottom_implies]
  | cons c rest ih =>
    obtain ⟨f, built, implied⟩ := ih
    refine ⟨(ofCube c).disjunction f, .disjunction (.cube c) built, ?_⟩
    intro g
    rw [disjunction_implies_iff, implied, ofCube, normalize_implies_iff]
    simp

theorem built_of_normalForm (normal : NormalForm cubes) : ∃ f, Built f ∧ f.cubes = cubes := by
  let g : Formula := ⟨cubes, normal.consistent, by
    intro c first d second below
    apply Classical.byContradiction
    intro different
    exact normal.minimal c first d second ⟨below, different⟩⟩
  obtain ⟨f, built, implied⟩ := exists_built cubes.toList
  have same : ∀ h : Formula, f.implies h = true ↔ g.implies h = true := by
    intro h
    rw [implied, implies_iff]
    constructor
    · intro all c member
      exact all c member (normal.consistent c member)
    · intro all c member _
      exact all c member
  have equal : f = g :=
    implies_antisymm ((same g).2 (implies_refl g)) ((same f).1 (implies_refl f))
  exact ⟨f, built, congrArg Formula.cubes equal⟩

theorem normalForm_cubes (f : Formula) : NormalForm f.cubes where
  consistent := f.consistent
  minimal c first d second proper := proper.2 (f.minimal c first d second proper.1)

/-- The operations on formulas lead to exactly the normal forms, and on these they are a
distributive lattice. -/
theorem normalForms_distributiveLattice :
    (∀ cubes, (∃ f, Built f ∧ f.cubes = cubes) ↔ NormalForm cubes) ∧
      lattice.Lawful ∧ lattice.Distributive := by
  refine ⟨?_, lawful_lattice, distributive_lattice⟩
  intro cubes
  constructor
  · rintro ⟨f, _, rfl⟩
    exact normalForm_cubes f
  · exact built_of_normalForm

end Formula

end EventCheck
