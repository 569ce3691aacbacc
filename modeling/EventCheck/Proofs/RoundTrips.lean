import EventCheck.Proofs.Polarity

/-!
Formulas and their expressions. A formula is the least upper bound of its cubes and a cube the
greatest lower bound of its literals, in the order by containment of cubes. So the connectives that
the expression of a formula is made of lead back to it, in whatever order they are applied, if each
literal comes back alone. That is so exactly for the formulas that come from expressions.
-/

namespace EventCheck

namespace Expression

/-- A truth value that depends on variables and that no connective is the outermost form of. -/
structure IsAtom (e : Expression) : Prop where
  boolean : e.dataType = .bool
  atomic : e.Atomic
  notGround : e.isGround = false

end Expression

namespace Formula

variable {e : Expression} {positive : Bool}
variable {f g h : Formula} {formulas : List Formula} {c : Cube} {l : Literal}

/-! ### Bounds of many formulas -/

/-- Formulas that the same formulas imply are equal. -/
theorem eq_of_lower (same : ∀ h : Formula, h.implies f = true ↔ h.implies g = true) : f = g :=
  implies_antisymm ((same f).1 (implies_refl f)) ((same g).2 (implies_refl g))

/-- Formulas that imply the same formulas are equal. -/
theorem eq_of_upper (same : ∀ h : Formula, f.implies h = true ↔ g.implies h = true) : f = g :=
  implies_antisymm ((same g).2 (implies_refl g)) ((same f).1 (implies_refl f))

theorem implies_foldl_conjunction : h.implies (formulas.foldl conjunction f) = true ↔
    h.implies f = true ∧ ∀ g ∈ formulas, h.implies g = true := by
  induction formulas generalizing f with
  | nil => simp
  | cons g rest ih =>
    rw [List.foldl_cons, ih, implies_conjunction_iff]
    simp [and_assoc]

theorem foldl_disjunction_implies : (formulas.foldl disjunction f).implies h = true ↔
    f.implies h = true ∧ ∀ g ∈ formulas, g.implies h = true := by
  induction formulas generalizing f with
  | nil => simp
  | cons g rest ih =>
    rw [List.foldl_cons, ih, disjunction_implies_iff]
    simp [and_assoc]

theorem implies_ofCube_iff : h.implies (ofCube c) = true ↔ ∀ d ∈ h.cubes, c ⊆ d := by
  simp [ofCube, implies_normalize_iff]

theorem ofCube_implies_iff (consistent : c.Consistent) :
    (ofCube c).implies h = true ↔ ∃ d ∈ h.cubes, d ⊆ c := by
  simp [ofCube, normalize_implies_iff, consistent]

theorem implies_ofLiteral_iff : h.implies (ofLiteral l) = true ↔ ∀ d ∈ h.cubes, l ∈ d := by
  rw [ofLiteral, implies_ofCube_iff]
  constructor
  · intro all d member
    exact all d member l (SortedSet.mem_singleton.2 rfl)
  · intro all d member m inside
    rw [SortedSet.mem_singleton.1 inside]
    exact all d member

/-! ### Formulas of the parts -/

/-- The formula of an atom or of its negation is the literal. -/
theorem ofExpression_literal (atom : l.atom.IsAtom) :
    ofExpression l.toExpression = .ok (ofLiteral l) := by
  have either : ∀ positive, ofExpressionPolarity l.atom positive =
      .ok (ofLiteral ⟨l.atom, positive⟩) := by
    intro positive
    rw [ofExpressionPolarity_atomic atom.atomic atom.boolean, ofAtom_eq_ok_iff]
    exact Or.inl ⟨atom.notGround, rfl⟩
  obtain ⟨e, positive⟩ := l
  unfold Literal.toExpression
  cases positive with
  | true => exact either true
  | false => exact ofExpressionPolarity_not.trans (either false)

/-- The formula of parts that a connective joins from the left, if `join` is what the connective
does to formulas. -/
theorem ofExpression_foldl {α : Type} (op : BinaryOp) (join : Formula → Formula → Formula)
    (joins : ∀ {a b f g}, ofExpression a = .ok f → ofExpression b = .ok g →
      ofExpression (.binary op a b) = .ok (join f g))
    {spell : α → Expression} {formula : α → Formula} {parts : List α}
    (head : ofExpression e = .ok f)
    (each : ∀ part ∈ parts, ofExpression (spell part) = .ok (formula part)) :
    ofExpression ((parts.map spell).foldl (.binary op) e) =
      .ok ((parts.map formula).foldl join f) := by
  induction parts generalizing e f with
  | nil => exact head
  | cons part rest ih =>
    apply ih
    · exact joins head (each part List.mem_cons_self)
    · exact fun other member => each other (List.mem_cons_of_mem part member)

/-- The formula of a cube's expression is the cube. -/
theorem ofExpression_cube (atoms : ∀ l ∈ c, l.atom.IsAtom) :
    ofExpression c.toExpression = .ok (ofCube c) := by
  unfold Cube.toExpression
  cases literals : c.toList with
  | nil =>
    obtain rfl : c = ∅ := SortedSet.toList_injective literals
    decide +kernel
  | cons l rest =>
    have each : ∀ m ∈ l :: rest, ofExpression m.toExpression = .ok (ofLiteral m) := by
      intro m member
      exact ofExpression_literal (atoms m (SortedSet.mem_def.2 (literals ▸ member)))
    obtain ⟨head, others⟩ := List.forall_mem_cons.1 each
    have folded := ofExpression_foldl .and conjunction
      (fun left right => ofExpressionPolarity_and left right) head others
    refine folded.trans (congrArg Except.ok ?_)
    apply eq_of_lower
    intro h
    have listed : h.implies (ofCube c) = true ↔
        ∀ d ∈ h.cubes, l ∈ d ∧ ∀ m ∈ rest, m ∈ d := by
      simp only [implies_ofCube_iff, HasSubset.Subset, SortedSet.mem_def (s := c), literals,
        List.forall_mem_cons]
    rw [listed, implies_foldl_conjunction]
    simp only [List.forall_mem_map, implies_ofLiteral_iff]
    constructor
    · rintro ⟨one, all⟩ d inside
      exact ⟨one d inside, fun m member => all m member d inside⟩
    · intro all
      exact ⟨fun d inside => (all d inside).1, fun m member d inside => (all d inside).2 m member⟩

/-- A formula whose literals are atoms or negated atoms comes back from its expression. -/
theorem ofExpression_of_atoms (atoms : f.AllAtoms Expression.IsAtom) :
    ofExpression f.toExpression = .ok f := by
  unfold Formula.toExpression
  cases cubes : f.cubes.toList with
  | nil =>
    obtain rfl : f = bottom := cubes_injective (SortedSet.toList_injective cubes)
    decide +kernel
  | cons c rest =>
    have member : ∀ d ∈ c :: rest, d ∈ f.cubes :=
      fun d listed => SortedSet.mem_def.2 (cubes ▸ listed)
    have each : ∀ d ∈ c :: rest, ofExpression d.toExpression = .ok (ofCube d) :=
      fun d listed => ofExpression_cube (atoms d (member d listed))
    obtain ⟨head, others⟩ := List.forall_mem_cons.1 each
    have folded := ofExpression_foldl .or disjunction
      (fun left right => ofExpressionPolarity_or left right) head others
    refine folded.trans (congrArg Except.ok ?_)
    apply eq_of_upper
    intro h
    have listed : f.implies h = true ↔ ∀ d ∈ c :: rest, ∃ k ∈ h.cubes, k ⊆ d := by
      simp only [implies_iff, SortedSet.mem_def (s := f.cubes), cubes]
    have alone : ∀ d ∈ c :: rest, ((ofCube d).implies h = true ↔ ∃ k ∈ h.cubes, k ⊆ d) :=
      fun d inside => ofCube_implies_iff (f.consistent d (member d inside))
    rw [listed, foldl_disjunction_implies, ← forall₂_congr alone]
    simp only [List.forall_mem_map, List.forall_mem_cons]

/-! ### Formulas that come from expressions -/

/-- The formulas that expressions and the operations on formulas lead to. The atoms of these
expressions need not be well typed below their outermost form. -/
inductive Obtained : Formula → Prop
  | top : Obtained top
  | bottom : Obtained bottom
  | expression {e : Expression} {f : Formula} (formed : ofExpression e = .ok f) : Obtained f
  | conjunction {f g : Formula} (left : Obtained f) (right : Obtained g) :
      Obtained (f.conjunction g)
  | disjunction {f g : Formula} (left : Obtained f) (right : Obtained g) :
      Obtained (f.disjunction g)

theorem obtained_ofLiteral (atom : l.atom.IsAtom) : (ofLiteral l).Obtained :=
  .expression (ofExpression_literal atom)

theorem atoms_ofExpressionPolarity (formed : ofExpressionPolarity e positive = .ok f) :
    f.AllAtoms Expression.IsAtom := by
  refine ofExpressionPolarity_induction (motive := fun _ _ f => f.AllAtoms Expression.IsAtom)
    ?atom ?not ?and ?or formed
  case atom =>
    intro e positive f atomic boolean formed
    rcases ofAtom_eq_ok_iff.1 formed with ⟨unknown, rfl⟩ | ⟨_, b, _, rfl⟩
    · exact allAtoms_ofLiteral ⟨boolean, atomic, unknown⟩
    · split
      · exact allAtoms_top
      · exact allAtoms_bottom
  case not => exact fun _ _ _ ih => ih
  case and =>
    intro lhs rhs positive f g left right
    cases positive with
    | true => exact left.conjunction right
    | false => exact left.disjunction right
  case or =>
    intro lhs rhs positive f g left right
    cases positive with
    | true => exact left.disjunction right
    | false => exact left.conjunction right

theorem Obtained.atoms (obtained : f.Obtained) : f.AllAtoms Expression.IsAtom := by
  induction obtained with
  | top => exact allAtoms_top
  | bottom => exact allAtoms_bottom
  | expression formed => exact atoms_ofExpressionPolarity formed
  | conjunction _ _ left right => exact left.conjunction right
  | disjunction _ _ left right => exact left.disjunction right

/-- The formulas that come from expressions are those that come back from their own. -/
theorem obtained_iff_returns : f.Obtained ↔ ofExpression f.toExpression = .ok f := by
  constructor
  · exact fun obtained => ofExpression_of_atoms obtained.atoms
  · exact Obtained.expression

end Formula

end EventCheck
