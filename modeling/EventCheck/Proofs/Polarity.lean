import EventCheck.Proofs.NormalForms
import EventCheck.Proofs.Predicates

/-!
Both polarities of an expression. Whenever an expression has a formula its negation has one, too.
By form alone the two have no cube in common, and wherever the expression has a value one of them
holds: the first one where it is true, the second one where it is false.
-/

namespace EventCheck

namespace Formula

variable {e lhs rhs : Expression} {positive : Bool} {f g h k : Formula}

/-! ### Formulas that exclude each other -/

theorem eq_bottom_of_implies_bottom (implied : f.implies bottom = true) : f = bottom :=
  implies_antisymm implied (bottom_implies f)

theorem conjunction_implies_right (f g : Formula) : (f.conjunction g).implies g = true :=
  (implies_conjunction_iff.1 (implies_refl _)).2

theorem conjunction_comm (f g : Formula) : f.conjunction g = g.conjunction f := by
  have swapped : ∀ f g : Formula, (f.conjunction g).implies (g.conjunction f) = true := by
    intro f g
    rw [implies_conjunction_iff]
    exact ⟨conjunction_implies_right f g, conjunction_implies f g⟩
  exact implies_antisymm (swapped f g) (swapped g f)

theorem conjunction_mono (left : f.implies h = true) (right : g.implies k = true) :
    (f.conjunction g).implies (h.conjunction k) = true := by
  rw [implies_conjunction_iff]
  constructor
  · exact implies_trans (conjunction_implies f g) left
  · exact implies_trans (conjunction_implies_right f g) right

/-- All cubes of one formula contradict all cubes of the other one. -/
def Excludes (f g : Formula) : Prop := f.conjunction g = bottom

theorem Excludes.symm (excludes : f.Excludes g) : g.Excludes f :=
  (conjunction_comm g f).trans excludes

theorem Excludes.mono (excludes : f.Excludes g) (stronger : h.implies f = true) :
    h.Excludes g := by
  apply eq_bottom_of_implies_bottom
  have below := conjunction_mono stronger (implies_refl g)
  rwa [excludes] at below

theorem Excludes.disjunction (left : f.Excludes g) (right : f.Excludes h) :
    f.Excludes (g.disjunction h) := by
  have split : f.conjunction (g.disjunction h) = _ := distributive_lattice.meet_join f g h
  apply eq_bottom_of_implies_bottom
  rw [split]
  apply disjunction_implies_iff.2
  constructor
  · rw [show lattice.meet f g = bottom from left]
    exact implies_refl bottom
  · rw [show lattice.meet f h = bottom from right]
    exact implies_refl bottom

/-- A conjunction excludes a disjunction if each side excludes the same side of it. -/
theorem Excludes.connectives (left : f.Excludes g) (right : h.Excludes k) :
    (f.conjunction h).Excludes (g.disjunction k) := by
  apply Excludes.disjunction
  · exact left.mono (conjunction_implies f h)
  · exact right.mono (conjunction_implies_right f h)

theorem bottom_excludes (f : Formula) : bottom.Excludes f :=
  eq_bottom_of_implies_bottom (conjunction_implies bottom f)

theorem ofLiteral_excludes (e : Expression) (positive : Bool) :
    (ofLiteral ⟨e, positive⟩).Excludes (ofLiteral ⟨e, !positive⟩) := by
  have alone : ∀ {l : Literal} {c : Cube}, c ∈ (ofLiteral l).cubes → c = .singleton l :=
    fun member => SortedSet.mem_singleton.1 (mem_of_mem_normalize member)
  apply eq_bottom_of_implies_bottom
  apply normalize_implies_iff.2
  intro c member consistent
  obtain ⟨d, first, k, second, rfl⟩ := mem_product.1 member
  rw [alone first, alone second] at consistent
  exfalso
  apply consistent e
  cases positive <;> simp

/-! ### Formulas of both polarities -/

theorem ofExpressionPolarity_atomic (atomic : e.Atomic) (boolean : e.dataType = .bool) :
    ofExpressionPolarity e positive = ofAtom e positive := by
  unfold ofExpressionPolarity
  rw [if_neg fun different => different boolean]
  cases e with
  | var v => rfl
  | const c => rfl
  | not operand => cases atomic
  | binary op lhs rhs =>
    cases op with
    | and | or => cases atomic
    | add | sub | mul | div | mod | eq | lt => rfl

theorem ofExpressionPolarity_not :
    ofExpressionPolarity (.not e) positive = ofExpressionPolarity e !positive := by
  rw [ofExpressionPolarity.eq_def, if_neg fun different => different rfl]

theorem ofExpressionPolarity_and (left : ofExpressionPolarity lhs positive = .ok f)
    (right : ofExpressionPolarity rhs positive = .ok g) :
    ofExpressionPolarity (.binary .and lhs rhs) positive =
      .ok (if positive then f.conjunction g else f.disjunction g) := by
  rw [ofExpressionPolarity.eq_def, if_neg fun different => different rfl]
  simp only [left, right]
  rfl

theorem ofExpressionPolarity_or (left : ofExpressionPolarity lhs positive = .ok f)
    (right : ofExpressionPolarity rhs positive = .ok g) :
    ofExpressionPolarity (.binary .or lhs rhs) positive =
      .ok (if positive then f.disjunction g else f.conjunction g) := by
  rw [ofExpressionPolarity.eq_def, if_neg fun different => different rfl]
  simp only [left, right]
  rfl

theorem exists_opposite_ofAtom (formed : ofAtom e positive = .ok f) :
    ∃ g, ofAtom e (!positive) = .ok g ∧ f.Excludes g := by
  rcases ofAtom_eq_ok_iff.1 formed with ⟨open_, rfl⟩ | ⟨ground, b, value, rfl⟩
  · refine ⟨_, ofAtom_eq_ok_iff.2 (Or.inl ⟨open_, rfl⟩), ?_⟩
    exact ofLiteral_excludes e positive
  · refine ⟨_, ofAtom_eq_ok_iff.2 (Or.inr ⟨ground, b, value, rfl⟩), ?_⟩
    by_cases same : b = positive
    · rw [if_neg (show b ≠ !positive by simp [same])]
      exact (bottom_excludes _).symm
    · rw [if_neg same]
      exact bottom_excludes _

/-- An expression that has a formula for one polarity has one for the other, and the two exclude
each other. -/
theorem exists_opposite (formed : ofExpressionPolarity e positive = .ok f) :
    ∃ g, ofExpressionPolarity e (!positive) = .ok g ∧ f.Excludes g := by
  refine ofExpressionPolarity_induction (motive := fun e positive f =>
    ∃ g, ofExpressionPolarity e (!positive) = .ok g ∧ f.Excludes g) ?atom ?not ?and ?or formed
  case atom =>
    intro e positive f atomic boolean formed
    rw [ofExpressionPolarity_atomic atomic boolean]
    exact exists_opposite_ofAtom formed
  case not =>
    intro e positive f ih
    rw [ofExpressionPolarity_not]
    exact ih
  case and =>
    rintro lhs rhs positive f h ⟨g, left, first⟩ ⟨k, right, second⟩
    refine ⟨_, ofExpressionPolarity_and left right, ?_⟩
    cases positive with
    | true => exact first.connectives second
    | false => exact (first.symm.connectives second.symm).symm
  case or =>
    rintro lhs rhs positive f h ⟨g, left, first⟩ ⟨k, right, second⟩
    refine ⟨_, ofExpressionPolarity_or left right, ?_⟩
    cases positive with
    | true => exact (first.symm.connectives second.symm).symm
    | false => exact first.connectives second

theorem exists_ofExpression_not (formed : ofExpression e = .ok f) :
    ∃ g, ofExpression (.not e) = .ok g ∧ f.Excludes g := by
  obtain ⟨g, opposite, excludes⟩ := exists_opposite formed
  exact ⟨g, ofExpressionPolarity_not.trans opposite, excludes⟩

/-! ### Meaning -/

/-- Wherever an expression has a value, its formula holds if it is true and that of its negation if
it is false. As an error of an operand is one of the whole, no part of the expression has an error
there. -/
theorem meaning_ofExpression (formed : ofExpression e = .ok f) :
    ∃ g, ofExpression (.not e) = .ok g ∧
      ∀ env : Environment, env.Typed → (∃ result, e.eval env.lookup = .ok result) →
        (e.eval env.lookup = .ok (some (.bool true)) ↔ f.Holds env.lookup) ∧
          (e.eval env.lookup = .ok (some (.bool false)) ↔ g.Holds env.lookup) := by
  obtain ⟨g, opposite, _⟩ := exists_ofExpression_not formed
  refine ⟨g, opposite, ?_⟩
  rintro env typed ⟨result, evaluated⟩
  obtain ⟨b, value⟩ := Expression.eval_bool_of_ok typed evaluated (dataType_of_ofExpression formed)
  have negated : (Expression.not e).eval env.lookup = .ok (some (.bool !b)) :=
    Expression.eval_not_bool_iff.2 (by simpa using value)
  rw [holds_ofExpression_iff formed value, holds_ofExpression_iff opposite negated, value]
  simp

/-- Whether a variable is neither below three nor one that ten divided by it is not five. -/
def quotientQuestion : Expression :=
  .not (.binary .or (.binary .lt (.var ⟨"x", .int, none⟩) (.const (.int 3)))
    (.not (.binary .eq (.binary .div (.const (.int 10)) (.var ⟨"x", .int, none⟩))
      (.const (.int 5)))))

/-- Two is below three, so the formula of the negation holds there and the other one does not. -/
theorem holds_not_quotientQuestion : ∃ f g, ofExpression quotientQuestion = .ok f ∧
    ofExpression (.not quotientQuestion) = .ok g ∧ PredicateDomain.twos.Typed ∧
    ¬f.Holds PredicateDomain.twos.lookup ∧ g.Holds PredicateDomain.twos.lookup := by
  have formed : ofExpression quotientQuestion = .ok
      ((ofLiteral ⟨.binary .lt (.var ⟨"x", .int, none⟩) (.const (.int 3)), false⟩).conjunction
        (ofLiteral ⟨.binary .eq (.binary .div (.const (.int 10)) (.var ⟨"x", .int, none⟩))
          (.const (.int 5)), true⟩)) := rfl
  have value : quotientQuestion.eval PredicateDomain.twos.lookup = .ok (some (.bool false)) := rfl
  obtain ⟨g, opposite, meaning⟩ := meaning_ofExpression formed
  obtain ⟨true_iff, false_iff⟩ := meaning _ PredicateDomain.typed_twos ⟨_, value⟩
  refine ⟨_, g, formed, opposite, PredicateDomain.typed_twos, ?_, false_iff.1 value⟩
  rw [← true_iff, value]
  simp

end Formula

end EventCheck
