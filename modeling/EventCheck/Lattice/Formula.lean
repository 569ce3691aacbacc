import EventCheck.Lattice.Basic
import EventCheck.Program.Evaluation

/-!
Formulas without quantifiers in disjunctive normal form: sets of cubes, which are sets of
literals. No cube of a formula holds an atom with both polarities and none is contained in
another, so formulas have one form under conjunction and disjunction.
-/

namespace EventCheck

/-- A boolean atom or its negation. -/
structure Literal where
  atom : Expression
  positive : Bool
deriving DecidableEq, Inhabited

namespace Literal

/-- By atom; the negation of an atom comes before it. -/
def order : Literal → Literal → Ordering := compareLex (compareOn atom) (compareOn positive)

instance : Ord Literal := ⟨order⟩

instance : Std.TransOrd Literal :=
  inferInstanceAs (Std.TransCmp (compareLex (compareOn atom) (compareOn positive)))

instance : Std.LawfulEqOrd Literal where
  compare_self :=
    cmp_self (compare : Literal → Literal → Ordering)
  eq_of_compare {a b} same := by
    have same : order a b = .eq := same
    simp only [order, compareLex, compareOn, Ordering.then_eq_eq] at same
    have atoms := Std.LawfulEqOrd.eq_of_compare (α := Expression) same.1
    have polarities := Std.LawfulEqOrd.eq_of_compare (α := Bool) same.2
    cases a; cases b; simp_all

def negate (l : Literal) : Literal := { l with positive := !l.positive }

def toExpression (l : Literal) : Expression := if l.positive then l.atom else .not l.atom

def text (l : Literal) : String := if l.positive then l.atom.text else "!" ++ l.atom.text

end Literal

/-- A conjunction of literals. -/
abbrev Cube := SortedSet Literal

namespace Cube

/-- No atom occurs with both polarities. -/
def Consistent (c : Cube) : Prop := ∀ atom, ¬(⟨atom, false⟩ ∈ c ∧ ⟨atom, true⟩ ∈ c)

/-- Whether two literals next to each other have one atom. -/
def repeatsAtom : List Literal → Bool
  | a :: b :: rest => a.atom == b.atom || repeatsAtom (b :: rest)
  | _ => false

/-- In order, the two literals of an atom are next to each other. -/
theorem repeatsAtom_iff {literals : List Literal} (increasing : StrictlyIncreasing literals) :
    repeatsAtom literals = true ↔ ∃ atom, ⟨atom, false⟩ ∈ literals ∧ ⟨atom, true⟩ ∈ literals := by
  induction literals with
  | nil => simp [repeatsAtom]
  | cons a rest ih =>
    obtain ⟨below, tail⟩ := List.pairwise_cons.1 increasing
    cases rest with
    | nil =>
      simp only [repeatsAtom, Bool.false_eq_true, List.mem_singleton, false_iff, not_exists]
      rintro atom ⟨rfl, same⟩
      simp at same
    | cons b rest =>
      simp only [repeatsAtom, Bool.or_eq_true, beq_iff_eq, ih tail]
      have less := below b (by simp)
      have parts : ∀ {l m : Literal}, compare l m = .lt →
          compare l.atom m.atom = .lt ∨ l.atom = m.atom ∧ l.positive = false ∧ m.positive = true := by
        intro l m h
        simp only [compare, Literal.order, compareLex, compareOn, Ordering.then_eq_lt] at h
        rcases h with h | ⟨same, h⟩
        · exact Or.inl h
        · refine Or.inr ⟨Std.LawfulEqOrd.eq_of_compare same, ?_⟩
          revert h
          cases l.positive <;> cases m.positive <;> decide
      constructor
      · rintro (same | ⟨atom, negative, positive⟩)
        · refine ⟨a.atom, ?_, ?_⟩
          · rcases parts less with h | ⟨_, neg, _⟩
            · rw [same] at h
              simp [Std.ReflCmp.compare_self] at h
            · rw [← neg]; simp
          · rcases parts less with h | ⟨_, _, pos⟩
            · rw [same] at h
              simp [Std.ReflCmp.compare_self] at h
            · rw [← pos, same]; simp
        · exact ⟨atom, List.mem_cons_of_mem _ negative, List.mem_cons_of_mem _ positive⟩
      · rintro ⟨atom, negative, positive⟩
        rcases List.mem_cons.1 positive with first | positive
        · rcases List.mem_cons.1 negative with same | negative
          · rw [← same] at first; simp at first
          · have := parts (first ▸ below _ negative)
            simp [Std.ReflCmp.compare_self] at this
        · rcases List.mem_cons.1 negative with first | negative
          · refine Or.inl ?_
            rcases List.mem_cons.1 positive with same | later
            · rw [← first, ← same]
            · have up := (List.pairwise_cons.1 tail).1 _ later
              rcases parts less with h | ⟨h, _⟩
              · rcases parts up with k | ⟨k, _⟩
                · rw [← first] at h
                  have := Std.TransCmp.lt_trans h k
                  simp [Std.ReflCmp.compare_self] at this
                · rw [← first, k] at h
                  simp [Std.ReflCmp.compare_self] at h
              · exact h
          · exact Or.inr ⟨atom, negative, positive⟩

def isConsistent (c : Cube) : Bool := !repeatsAtom c.toList

theorem isConsistent_iff {c : Cube} : c.isConsistent = true ↔ c.Consistent := by
  unfold isConsistent
  rw [Bool.not_eq_true', ← Bool.not_eq_true, repeatsAtom_iff c.increasing]
  simp [Consistent, SortedSet.mem_def]

def text (c : Cube) : String := " && ".intercalate (c.toList.map Literal.text)

/-- The literals joined by conjunctions from the left. -/
def toExpression (c : Cube) : Expression :=
  match c.toList.map Literal.toExpression with
  | [] => .const (.bool true)
  | first :: rest => rest.foldl (.binary .and) first

/-- The equations of a model's entries. -/
def ofModel (m : Model) : Except Error Cube := do
  let atoms ← m.toList.mapM fun (v, c) => Expression.binaryChecked .eq (.var v) (.const c)
  return .ofList (atoms.map (⟨·, true⟩))

/-- Every literal has the value that its polarity says. -/
def Holds (lookup : Variable → Option Constant) (c : Cube) : Prop :=
  ∀ l ∈ c, l.atom.eval lookup = .ok (some (.bool l.positive))

end Cube

/-- A disjunction of cubes in normal form. -/
structure Formula where
  cubes : SortedSet Cube
  consistent : ∀ c ∈ cubes, c.Consistent
  /-- No cube is contained in another one. -/
  minimal : ∀ c ∈ cubes, ∀ d ∈ cubes, c ⊆ d → c = d

namespace Formula

theorem cubes_injective {f g : Formula} (same : f.cubes = g.cubes) : f = g := by
  cases f; cases g; cases same; rfl

instance : DecidableEq Formula := fun f g =>
  decidable_of_iff (f.cubes = g.cubes) ⟨cubes_injective, fun h => h ▸ rfl⟩

/-- Some cube holds. -/
def Holds (lookup : Variable → Option Constant) (f : Formula) : Prop :=
  ∃ c ∈ f.cubes, c.Holds lookup

/-- The formula that no environment satisfies. -/
def bottom : Formula where
  cubes := ∅
  consistent := by simp
  minimal := by simp

instance : Inhabited Formula := ⟨bottom⟩

/-- The formula that every environment satisfies. -/
def top : Formula where
  cubes := .singleton ∅
  consistent := by simp [Cube.Consistent]
  minimal := by simp

/-- Whether a cube contains one of the given ones and is not that cube; these come with their
sizes, so that most are ruled out by a look at the size. -/
def isSubsumed (sized : List (Nat × Cube)) (c : Cube) : Bool :=
  let size := c.size
  sized.any fun (n, d) => n < size && d.isSubset c

theorem isSubsumed_iff {cubes : List Cube} {c : Cube} :
    isSubsumed (cubes.map fun d => (d.size, d)) c = true ↔ ∃ d ∈ cubes, d ⊆ c ∧ d ≠ c := by
  simp only [isSubsumed, List.any_map, List.any_eq_true, Function.comp_apply,
    ← SortedSet.isProperSubset_iff, SortedSet.isProperSubset]

/-- The disjunction of the cubes: without those that contradict themselves, and without those
that another one is contained in. -/
def normalize (cubes : SortedSet Cube) : Formula where
  cubes :=
    let consistent := cubes.filter Cube.isConsistent
    let sized := consistent.toList.map fun d => (d.size, d)
    consistent.filter fun c => !isSubsumed sized c
  consistent := by
    intro c member
    simp only [SortedSet.mem_filter] at member
    exact Cube.isConsistent_iff.1 member.1.2
  minimal := by
    intro c first d second contained
    simp only [SortedSet.mem_filter, Bool.not_eq_true', ← Bool.not_eq_true, isSubsumed_iff]
      at first second
    refine Classical.byContradiction fun different => second.2 ⟨c, ?_, contained, different⟩
    simpa [SortedSet.mem_def, SortedSet.filter] using first.1

def isTrue (f : Formula) : Bool := f.cubes.contains ∅

def isFalse (f : Formula) : Bool := f.cubes.isEmpty

def ofCube (c : Cube) : Formula := normalize (.singleton c)

def ofLiteral (l : Literal) : Formula := ofCube (.singleton l)

/-- Cubes of both sides joined in pairs. -/
def conjunction (f g : Formula) : Formula :=
  normalize (.ofList (f.cubes.toList.flatMap fun c => g.cubes.toList.map fun d => c ∪ d))

def disjunction (f g : Formula) : Formula := normalize (f.cubes ∪ g.cubes)

/-- Whether each cube of the first formula contains a cube of the second one. -/
def implies (f g : Formula) : Bool :=
  f.cubes.toList.all fun c => g.cubes.toList.any fun d => d.isSubset c

/-- The formula of an expression that is neither a negation nor a connective. Without variables
it is decided at once. -/
def ofAtom (e : Expression) (positive : Bool) : Except Error Formula :=
  if e.isGround then do
    match ← e.evalGround with
    | .bool b => return if b = positive then top else bottom
    | c => throw (.notTruthValue c)
  else .ok (ofLiteral ⟨e, positive⟩)

/-- The formula of an expression or of its negation; negations move inward to the atoms. -/
def ofExpressionPolarity (e : Expression) (positive : Bool) : Except Error Formula :=
  if e.dataType ≠ .bool then .error (.notFormula e)
  else
    match e with
    | .not operand => ofExpressionPolarity operand !positive
    | .binary .and lhs rhs => do
      let f ← ofExpressionPolarity lhs positive
      let g ← ofExpressionPolarity rhs positive
      return if positive then f.conjunction g else f.disjunction g
    | .binary .or lhs rhs => do
      let f ← ofExpressionPolarity lhs positive
      let g ← ofExpressionPolarity rhs positive
      return if positive then f.disjunction g else f.conjunction g
    | e => ofAtom e positive

/-- The formula of a boolean expression. -/
def ofExpression (e : Expression) : Except Error Formula := ofExpressionPolarity e true

/-- The cubes joined by disjunctions from the left. -/
def toExpression (f : Formula) : Expression :=
  match f.cubes.toList.map Cube.toExpression with
  | [] => .const (.bool false)
  | first :: rest => rest.foldl (.binary .or) first

def atoms (f : Formula) : SortedSet Expression :=
  .ofList (f.cubes.toList.flatMap fun c => c.toList.map Literal.atom)

def «variables» (f : Formula) : SortedSet Variable :=
  .unionMap f.atoms.toList Expression.variables

def text (f : Formula) : String :=
  if f.isFalse then "false"
  else if f.isTrue then "true"
  else "(" ++ ") || (".intercalate (f.cubes.toList.map Cube.text) ++ ")"

/-- Formulas ordered by containment of cubes. -/
def lattice : Lattice Formula where
  top := .ok top
  bottom := bottom
  join := disjunction
  meet := conjunction
  included f g := .ok (f.implies g)

end Formula

end EventCheck
