import EventCheck.Analysis.KnownValues
import EventCheck.Analysis.SingleAssignment
import EventCheck.Proofs.Formula
import EventCheck.Proofs.Runs

/-!
What the states of a data analysis mean: which assignments of values to versioned variables they
admit, and which atoms they are made of. Both data analyses follow an operation in step with its
constraint. An assignment that a state admits and that satisfies the constraint of an operation is
admitted after it.
-/

namespace EventCheck

/-- All variables of the expression are as `p` says. -/
def Expression.Over (p : Variable → Prop) (e : Expression) : Prop := ∀ v ∈ e.variables, p v

/-- A property of atoms that the steps of an analysis keep: parts of an expression have it, and so
do negations and the equations of known values. -/
structure AtomRule (ok : Expression → Prop) : Prop where
  operand : ∀ e, ok e → ∀ part ∈ e.operands, ok part
  negation : ∀ e, e.dataType = .bool → ok e → ok (.not e)
  equation : ∀ v c, ok (.var v) → c.dataType = v.dataType → ok (.binary .eq (.var v) (.const c))

theorem AtomRule.all : AtomRule fun _ => True where
  operand _ _ _ _ := trivial
  negation _ _ _ := trivial
  equation _ _ _ _ := trivial

theorem AtomRule.total : AtomRule Expression.Total where
  operand e total part member := by
    cases e with
    | var _ | const _ => simp [Expression.operands] at member
    | not inner =>
      simp only [Expression.operands, List.mem_singleton] at member
      exact member ▸ total.operand
    | binary op lhs rhs =>
      simp only [Expression.operands, List.mem_cons, List.not_mem_nil, or_false] at member
      rcases member with rfl | rfl
      · exact total.lhs
      · exact total.rhs
  negation e boolean total := ⟨⟨total.wellTyped, boolean⟩, total.divisionFree⟩
  equation v c _ type :=
    ⟨⟨trivial, trivial, rfl, type⟩, nofun, nofun, trivial, trivial⟩

theorem AtomRule.wellTyped : AtomRule Expression.WellTyped where
  operand e checked part member := by
    cases e with
    | var _ | const _ => simp [Expression.operands] at member
    | not inner =>
      rw [List.mem_singleton.1 member]
      exact checked.1
    | binary op lhs rhs =>
      simp only [Expression.operands, List.mem_cons, List.not_mem_nil, or_false] at member
      rcases member with rfl | rfl
      · exact checked.1
      · exact checked.2.1
  negation _ boolean checked := ⟨checked, boolean⟩
  equation _ _ _ type := ⟨trivial, trivial, rfl, type⟩

theorem AtomRule.over (p : Variable → Prop) : AtomRule (Expression.Over p) where
  operand e all part member v occurs := by
    refine all v ?_
    cases e with
    | var _ | const _ => simp [Expression.operands] at member
    | not inner =>
      simp only [Expression.operands, List.mem_singleton] at member
      exact member ▸ occurs
    | binary op lhs rhs =>
      simp only [Expression.operands, List.mem_cons, List.not_mem_nil, or_false] at member
      rcases member with rfl | rfl <;> simp [Expression.variables, occurs]
  negation _ _ all := all
  equation v c all _ w occurs := all w (by simpa [Expression.variables] using occurs)

theorem AtomRule.and {ok other : Expression → Prop} (left : AtomRule ok) (right : AtomRule other) :
    AtomRule fun e => ok e ∧ other e where
  operand e both part member :=
    ⟨left.operand e both.1 part member, right.operand e both.2 part member⟩
  negation e boolean both := ⟨left.negation e boolean both.1, right.negation e boolean both.2⟩
  equation v c both type := ⟨left.equation v c both.1 type, right.equation v c both.2 type⟩

namespace Formula

variable {f g : Formula} {ok other : Expression → Prop}

/-- All atoms of the formula are truth values with the property. -/
def Fits (ok : Expression → Prop) (f : Formula) : Prop :=
  f.AllAtoms fun e => ok e ∧ e.dataType = .bool

theorem Fits.imp (weaker : ∀ e, ok e → other e) (fits : f.Fits ok) : f.Fits other :=
  AllAtoms.imp (fun e both => ⟨weaker e both.1, both.2⟩) fits

theorem Fits.within {p : Variable → Prop} (fits : f.Fits (Expression.Over p)) : f.Within p :=
  AllAtoms.imp (fun _ both => both.1) fits

theorem ofExpression_equation (v : Variable) (e : Expression) :
    ofExpression (.binary .eq (.var v) e) = .ok (ofLiteral ⟨.binary .eq (.var v) e, true⟩) := rfl

theorem ofExpression_equation_right (v : Variable) (e : Expression) :
    ofExpression (.binary .eq e (.var v)) = .ok (ofLiteral ⟨.binary .eq e (.var v), true⟩) := by
  have open_ : (Expression.binary .eq e (.var v)).isGround = false := by
    simp [Expression.isGround]
  simp only [ofExpression, ofExpressionPolarity, ofAtom, open_]
  rfl

end Formula

theorem AtomRule.fits_ofExpression {ok : Expression → Prop} (rule : AtomRule ok) {e : Expression}
    {positive : Bool} {f : Formula} (formed : Formula.ofExpressionPolarity e positive = .ok f)
    (holds : ok e) : f.Fits ok :=
  Formula.allAtoms_ofExpression rule.operand formed holds

/-- What the states of an analysis of the data mean. -/
structure Meaning {σ : Type} (a : LabeledAnalysis σ) where
  /-- The assignments that a state allows. -/
  admits : σ → Environment → Prop
  /-- Every atom that the state may contribute to a formula has the property. -/
  fits : (Expression → Prop) → σ → Prop
  admits_iff : ∀ {s env}, env.Typed →
    (admits s env ↔ ∃ f, a.formula s = .ok f ∧ f.Holds env.lookup)
  fits_formula : ∀ {s f ok}, fits ok s → a.formula s = .ok f → f.Fits ok
  fits_imp : ∀ {s ok other}, (∀ e, ok e → other e) → fits ok s → fits other s
  /-- Only the variables of a state decide what it admits. -/
  admits_congr : ∀ {s env other} {p : Variable → Prop}, fits (Expression.Over p) s →
    env.Typed → (∀ v, p v → env v = other v) → admits s env → admits s other
  initial : ∃ s, a.initial = [s] ∧ (∀ env, admits s env) ∧ ∀ ok, fits ok s
  reset_admits : ∀ s env, admits (a.resetPath s) env
  reset_fits : ∀ s ok, fits ok (a.resetPath s)
  step_admits : ∀ {s operation next g env},
    SingleAssignment.constraintOf operation.statement = .ok g → a.step s operation = .ok next →
    admits s env → g.Holds env.lookup → next ≠ [] ∧ ∀ t ∈ next, admits t env
  step_fits : ∀ {s operation next c ok}, AtomRule ok → operation.statement.constraint? = .ok c →
    (∀ e, c = some e → ok e) → a.step s operation = .ok next → fits ok s → ∀ t ∈ next, fits ok t
  join_admits : ∀ {s t u env}, a.join s t = .ok u → admits s env ∨ admits t env → admits u env
  join_fits : ∀ {s t u ok}, a.join s t = .ok u → fits ok s → fits ok t → fits ok u
  /-- What is merged is joined. -/
  merge_eq : ∀ {s t}, a.shouldMerge s t = true → a.merge = a.join
  stop_admits : ∀ {s t env}, a.stop s [t] = .ok true → admits s env → admits t env
  values_admits : ∀ {s v c env}, admits s env → (v, c) ∈ (a.values s).toList → env v = c
  values_over : ∀ {s v c env} {p : Variable → Prop}, fits (Expression.Over p) s → env.Typed →
    admits s env → (v, c) ∈ (a.values s).toList → p v

theorem SingleAssignment.constraintOf_eq_ok {statement : Statement} {g : Formula}
    (formed : constraintOf statement = .ok g) :
    ∃ c, statement.constraint? = .ok c ∧
      (c = none ∧ g = .top ∨ ∃ e, c = some e ∧ Formula.ofExpression e = .ok g) := by
  unfold constraintOf at formed
  obtain ⟨c, given, rest⟩ := bind_eq_ok_iff.1 formed
  refine ⟨c, given, ?_⟩
  cases c with
  | none => exact Or.inl ⟨rfl, (pure_eq_ok_iff.1 rest).symm⟩
  | some e => exact Or.inr ⟨e, rfl, rest⟩

/-! ### Symbolic memory -/

namespace SymbolicMemory

/-- A listed value is fixed by an equation in the only cube. -/
theorem mem_values {f : Formula} {v : Variable} {c : Constant} (member : (v, c) ∈ (values f).toList) :
    ∃ cube, f.cubes.toList = [cube] ∧ ∃ l ∈ cube, l.positive = true ∧
      (l.atom = .binary .eq (.var v) (.const c) ∨ l.atom = .binary .eq (.const c) (.var v)) := by
  unfold values at member
  split at member
  · rename_i cube single
    have listed := SortedMap.mem_of_get?_ofList (SortedMap.get?_eq_some_iff.2 member)
    obtain ⟨l, occurs, fixed⟩ := List.mem_filterMap.1 listed
    refine ⟨cube, single, l, occurs, ?_⟩
    unfold fixed? at fixed
    split at fixed
    · rename_i w d positive atom
      obtain ⟨rfl, rfl⟩ := Prod.mk.inj (Option.some.inj fixed)
      exact ⟨positive, Or.inl atom⟩
    · rename_i w d positive atom
      obtain ⟨rfl, rfl⟩ := Prod.mk.inj (Option.some.inj fixed)
      exact ⟨positive, Or.inr atom⟩
    · simp at fixed
  · simp at member

theorem values_holds {f : Formula} {v : Variable} {c : Constant} {env : Environment}
    (holds : f.Holds env.lookup) (member : (v, c) ∈ (values f).toList) : env v = c := by
  obtain ⟨cube, single, l, occurs, positive, form⟩ := mem_values member
  obtain ⟨d, inside, all⟩ := holds
  obtain rfl : d = cube := by simpa [SortedSet.mem_def, single] using inside
  have true := all l occurs
  rw [positive] at true
  rcases form with atom | atom
  · rw [atom] at true
    obtain ⟨e, first, second⟩ := Expression.eval_eq_true_iff.1 true
    rw [Expression.eval_const] at second
    rw [Expression.eval_var, ← second] at first
    exact Option.some.inj (Except.ok.inj first)
  · rw [atom] at true
    obtain ⟨e, first, second⟩ := Expression.eval_eq_true_iff.1 true
    rw [Expression.eval_const] at first
    rw [Expression.eval_var, ← first] at second
    exact Option.some.inj (Except.ok.inj second)

theorem values_over {f : Formula} {v : Variable} {c : Constant} {p : Variable → Prop}
    (within : f.Within p) (member : (v, c) ∈ (values f).toList) : p v := by
  obtain ⟨cube, single, l, occurs, _, form⟩ := mem_values member
  have listed : cube ∈ f.cubes.toList := by simp [single]
  refine within cube listed l occurs v ?_
  rcases form with atom | atom <;> simp [atom, Expression.variables]

theorem step_eq_ok {f : Formula} {operation : LabeledOperation} {next : List Formula}
    (stepped : step f operation = .ok next) :
    ∃ c, operation.statement.constraint? = .ok c ∧
      (c = none ∧ next = [f] ∨ ∃ e g, c = some e ∧ Formula.ofExpression e = .ok g ∧
        next = if (f.conjunction g).isFalse then [] else [f.conjunction g]) := by
  unfold step at stepped
  obtain ⟨c, given, rest⟩ := bind_eq_ok_iff.1 stepped
  refine ⟨c, given, ?_⟩
  cases c with
  | none => exact Or.inl ⟨rfl, (pure_eq_ok_iff.1 rest).symm⟩
  | some e =>
    obtain ⟨g, formed, rest⟩ := bind_eq_ok_iff.1 rest
    exact Or.inr ⟨e, g, rfl, formed, (pure_eq_ok_iff.1 rest).symm⟩

end SymbolicMemory

/-- A path formula admits the assignments that satisfy it. -/
def Meaning.symbolicMemory (operator : MergeOperator) : Meaning (symbolicMemory operator) where
  admits f env := f.Holds env.lookup
  fits ok f := f.Fits ok
  admits_iff {f env} _ := by simp [EventCheck.symbolicMemory]
  fits_formula {f g ok} fits formed := by
    obtain rfl := Except.ok.inj formed
    exact fits
  fits_imp weaker fits := fits.imp weaker
  admits_congr fits _ same holds :=
    (fits.within.holds_iff fun v inside => congrArg some (same v inside)).1 holds
  initial := ⟨.top, rfl, fun _ => Formula.holds_top, fun _ => Formula.allAtoms_top⟩
  reset_admits _ _ := Formula.holds_top
  reset_fits _ _ := Formula.allAtoms_top
  step_admits {f operation next g env} formed stepped admits holds := by
    obtain ⟨c, given, form⟩ := SingleAssignment.constraintOf_eq_ok formed
    obtain ⟨d, same, result⟩ := SymbolicMemory.step_eq_ok stepped
    obtain rfl : c = d := Except.ok.inj (given.symm.trans same)
    rcases result with ⟨rfl, rfl⟩ | ⟨e, h, rfl, other, rfl⟩
    · exact ⟨by simp, by simpa using admits⟩
    · have agree : g = h := by
        rcases form with ⟨impossible, _⟩ | ⟨_, equal, found⟩
        · cases impossible
        · cases equal
          exact Except.ok.inj (found.symm.trans other)
      subst agree
      have both := Formula.holds_conjunction.2 ⟨admits, holds⟩
      rw [Formula.not_isFalse_of_holds both]
      exact ⟨by simp, by simpa using both⟩
  step_fits {f operation next c ok} rule given all stepped fits := by
    obtain ⟨d, same, result⟩ := SymbolicMemory.step_eq_ok stepped
    obtain rfl : c = d := Except.ok.inj (given.symm.trans same)
    rcases result with ⟨rfl, rfl⟩ | ⟨e, g, rfl, formed, rfl⟩
    · simpa using fits
    · have grown := fits.conjunction (rule.fits_ofExpression formed (all e rfl))
      intro t member
      split at member
      · simp at member
      · rw [List.mem_singleton.1 member]
        exact grown
  join_admits {f g h env} joined either := by
    obtain rfl := Except.ok.inj joined
    exact Formula.holds_disjunction.2 either
  join_fits {f g h ok} joined left right := by
    obtain rfl := Except.ok.inj joined
    exact left.disjunction right
  merge_eq {f g} wanted := by
    cases operator with
    | sep => cases wanted
    | join => rfl
  stop_admits {f g env} covered holds := by
    have implied : f.implies g = true := by simpa using Except.ok.inj covered
    exact Formula.holds_of_implies implied holds
  values_admits := SymbolicMemory.values_holds
  values_over fits _ _ member := SymbolicMemory.values_over fits.within member

/-! ### Known values -/

namespace ValueMap

/-- All known values are those of the environment. -/
def Describes : ValueMap → Environment → Prop
  | bottom, _ => False
  | values known, env => ∀ v, Expression.Refines (known.get? v) (env.lookup v)

/-- Each equation of a variable with its known value has the property, if the types agree. -/
def Fits (ok : Expression → Prop) : ValueMap → Prop
  | bottom => True
  | values known => ∀ v c, known.get? v = some c → c.dataType = v.dataType →
      ok (.binary .eq (.var v) (.const c))

@[simp] theorem value?_values (known : Model) (v : Variable) :
    (values known).value? v = known.get? v := by
  unfold value? get
  cases found : known.get? v <;> simp [found, Flat.value?]

theorem Describes.refines {m : ValueMap} {env : Environment} (describes : m.Describes env)
    (v : Variable) : Expression.Refines (m.value? v) (env.lookup v) := by
  cases m with
  | bottom => cases describes
  | values known =>
    rw [value?_values]
    exact describes v

theorem get_set {m : ValueMap} (proper : m ≠ bottom) {v : Variable} {value : Flat Constant}
    (possible : value ≠ .bottom) (w : Variable) :
    (m.set v value).get w = if w = v then value else m.get w := by
  cases m with
  | bottom => exact absurd rfl proper
  | values known =>
    cases value with
    | bottom => exact absurd rfl possible
    | value c =>
      simp only [set, get, SortedMap.get?_insert]
      by_cases same : w = v <;> simp [same]
    | top =>
      simp only [set, get, SortedMap.get?_erase]
      by_cases same : w = v <;> simp [same]

/-- The environments described are those whose values the map allows, one by one. -/
theorem describes_iff {m : ValueMap} {env : Environment} :
    m.Describes env ↔ ∀ v, m.get v = .top ∨ m.get v = .value (env v) := by
  cases m with
  | bottom => exact iff_of_false id fun all => by simpa [get] using all default
  | values known =>
    refine forall_congr' fun v => ?_
    cases found : known.get? v <;>
      simp [get, found, Environment.lookup, Expression.Refines, eq_comm]

/-- A variable takes a value that the new entry allows. -/
theorem Describes.update {m : ValueMap} {env : Environment} (describes : m.Describes env)
    (v : Variable) {value : Flat Constant} {c : Constant}
    (allows : value = .top ∨ value = .value c) :
    (m.set v value).Describes (Function.update env v c) := by
  have proper : m ≠ bottom := by
    rintro rfl
    exact describes
  have possible : value ≠ .bottom := by
    rcases allows with rfl | rfl <;> simp
  refine describes_iff.2 fun w => ?_
  rw [get_set proper possible]
  by_cases same : w = v
  · rw [if_pos same, same, Function.update_self]
    exact allows
  · rw [if_neg same, Function.update_of_ne same]
    exact describes_iff.1 describes w

theorem Describes.set_value {m : ValueMap} {env : Environment} (describes : m.Describes env)
    {v : Variable} {c : Constant} (value : env v = c) : (m.set v (.value c)).Describes env := by
  subst value
  have updated := describes.update v (c := env v) (Or.inr rfl)
  rwa [Function.update_eq_self] at updated

theorem Describes.set_top {m : ValueMap} {env : Environment} (describes : m.Describes env)
    (v : Variable) : (m.set v .top).Describes env := by
  have updated := describes.update v (c := env v) (Or.inl rfl)
  rwa [Function.update_eq_self] at updated

theorem Fits.set_value {ok : Expression → Prop} {m : ValueMap} (fits : m.Fits ok) {v : Variable}
    {c : Constant} (holds : c.dataType = v.dataType → ok (.binary .eq (.var v) (.const c))) :
    (m.set v (.value c)).Fits ok := by
  cases m with
  | bottom => trivial
  | values known =>
    intro w d found type
    rw [SortedMap.get?_insert] at found
    by_cases same : w = v
    · rw [if_pos same] at found
      subst same
      obtain rfl := Option.some.inj found
      exact holds type
    · rw [if_neg same] at found
      exact fits w d found type

theorem Fits.set_top {ok : Expression → Prop} {m : ValueMap} (fits : m.Fits ok) (v : Variable) :
    (m.set v .top).Fits ok := by
  cases m with
  | bottom => trivial
  | values known =>
    intro w d found type
    rw [SortedMap.get?_erase] at found
    by_cases same : w = v
    · simp [same] at found
    · rw [if_neg same] at found
      exact fits w d found type

theorem join_describes {m n : ValueMap} {env : Environment}
    (either : m.Describes env ∨ n.Describes env) : (m.join n).Describes env := by
  cases m with
  | bottom => exact either.resolve_left id
  | values known =>
    cases n with
    | bottom => exact either.resolve_right id
    | values other =>
      intro v c found
      obtain ⟨left, right⟩ := SortedMap.get?_filter.1 found
      rcases either with describes | describes
      · exact describes v c left
      · exact describes v c (of_decide_eq_true right)

theorem join_fits {ok : Expression → Prop} {m n : ValueMap} (left : m.Fits ok)
    (right : n.Fits ok) : (m.join n).Fits ok := by
  cases m with
  | bottom => exact right
  | values known =>
    cases n with
    | bottom => exact left
    | values other =>
      intro v c found type
      exact left v c (SortedMap.get?_filter.1 found).1 type

theorem included_describes {m n : ValueMap} {env : Environment} (included : m.included n = true)
    (describes : m.Describes env) : n.Describes env := by
  cases m with
  | bottom => cases describes
  | values known =>
    cases n with
    | bottom => cases included
    | values other =>
      intro v c found
      exact describes v c (SortedMap.isSubmap_iff.1 included v c found)

end ValueMap

namespace Cube

variable {m : Model} {c : Cube}

/-- The literals of a model's cube are the equations of its entries, which are well typed. -/
theorem ofModel_eq_ok (formed : ofModel m = .ok c) :
    (∀ v d, m.get? v = some d → d.dataType = v.dataType) ∧
      ∀ l, l ∈ c ↔ ∃ v d, m.get? v = some d ∧ l = ⟨.binary .eq (.var v) (.const d), true⟩ := by
  unfold ofModel at formed
  obtain ⟨atoms, built, rest⟩ := bind_eq_ok_iff.1 formed
  obtain rfl := pure_eq_ok_iff.1 rest
  have entries := mapM_eq_ok_iff.1 built
  constructor
  · intro v d found
    obtain ⟨e, _, checked⟩ :=
      exists_right_of_mem entries (SortedMap.get?_eq_some_iff.1 found)
    exact (Expression.binaryChecked_eq_ok_iff.1 checked).2.2
  · intro l
    simp only [SortedSet.mem_ofList, List.mem_map]
    constructor
    · rintro ⟨e, member, rfl⟩
      obtain ⟨⟨v, d⟩, inside, checked⟩ := exists_left_of_mem entries member
      rw [(Expression.binaryChecked_eq_ok_iff.1 checked).1]
      exact ⟨v, d, SortedMap.get?_eq_some_iff.2 inside, rfl⟩
    · rintro ⟨v, d, found, rfl⟩
      obtain ⟨e, member, checked⟩ :=
        exists_right_of_mem entries (SortedMap.get?_eq_some_iff.1 found)
      refine ⟨e, member, ?_⟩
      rw [(Expression.binaryChecked_eq_ok_iff.1 checked).1]

theorem exists_ofModel (typed : ∀ v d, m.get? v = some d → d.dataType = v.dataType) :
    ∃ c, ofModel m = .ok c := by
  have built : m.toList.mapM
      (fun entry => Expression.binaryChecked .eq (.var entry.1) (.const entry.2)) =
        .ok (m.toList.map fun entry => .binary .eq (.var entry.1) (.const entry.2)) := by
    refine mapM_eq_ok_iff.2 ?_
    rw [List.forall₂_map_right_iff, List.forall₂_same]
    intro entry member
    exact Expression.binaryChecked_eq_ok_iff.2
      ⟨rfl, rfl, typed entry.1 entry.2 (SortedMap.get?_eq_some_iff.2 member)⟩
  exact ⟨_, bind_eq_ok_iff.2 ⟨_, built, rfl⟩⟩

/-- The cube of a model holds where its entries are those of the environment. -/
theorem holds_ofModel {env : Environment} (formed : ofModel m = .ok c) :
    c.Holds env.lookup ↔ ∀ v, Expression.Refines (m.get? v) (env.lookup v) := by
  have literals := (ofModel_eq_ok formed).2
  constructor
  · intro holds v d found
    have true := holds _ ((literals _).2 ⟨v, d, found, rfl⟩)
    obtain ⟨e, first, second⟩ := Expression.eval_eq_true_iff.1 true
    rw [Expression.eval_const] at second
    rw [Expression.eval_var, ← second] at first
    exact Except.ok.inj first
  · intro agrees l member
    obtain ⟨v, d, found, rfl⟩ := (literals l).1 member
    exact Expression.eval_eq_true_iff.2 ⟨d, by rw [Expression.eval_var, agrees v d found],
      Expression.eval_const d⟩

end Cube

namespace KnownValues

theorem formula_eq_ok {m : ValueMap} {f : Formula} (formed : formula m = .ok f) :
    m = .bottom ∧ f = .bottom ∨
      ∃ known c, m = .values known ∧ Cube.ofModel known = .ok c ∧ f = .ofCube c := by
  cases m with
  | bottom => exact Or.inl ⟨rfl, (Except.ok.inj formed).symm⟩
  | values known =>
    obtain ⟨c, built, rfl⟩ := map_eq_ok_iff.1 formed
    exact Or.inr ⟨known, c, rfl, built, rfl⟩

/-- The formula of a map holds exactly where the map describes, if types are respected. -/
theorem describes_iff {m : ValueMap} {env : Environment} (typed : env.Typed) :
    m.Describes env ↔ ∃ f, formula m = .ok f ∧ f.Holds env.lookup := by
  constructor
  · intro describes
    cases m with
    | bottom => cases describes
    | values known =>
      obtain ⟨c, built⟩ := Cube.exists_ofModel (m := known) fun v d found => by
        have same := Option.some.inj (describes v d found)
        rw [← same]
        exact typed v
      exact ⟨.ofCube c, map_eq_ok_iff.2 ⟨c, built, rfl⟩,
        Formula.holds_ofCube.2 ((Cube.holds_ofModel built).2 describes)⟩
  · rintro ⟨f, formed, holds⟩
    rcases formula_eq_ok formed with ⟨rfl, rfl⟩ | ⟨known, c, rfl, built, rfl⟩
    · exact absurd holds Formula.not_holds_bottom
    · exact (Cube.holds_ofModel built).1 (Formula.holds_ofCube.1 holds)

theorem formula_fits {m : ValueMap} {f : Formula} {ok : Expression → Prop} (fits : m.Fits ok)
    (formed : formula m = .ok f) : f.Fits ok := by
  rcases formula_eq_ok formed with ⟨rfl, rfl⟩ | ⟨known, c, rfl, built, rfl⟩
  · exact Formula.allAtoms_bottom
  · obtain ⟨typed, literals⟩ := Cube.ofModel_eq_ok built
    refine Formula.allAtoms_ofCube fun l member => ?_
    obtain ⟨v, d, found, rfl⟩ := (literals l).1 member
    exact ⟨fits v d found (typed v d found), rfl⟩

/-! #### Steps -/

theorem evaluate_eq_ok {m : ValueMap} {e : Expression} {result : Flat Constant}
    (evaluated : evaluate m e = .ok result) :
    (∃ c, e.eval m.value? = .ok (some c) ∧ result = .value c) ∨ result = .top := by
  unfold evaluate at evaluated
  split at evaluated
  · rename_i c value
    exact Or.inl ⟨c, value, (Except.ok.inj evaluated).symm⟩
  · exact Or.inr (Except.ok.inj evaluated).symm
  · exact Or.inr (Except.ok.inj evaluated).symm
  · simp at evaluated

/-- A known value of an expression is the one that it has in a described environment. -/
theorem value_of_evaluate {m : ValueMap} {e : Expression} {c d : Constant} {env : Environment}
    (describes : m.Describes env) (evaluated : evaluate m e = .ok (.value c))
    (value : e.eval env.lookup = .ok (some d)) : c = d := by
  rcases evaluate_eq_ok evaluated with ⟨x, known, same⟩ | impossible
  · cases same
    have equal := Expression.eval_refines describes.refines known value c rfl
    exact (Option.some.inj equal).symm
  · cases impossible

theorem refine_eq_ok {before m next : ValueMap} {side other : Expression}
    (refined : refine before m side other = .ok next) :
    next = m ∨ ∃ v c, side = .var v ∧ evaluate before other = .ok (.value c) ∧
      next = m.set v (.value c) := by
  cases side with
  | var v =>
    obtain ⟨result, evaluated, rest⟩ := bind_eq_ok_iff.1 refined
    cases result with
    | value c => exact Or.inr ⟨v, c, rfl, evaluated, (pure_eq_ok_iff.1 rest).symm⟩
    | bottom | top => exact Or.inl (pure_eq_ok_iff.1 rest).symm
  | const _ | not _ | binary _ _ _ => exact Or.inl (Except.ok.inj refined).symm

theorem refine_describes {before m next : ValueMap} {side other : Expression} {env : Environment}
    (known : before.Describes env) (describes : m.Describes env)
    (equal : ∀ v, side = .var v → other.eval env.lookup = .ok (some (env v)))
    (refined : refine before m side other = .ok next) : next.Describes env := by
  rcases refine_eq_ok refined with rfl | ⟨v, c, rfl, evaluated, rfl⟩
  · exact describes
  · exact describes.set_value (value_of_evaluate known evaluated (equal v rfl)).symm

theorem refine_fits {ok : Expression → Prop} (rule : AtomRule ok) {before m next : ValueMap}
    {side other : Expression} (holds : ok side) (fits : m.Fits ok)
    (refined : refine before m side other = .ok next) : next.Fits ok := by
  rcases refine_eq_ok refined with rfl | ⟨v, c, rfl, _, rfl⟩
  · exact fits
  · exact fits.set_value (rule.equation v c holds)

/-- How an assumption goes on: with nothing if it is known to fail, with the same map, or with an
equation that refines it from both sides. -/
theorem assume_eq_ok {m : ValueMap} {condition : Expression} {next : List ValueMap}
    (assumed : assume m condition = .ok next) :
    (evaluate m condition = .ok (.value (.bool false)) ∧ next = []) ∨ next = [m] ∨
      ∃ lhs rhs middle last, condition = .binary .eq lhs rhs ∧
        refine m m lhs rhs = .ok middle ∧ refine m middle rhs lhs = .ok last ∧ next = [last] := by
  unfold assume at assumed
  obtain ⟨result, evaluated, rest⟩ := bind_eq_ok_iff.1 assumed
  cases result with
  | bottom => rcases evaluate_eq_ok evaluated with ⟨c, _, same⟩ | same <;> cases same
  | value c =>
    cases c with
    | bool b =>
      cases b with
      | false => exact Or.inl ⟨evaluated, (pure_eq_ok_iff.1 rest).symm⟩
      | true => exact Or.inr (Or.inl (pure_eq_ok_iff.1 rest).symm)
    | int _ | str _ => exact Or.inr (Or.inl (pure_eq_ok_iff.1 rest).symm)
  | top =>
    cases condition with
    | var _ | const _ | not _ => exact Or.inr (Or.inl (pure_eq_ok_iff.1 rest).symm)
    | binary op lhs rhs =>
      cases op with
      | eq =>
        obtain ⟨middle, first, rest⟩ := bind_eq_ok_iff.1 rest
        obtain ⟨last, second, rest⟩ := bind_eq_ok_iff.1 rest
        exact Or.inr (Or.inr ⟨lhs, rhs, middle, last, rfl, first, second,
          (pure_eq_ok_iff.1 rest).symm⟩)
      | add | sub | mul | div | mod | lt | and | or =>
        exact Or.inr (Or.inl (pure_eq_ok_iff.1 rest).symm)

theorem assume_describes {m : ValueMap} {condition : Expression} {next : List ValueMap}
    {g : Formula} {env : Environment} (formed : Formula.ofExpression condition = .ok g)
    (assumed : assume m condition = .ok next) (describes : m.Describes env)
    (holds : g.Holds env.lookup) : next ≠ [] ∧ ∀ n ∈ next, n.Describes env := by
  rcases assume_eq_ok assumed with ⟨evaluated, _⟩ | rfl | ⟨lhs, rhs, middle, last, rfl, first,
    second, rfl⟩
  · rcases evaluate_eq_ok evaluated with ⟨c, value, same⟩ | impossible
    · cases same
      have wrong := Formula.eq_of_holds_ofExpressionPolarity formed describes.refines holds value
      cases wrong
    · cases impossible
  · exact ⟨by simp, by simpa using describes⟩
  · have left : ∀ v, lhs = .var v → rhs.eval env.lookup = .ok (some (env v)) := by
      rintro v rfl
      rw [Formula.ofExpression_equation] at formed
      obtain rfl := Except.ok.inj formed
      obtain ⟨c, one, two⟩ := Expression.eval_eq_true_iff.1 (Formula.holds_ofLiteral.1 holds)
      rw [Expression.eval_var] at one
      rw [two, ← Except.ok.inj one]
      rfl
    have right : ∀ v, rhs = .var v → lhs.eval env.lookup = .ok (some (env v)) := by
      rintro v rfl
      rw [Formula.ofExpression_equation_right] at formed
      obtain rfl := Except.ok.inj formed
      obtain ⟨c, one, two⟩ := Expression.eval_eq_true_iff.1 (Formula.holds_ofLiteral.1 holds)
      rw [Expression.eval_var] at two
      rw [one, ← Except.ok.inj two]
      rfl
    have between := refine_describes describes describes left first
    have after := refine_describes describes between right second
    exact ⟨by simp, by simpa using after⟩

theorem assume_fits {ok : Expression → Prop} (rule : AtomRule ok) {m : ValueMap}
    {condition : Expression} {next : List ValueMap} (holds : ok condition) (fits : m.Fits ok)
    (assumed : assume m condition = .ok next) : ∀ n ∈ next, n.Fits ok := by
  rcases assume_eq_ok assumed with ⟨_, rfl⟩ | rfl | ⟨lhs, rhs, middle, last, rfl, first,
    second, rfl⟩
  · simp
  · simpa using fits
  · have left := rule.operand _ holds lhs (by simp [Expression.operands])
    have right := rule.operand _ holds rhs (by simp [Expression.operands])
    have after := refine_fits rule right (refine_fits rule left fits first) second
    simpa using after

/-- A map that describes anything goes on as the statement says. -/
theorem step_of_describes {m : ValueMap} {operation : LabeledOperation} {next : List ValueMap}
    {env : Environment} (stepped : step m operation = .ok next) (describes : m.Describes env) :
    (match operation.statement with
      | .declare v => .ok [m.set v (.value v.dataType.default)]
      | .assign v e => do return [m.set v (← evaluate m e)]
      | .assume condition => assume m condition
      | _ => .ok [m]) = Except.ok (ε := Error) next := by
  cases m with
  | bottom => cases describes
  | values known => exact stepped

theorem step_describes {m : ValueMap} {operation : LabeledOperation} {next : List ValueMap}
    {g : Formula} {env : Environment}
    (formed : SingleAssignment.constraintOf operation.statement = .ok g)
    (stepped : step m operation = .ok next) (describes : m.Describes env)
    (holds : g.Holds env.lookup) : next ≠ [] ∧ ∀ n ∈ next, n.Describes env := by
  have stepped := step_of_describes stepped describes
  obtain ⟨c, given, form⟩ := SingleAssignment.constraintOf_eq_ok formed
  -- the equation of a written variable with its expression holds
  have written : ∀ v e, c = some (.binary .eq (.var v) e) →
      e.eval env.lookup = .ok (some (env v)) := by
    rintro v e rfl
    rcases form with ⟨impossible, _⟩ | ⟨_, same, built⟩
    · cases impossible
    · obtain rfl := Option.some.inj same
      rw [Formula.ofExpression_equation] at built
      obtain rfl := Except.ok.inj built
      obtain ⟨d, one, two⟩ := Expression.eval_eq_true_iff.1 (Formula.holds_ofLiteral.1 holds)
      rw [Expression.eval_var] at one
      rw [two, ← Except.ok.inj one]
      rfl
  have stays : ∀ n : ValueMap, n.Describes env → [n] ≠ [] ∧ ∀ t ∈ [n], t.Describes env :=
    fun n after => ⟨by simp, by simpa using after⟩
  cases statement : operation.statement with
  | declare v =>
    simp only [statement] at stepped given
    obtain rfl := Except.ok.inj stepped
    obtain ⟨e, checked, rfl⟩ := map_eq_ok_iff.1 given
    obtain ⟨rfl, _⟩ := Expression.binaryChecked_eq_ok_iff.1 checked
    have value := written v _ rfl
    rw [Expression.eval_const] at value
    exact stays _ (describes.set_value (Option.some.inj (Except.ok.inj value)).symm)
  | assign v e =>
    simp only [statement] at stepped given
    obtain ⟨result, evaluated, rest⟩ := bind_eq_ok_iff.1 stepped
    obtain rfl := pure_eq_ok_iff.1 rest
    obtain ⟨equation, checked, rfl⟩ := map_eq_ok_iff.1 given
    obtain ⟨rfl, _⟩ := Expression.binaryChecked_eq_ok_iff.1 checked
    rcases evaluate_eq_ok evaluated with ⟨d, _, rfl⟩ | rfl
    · have same := value_of_evaluate describes evaluated (written v e rfl)
      exact stays _ (describes.set_value same.symm)
    · exact stays _ (describes.set_top v)
  | assume condition =>
    simp only [statement] at stepped given
    obtain rfl := Except.ok.inj given
    rcases form with ⟨impossible, _⟩ | ⟨_, same, built⟩
    · cases impossible
    · obtain rfl := Option.some.inj same
      exact assume_describes built stepped describes holds
  | call _ _ _ | «return» _ | broadcast _ | broadcastAndWait _ | waitUntil _ | waitSecs _
  | signalFailure _ | nop =>
    simp only [statement] at stepped
    obtain rfl := Except.ok.inj stepped
    exact stays _ describes

theorem step_fits {m : ValueMap} {operation : LabeledOperation} {next : List ValueMap}
    {c : Option Expression} {ok : Expression → Prop} (rule : AtomRule ok)
    (given : operation.statement.constraint? = .ok c) (holds : ∀ e, c = some e → ok e)
    (stepped : step m operation = .ok next) (fits : m.Fits ok) : ∀ n ∈ next, n.Fits ok := by
  have written : ∀ v e, c = some (.binary .eq (.var v) e) → ok (.var v) := fun v e same =>
    rule.operand _ (holds _ same) (.var v) (by simp [Expression.operands])
  unfold step at stepped
  split at stepped
  · obtain rfl := Except.ok.inj stepped
    simp
  · cases statement : operation.statement with
    | declare v =>
      simp only [statement] at stepped given
      obtain rfl := Except.ok.inj stepped
      obtain ⟨e, checked, rfl⟩ := map_eq_ok_iff.1 given
      obtain ⟨rfl, _⟩ := Expression.binaryChecked_eq_ok_iff.1 checked
      simpa using fits.set_value (rule.equation v _ (written v _ rfl))
    | assign v e =>
      simp only [statement] at stepped given
      obtain ⟨result, evaluated, rest⟩ := bind_eq_ok_iff.1 stepped
      obtain rfl := pure_eq_ok_iff.1 rest
      obtain ⟨equation, checked, rfl⟩ := map_eq_ok_iff.1 given
      obtain ⟨rfl, _⟩ := Expression.binaryChecked_eq_ok_iff.1 checked
      rcases evaluate_eq_ok evaluated with ⟨d, _, rfl⟩ | rfl
      · simpa using fits.set_value (rule.equation v d (written v e rfl))
      · simpa using fits.set_top v
    | assume condition =>
      simp only [statement] at stepped given
      obtain rfl := Except.ok.inj given
      exact assume_fits rule (holds condition rfl) fits stepped
    | call _ _ _ | «return» _ | broadcast _ | broadcastAndWait _ | waitUntil _ | waitSecs _
    | signalFailure _ | nop =>
      simp only [statement] at stepped
      obtain rfl := Except.ok.inj stepped
      simpa using fits

end KnownValues

/-- A value map admits the assignments with its known values. -/
def Meaning.knownValues (operator : MergeOperator) : Meaning (knownValues operator) where
  admits := ValueMap.Describes
  fits := ValueMap.Fits
  admits_iff typed := KnownValues.describes_iff typed
  fits_formula := KnownValues.formula_fits
  fits_imp {m ok other} weaker fits := by
    cases m with
    | bottom => trivial
    | values known => exact fun v c found type => weaker _ (fits v c found type)
  admits_congr {m env other p} fits typed same describes := by
    cases m with
    | bottom => exact describes
    | values known =>
      intro v c found
      have value := describes v c found
      have type : c.dataType = v.dataType := by
        rw [← Option.some.inj value]
        exact typed v
      have inside := fits v c found type v (by simp [Expression.variables])
      rw [← value, Environment.lookup, Environment.lookup, same v inside]
  initial := ⟨.top, rfl, fun _ _ _ found => by simp at found, fun _ _ _ found => by simp at found⟩
  reset_admits _ _ _ _ found := by simp at found
  reset_fits _ _ _ _ found := by simp at found
  step_admits := KnownValues.step_describes
  step_fits := KnownValues.step_fits
  join_admits {m n u env} joined either := by
    obtain rfl := Except.ok.inj joined
    exact ValueMap.join_describes either
  join_fits {m n u ok} joined left right := by
    obtain rfl := Except.ok.inj joined
    exact ValueMap.join_fits left right
  merge_eq {m n} wanted := by
    cases operator with
    | sep => cases wanted
    | join => rfl
  stop_admits {m n env} covered describes := by
    have included : m.included n = true := by simpa using Except.ok.inj covered
    exact ValueMap.included_describes included describes
  values_admits {m v c env} describes member := by
    cases m with
    | bottom => cases describes
    | values known =>
      exact Option.some.inj (describes v c (SortedMap.get?_eq_some_iff.2 member))
  values_over {m v c env p} fits typed describes member := by
    cases m with
    | bottom => cases describes
    | values known =>
      have found := SortedMap.get?_eq_some_iff.2 member
      have value : env v = c := Option.some.inj (describes v c found)
      exact fits v c found (value ▸ typed v) v (by simp [Expression.variables])

end EventCheck
