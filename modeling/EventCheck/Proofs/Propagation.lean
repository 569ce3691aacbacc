import EventCheck.Proofs.Enumeration
import Mathlib.Data.List.Perm.Subperm

/-!
What becomes of a refuted cube when literals are added. The larger cube forces what the smaller one
does, so values that refute the smaller cube refute the larger one, unless an error gets in the way.
A refutation by search lasts only if the search over the larger cube still tries all values.
-/

namespace EventCheck

namespace Expression

variable {known more : Variable → Option Constant} {e : Expression}

/-! ### Values that last -/

/-- No connective stands above a division. One operand of a connective can decide it while the other
is unknown, so an error of the other one could still undo the value. -/
def Steady : Expression → Prop
  | var _ | const _ => True
  | not operand => operand.Steady
  | binary op lhs rhs => lhs.Steady ∧ rhs.Steady ∧
      (op = .and ∨ op = .or → lhs.DivisionFree ∧ rhs.DivisionFree)

theorem DivisionFree.steady (free : e.DivisionFree) : e.Steady := by
  induction e with
  | var _ | const _ => trivial
  | not operand ih => exact ih free
  | binary op lhs rhs left right =>
    obtain ⟨_, _, first, second⟩ := free
    exact ⟨left first, right second, fun _ => ⟨first, second⟩⟩

theorem operands_of_apply {op : BinaryOp} {a b : Option Constant} {c : Constant}
    (strict : ¬(op = .and ∨ op = .or)) (applied : op.apply a b = .ok (some c)) :
    (∃ x, a = some x) ∧ ∃ y, b = some y := by
  cases op with
  | add | sub | mul | div | mod | lt =>
    obtain ⟨m, n, rfl, rfl, _⟩ := onIntegers_eq_ok_some applied
    exact ⟨⟨_, rfl⟩, _, rfl⟩
  | eq =>
    have equal := Except.ok.inj applied
    rcases a with _ | x <;> rcases b with _ | y <;> simp [partialEq] at equal ⊢
  | and | or => simp at strict

/-- A steady expression keeps a value that it has while more variables become known. -/
theorem eval_steady {c : Constant} (typed : TypedLookup more) (wellTyped : e.WellTyped)
    (steady : e.Steady) (refined : ∀ v, Refines (known v) (more v))
    (value : e.eval known = .ok (some c)) : e.eval more = .ok (some c) := by
  suffices ∃ result, e.eval more = .ok result by
    obtain ⟨result, later⟩ := this
    rw [later, eval_refines refined value later c rfl]
  induction e generalizing c with
  | var v => exact ⟨_, eval_var v⟩
  | const d => exact ⟨_, eval_const d⟩
  | not operand ih =>
    obtain ⟨a, first, b, truth, negated⟩ := eval_not_eq_ok_iff.1 value
    obtain ⟨t, rfl, _⟩ := Option.map_eq_some_iff.1 negated.symm
    obtain rfl := truthOf_eq_some_iff.1 truth
    obtain ⟨result, later⟩ := ih wellTyped.1 steady first
    obtain rfl := eval_refines refined first later _ rfl
    exact ⟨_, eval_not_eq_ok_iff.2 ⟨_, later, _, truth, rfl⟩⟩
  | binary op lhs rhs left right =>
    obtain ⟨a, first, b, second, applied⟩ := eval_binary_eq_ok_iff.1 value
    by_cases connective : op = .and ∨ op = .or
    -- an operand may have been unknown, but without division it has no error
    · obtain ⟨one, other⟩ := steady.2.2 connective
      refine exists_eval typed ⟨wellTyped, ?_, ?_, one, other⟩ <;>
        rcases connective with rfl | rfl <;> simp
    · obtain ⟨⟨x, rfl⟩, y, rfl⟩ := operands_of_apply connective applied
      obtain ⟨_, later⟩ := left wellTyped.1 steady.1 first
      obtain rfl := eval_refines refined first later _ rfl
      obtain ⟨_, latest⟩ := right wellTyped.2.1 steady.2.1 second
      obtain rfl := eval_refines refined second latest _ rfl
      exact ⟨_, eval_binary_eq_ok_iff.2 ⟨_, later, _, latest, applied⟩⟩

end Expression

namespace Enumeration

variable {m : Model} {c d : Cube} {l : Literal}

/-! ### Nothing more is forced -/

/-- Every value that a literal of the cube forces is an entry. -/
def Saturated (c : Cube) (m : Model) : Prop := ∀ l ∈ c, force m l = m

theorem force_eq_or_size (m : Model) (l : Literal) :
    force m l = m ∨ (force m l).size = m.size + 1 := by
  unfold force
  split
  · rename_i v value _
    by_cases assigned : m.contains v = true
    · exact Or.inl (if_pos assigned)
    · rw [if_neg assigned]
      refine Or.inr (SortedMap.size_insert ?_)
      simpa [SortedMap.contains_eq_false_iff] using assigned
  · exact Or.inl rfl

theorem size_le_foldl_force {literals : List Literal} :
    m.size ≤ (literals.foldl force m).size := by
  induction literals generalizing m with
  | nil => exact Nat.le_refl _
  | cons l rest ih =>
    have later := @ih (force m l)
    rw [List.foldl_cons]
    rcases force_eq_or_size m l with same | larger
    · rwa [same] at later ⊢
    · omega

theorem force_eq_of_size {literals : List Literal}
    (same : (literals.foldl force m).size = m.size) : ∀ l ∈ literals, force m l = m := by
  induction literals with
  | nil => simp
  | cons l rest ih =>
    rw [List.foldl_cons] at same
    have later := @size_le_foldl_force (force m l) rest
    rcases force_eq_or_size m l with unchanged | larger
    · rw [unchanged] at same
      exact List.forall_mem_cons.2 ⟨unchanged, ih same⟩
    · omega

theorem Proper.exists_get? (proper : Proper c m.get?) (full : (cubeVariables c).size ≤ m.size)
    {v : Variable} (occurs : v ∈ cubeVariables c) : ∃ value, m.get? v = some value := by
  have inside : m.keys ⊆ (cubeVariables c).toList := by
    intro w listed
    obtain ⟨value, found⟩ := SortedMap.mem_keys_iff.1 listed
    exact SortedSet.mem_def.1 (proper w value found).2
  have long : (cubeVariables c).toList.length ≤ m.keys.length := by
    rw [SortedMap.keys, List.length_map]
    exact full
  have perm := (List.subperm_of_subset m.keySet.nodup inside).perm_of_length_le long
  exact SortedMap.mem_keys_iff.1 (perm.mem_iff.2 (SortedSet.mem_def.1 occurs))

section Rounds

variable (checked : ∀ l ∈ c, l.atom.WellTyped ∧ l.atom.dataType = .bool)
include checked

/-- Each round but the last assigns a variable of the cube. -/
theorem saturated_settle {rounds : Nat} (proper : Proper c m.get?)
    (enough : (cubeVariables c).size ≤ rounds + m.size) : Saturated c (settle c rounds m) := by
  induction rounds generalizing m with
  | zero =>
    -- all variables of the cube are assigned
    intro l member
    unfold settle force
    split
    · rename_i v value forced
      obtain ⟨wellTyped, boolean⟩ := checked l member
      have occurs := (proper_forced proper member wellTyped boolean forced).2
      exact if_pos (SortedMap.contains_iff.2 (proper.exists_get? (by omega) occurs))
    · rfl
  | succ rounds ih =>
    have next : Proper c (c.toList.foldl force m).get? := by
      refine List.foldlRecOn (motive := fun m => Proper c m.get?) c.toList force proper ?_
      intro m proper l member
      exact proper_force proper member (checked l member).1 (checked l member).2
    have larger := @size_le_foldl_force m c.toList
    unfold settle
    dsimp only
    split
    · rename_i same
      exact force_eq_of_size same
    · exact ih next (by omega)

theorem saturated_propagate : Saturated c (propagate c) :=
  saturated_settle checked (fun v value found => by simp at found) (Nat.le_add_right _ _)

end Rounds

theorem exhaustive_of_booleans {names : SortedSet Variable}
    (inside : ∀ v ∈ cubeVariables c, v ∈ names) (booleans : ∀ v ∈ names, v.dataType = .bool)
    (few : 2 ^ names.size ≤ maxAssignments) : Exhaustive c := by
  have among : ∀ v ∈ unforced c, v ∈ names := fun v member => inside v (mem_unforced.1 member).1
  have distinct : (unforced c).Nodup := (cubeVariables c).nodup.filter _
  have fewer : (unforced c).length ≤ names.size :=
    (List.subperm_of_subset distinct fun v member => SortedSet.mem_def.1 (among v member)).length_le
  constructor
  · exact fun v member => booleans v (among v member)
  · exact Nat.le_trans (Nat.pow_le_pow_right (by decide) fewer) few

/-! ### Larger cubes -/

theorem forced?_equation {v : Variable} {value : Constant} {other : Expression}
    (fresh : m.get? v = none) (known : other.eval m.get? = .ok (some value))
    (form : l.atom = .binary .eq (.var v) other ∨ l.atom = .binary .eq other (.var v))
    (positive : l.positive = true) : forced? m l = some (v, value) := by
  have unknown : (Expression.var v).asVariable?.filter (fun w => !m.contains w) = some v := by
    simp [Expression.asVariable?, SortedMap.contains_eq_false_iff.2 fresh]
  have computed := knownValue_eq_some_iff.2 known
  obtain ⟨atom, polarity⟩ := l
  dsimp only at form positive
  subst positive
  unfold forced?
  rcases form with rfl | rfl
  · simp only [unknown, computed, Option.map_some]
  · have assigned : other.asVariable?.filter (fun w => !m.contains w) = none := by
      cases other with
      | var w =>
        rw [Expression.eval_var] at known
        have found : m.contains w = true := SortedMap.contains_iff.2 ⟨_, Except.ok.inj known⟩
        simp [Expression.asVariable?, found]
      | const _ | not _ | binary _ _ _ => rfl
    simp only [assigned, unknown, computed, Option.map_some]

theorem Saturated.exists_get? (saturated : Saturated c m) (member : l ∈ c) {v : Variable}
    {value : Constant} (forced : m.get? v = none → forced? m l = some (v, value)) :
    ∃ e, m.get? v = some e := by
  cases found : m.get? v with
  | some e => exact ⟨e, rfl⟩
  | none =>
    have fixed := saturated l member
    have unassigned : m.contains v = false := SortedMap.contains_eq_false_iff.2 found
    unfold force at fixed
    rw [forced found] at fixed
    simp only [unassigned, Bool.false_eq_true, if_false] at fixed
    rw [← fixed, SortedMap.get?_insert, if_pos rfl] at found
    simp at found

/-- The literals of the cube have well-typed boolean atoms, which keep their values. -/
def SteadyCube (c : Cube) : Prop :=
  ∀ l ∈ c, (l.atom.WellTyped ∧ l.atom.dataType = .bool) ∧ l.atom.Steady

theorem SteadyCube.checked (steady : SteadyCube c) :
    ∀ l ∈ c, l.atom.WellTyped ∧ l.atom.dataType = .bool :=
  fun l member => (steady l member).1

theorem eq_positive_of_eval {b : Bool} (consistent : ¬Conflicts d) (member : l ∈ d)
    (evaluated : l.atom.eval (propagate d).get? = .ok (some (.bool b))) : b = l.positive := by
  by_cases same : b = l.positive
  · exact same
  · refine absurd ⟨l, member, ?_⟩ consistent
    rw [literalHolds_eq_some_iff, evaluated]
    cases b <;> cases positive : l.positive <;> simp [positive] at same ⊢

/-- If no literal is false with what a cube forces, this obeys each part of the cube. -/
theorem obeys_propagate (steady : SteadyCube d) (contained : c ⊆ d) (consistent : ¬Conflicts d) :
    Obeys c (propagate d).get? := by
  have saturated := saturated_propagate steady.checked
  have typed := (proper_propagate steady.checked).typed
  -- the variable has a value, as nothing more is forced, and with another one the literal is false
  intro m agrees l inside v value forced
  have member := contained l inside
  obtain ⟨⟨checked, boolean⟩, lasts⟩ := steady l member
  rcases forced?_eq_some forced with ⟨atom, rfl⟩ | ⟨positive, other, known, form⟩
  case inl =>
    have given : forced? (propagate d) l = some (v, .bool l.positive) := by simp [forced?, atom]
    obtain ⟨e, found⟩ := saturated.exists_get? member fun _ => given
    rw [atom] at boolean
    obtain ⟨b, rfl⟩ := Expression.exists_bool ((typed v e found).trans boolean)
    have evaluated : l.atom.eval (propagate d).get? = .ok (some (.bool b)) := by
      rw [atom, Expression.eval_var, found]
    rw [found, eq_positive_of_eval consistent member evaluated]
  case inr =>
    have parts : other.WellTyped ∧ other.Steady := by
      rcases form with form | form <;> rw [form] at checked lasts
      · exact ⟨checked.2.1, lasts.2.1⟩
      · exact ⟨checked.1, lasts.1⟩
    have later := Expression.eval_steady typed parts.1 parts.2 agrees known
    obtain ⟨e, found⟩ := saturated.exists_get? member fun fresh =>
      forced?_equation fresh later form positive
    have evaluated : l.atom.eval (propagate d).get? = .ok (some (.bool (e = value))) := by
      have side := (@Expression.eval_var (propagate d).get? v).trans
        (congrArg Except.ok found)
      rcases form with form | form <;> rw [form]
      · exact Expression.eval_binary_eq_ok_iff.2 ⟨_, side, _, later, rfl⟩
      · refine Expression.eval_binary_eq_ok_iff.2 ⟨_, later, _, side, ?_⟩
        simp [BinaryOp.apply, Expression.partialEq, eq_comm]
    have same := eq_positive_of_eval consistent member evaluated
    rw [positive, decide_eq_true_iff] at same
    rw [found, same]

theorem agrees_propagate (steady : SteadyCube d) (contained : c ⊆ d) (consistent : ¬Conflicts d) :
    Agrees (propagate c) (propagate d).get? :=
  propagate_agrees (obeys_propagate steady contained consistent)

/-- A conflict of forced values remains one when literals are added. -/
theorem Conflicts.of_subset (conflicts : Conflicts c) (steady : SteadyCube d)
    (contained : c ⊆ d) : Conflicts d := by
  refine Classical.byContradiction fun consistent => ?_
  have agrees := agrees_propagate steady contained consistent
  have typed := (proper_propagate steady.checked).typed
  obtain ⟨l, inside, fails⟩ := conflicts
  obtain ⟨⟨checked, _⟩, lasts⟩ := steady l (contained l inside)
  refine consistent ⟨l, contained l inside, ?_⟩
  rw [literalHolds_eq_some_iff] at fails ⊢
  exact Expression.eval_steady typed checked lasts agrees fails

/-- A refuted cube stays refuted when literals are added, if forced values refute it or the search
over the larger cube tries all values. -/
theorem checkCube_of_subset {range : Nat} (given : checkCube range c = .none)
    (contained : c ⊆ d) (steady : SteadyCube d) (lasting : Conflicts c ∨ Exhaustive d) :
    checkCube range d = .none := by
  rw [checkCube_eq_none_iff]
  by_cases conflicts : Conflicts d
  · exact Or.inl conflicts
  have quiet : ¬Conflicts c := fun below => conflicts (below.of_subset steady contained)
  refine Or.inr ⟨lasting.resolve_left quiet, ?_⟩
  obtain ⟨_, fails⟩ := (fails_of_checkCube given).resolve_left quiet
  intro index _
  have completes := @completes_lookupIn d range index (proper_propagate steady.checked)
  -- what the search looks up for the larger cube also completes the smaller one
  obtain ⟨l, inside, failing⟩ := fails _
    { typed := completes.typed
      agrees := fun v value found =>
        completes.agrees v value (agrees_propagate steady contained conflicts v value found)
      known := fun v occurs => by
        obtain ⟨l, inside, among⟩ := mem_cubeVariables.1 occurs
        exact completes.known v (mem_cubeVariables.2 ⟨l, contained l inside, among⟩) }
  exact ⟨l, contained l inside, failing⟩

end Enumeration

end EventCheck
