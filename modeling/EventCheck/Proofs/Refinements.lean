import EventCheck.Analysis.Provenance
import EventCheck.Proofs.Renaming
import EventCheck.Proofs.Replacements
import EventCheck.Proofs.SingleAssignment

/-!
What a refinement does to the sets of a search. All that can fail is computed before the first
change, so nothing has changed where a refinement fails or finds no new predicate. After one that
gets through both sets hold the formerly reached states without predecessors, with more predicates
than the violating state had.
-/

namespace EventCheck

/-! ### Emptying the reached states -/

theorem Groups.nonempty_setGroup {σ : Type} {groups : Groups σ} {k : PartitionKey}
    {states : List σ} (nonempty : ∀ l group, groups.get? l = some group → group ≠ []) :
    ∀ l group, (groups.setGroup k states).get? l = some group → group ≠ [] := by
  intro l group found
  unfold setGroup at found
  split at found
  · rw [SortedMap.get?_erase] at found
    split at found
    · cases found
    · exact nonempty l group found
  · rename_i inhabited
    rw [SortedMap.get?_insert] at found
    split at found
    · rw [← Option.some.inj found]
      exact mt List.isEmpty_iff.2 inhabited
    · exact nonempty l group found

namespace Reached

variable {σ : Type} {key : σ → PartitionKey} {reached : Reached key} {s t : σ} {states : List σ}

/-- The groups are as reached states are kept: each state is in the group of its key, once, and
there is no group without states. -/
structure Proper (reached : Reached key) : Prop where
  keyed : reached.groups.Keyed key
  nonempty : ∀ k group, reached.groups.get? k = some group → group ≠ []

theorem proper_empty : (∅ : Reached key).Proper := ⟨Groups.keyed_empty, nofun⟩

/-- Proper groups that list no state are none at all. -/
theorem Proper.eq_empty (proper : reached.Proper) (none : reached.toList = []) : reached = ∅ := by
  have groups : reached.groups = ∅ := by
    refine SortedMap.ext_get? fun k => Option.eq_none_iff_forall_ne_some.2 fun group found => ?_
    obtain ⟨s, member⟩ := List.exists_mem_of_ne_nil _ (proper.nonempty k group found)
    have listed : s ∈ reached.toList :=
      mem_toList.2 ⟨k, by rw [Groups.group, SortedMap.getD, found]; exact member⟩
    exact List.not_mem_nil (none ▸ listed)
  cases reached
  exact congrArg Reached.mk groups

variable [DecidableEq σ]

theorem Proper.insert (proper : reached.Proper) : (reached.insert s).Proper := by
  refine ⟨keyed_insert proper.keyed, ?_⟩
  unfold Reached.insert
  split
  · exact proper.nonempty
  · exact Groups.nonempty_setGroup proper.nonempty

theorem Proper.erase (proper : reached.Proper) : (reached.erase s).Proper := by
  refine ⟨keyed_erase proper.keyed, ?_⟩
  unfold Reached.erase
  split
  · exact Groups.nonempty_setGroup proper.nonempty
  · exact proper.nonempty

theorem Proper.eraseAll (proper : reached.Proper) (states : List σ) :
    (reached.eraseAll states).Proper ∧
      ∀ t, t ∈ (reached.eraseAll states).toList ↔ t ∈ reached.toList ∧ t ∉ states := by
  induction states generalizing reached with
  | nil => exact ⟨proper, fun t => by simp [Reached.eraseAll]⟩
  | cons s rest ih =>
    obtain ⟨erased, members⟩ := ih (proper.erase (s := s))
    refine ⟨erased, fun t => (members t).trans ?_⟩
    rw [mem_erase proper.keyed, List.mem_cons, not_or, and_assoc]

theorem Proper.eraseAll_toList (proper : reached.Proper) : reached.eraseAll reached.toList = ∅ := by
  obtain ⟨erased, members⟩ := proper.eraseAll reached.toList
  refine erased.eq_empty (List.eq_nil_iff_forall_not_mem.2 fun t member => ?_)
  obtain ⟨inside, outside⟩ := (members t).1 member
  exact outside inside

end Reached

/-! ### New predicates -/

theorem Expression.isGround_iff {e : Expression} :
    e.isGround = true ↔ e.variables.isEmpty = true := by
  rw [SortedSet.isEmpty_iff]
  constructor
  · exact fun ground => SortedSet.ext_mem fun v =>
      iff_of_false (variables_of_isGround ground v) (SortedSet.not_mem_empty v)
  · intro none
    have closed : ∀ v, v ∉ e.variables := fun v => none ▸ SortedSet.not_mem_empty v
    clear none
    induction e with
    | var v => exact absurd (SortedSet.mem_singleton.2 rfl) (closed v)
    | const c => rfl
    | not operand ih => exact ih closed
    | binary op lhs rhs left right =>
      refine Bool.and_eq_true_iff.2 ⟨left fun v member => ?_, right fun v member => ?_⟩
      · exact closed v (SortedSet.mem_union.2 (Or.inl member))
      · exact closed v (SortedSet.mem_union.2 (Or.inr member))

/-- The expression is an atom of the formula that speaks of variables, without their versions. -/
def Formula.Suggests (f : Formula) (e : Expression) : Prop :=
  ∃ atom ∈ f.atoms, atom.isGround = false ∧ e = atom.rename Variable.base

namespace Formula.Suggests

variable {f : Formula} {e : Expression}

theorem not_ground (suggests : f.Suggests e) : e.isGround = false := by
  obtain ⟨atom, _, speaks, rfl⟩ := suggests
  exact Expression.isGround_rename.trans speaks

theorem unversioned (suggests : f.Suggests e) : ∀ v ∈ e.variables, v.version = none := by
  obtain ⟨atom, _, _, rfl⟩ := suggests
  intro v occurs
  obtain ⟨w, _, rfl⟩ := Expression.exists_of_mem_rename occurs
  rfl

end Formula.Suggests

theorem Refiner.mem_predicatesOf {f : Formula} {e : Expression} :
    e ∈ predicatesOf f ↔ f.Suggests e := by
  rw [predicatesOf, SortedSet.mem_ofList, List.mem_map]
  refine exists_congr fun atom => ?_
  rw [List.mem_filter, and_assoc, ← SortedSet.mem_def, eq_comm (a := e), Bool.not_eq_true',
    ← Bool.not_eq_true, ← Expression.isGround_iff, Bool.not_eq_true]

/-! ### In place -/

namespace SetsRun

variable {σ α : Type} {key : σ → PartitionKey} {sets : SearchSets key} {before : Context}

theorem outcome_reading_ofExcept {x : SearchSets key → Except Error α} :
    (reading fun sets => .ofExcept (x sets)).outcome sets before = (x sets, sets, before) := by
  rw [outcome_reading]
  cases x sets <;> rfl

variable [DecidableEq σ]

/-- Admits states and lets them wait, set by set. -/
def insertAll : List σ → SetsRun key Unit
  | [] => pure ()
  | s :: rest => do
    change fun sets => ((), { sets with reached := sets.reached.insert s })
    change fun sets => ((), { sets with frontier := sets.frontier.insert s })
    insertAll rest

theorem outcome_insertAll {states : List σ} : (insertAll states).outcome sets before =
    (.ok (), states.foldl SearchSets.insert sets, before) := by
  induction states generalizing sets with
  | nil => rfl
  | cons s rest ih =>
    simp only [insertAll, outcome_bind, outcome_change, ih]
    rfl

/-- Removes all states and starts over with the given ones. -/
def startOver (states : List σ) : SetsRun key Unit := do
  change fun sets => ((), { sets with reached := sets.reached.eraseAll sets.reached.toList })
  change fun sets => ((), { sets with frontier := ∅ })
  insertAll states

theorem outcome_startOver {states : List σ} (proper : sets.reached.Proper) :
    (startOver states).outcome sets before =
      (.ok (), states.foldl SearchSets.insert {}, before) := by
  simp only [startOver, outcome_bind, outcome_change, proper.eraseAll_toList, outcome_insertAll]

end SetsRun

/-- The state has a provenance without predecessors. -/
def Analysis.IsRoot {σ : Type} (a : Analysis σ) (s : σ) : Prop :=
  ∃ provenance, a.provenance s = some provenance ∧ provenance.predecessors = ∅

namespace Refiner

variable {σ : Type} [DecidableEq σ] {a : Analysis (AbstractionState σ)} {s : AbstractionState σ}
variable {sets next : SearchSets a.partitionKey} {before : Context}

/-- The refinement of predicates on sets that change in place. It answers whether there were new
ones. -/
def refineInPlace (a : Analysis (AbstractionState σ)) (s : AbstractionState σ) :
    SetsRun a.partitionKey Bool := do
  let f ← SetsRun.reading fun _ => .ofExcept (a.formula s)
  let found := (predicatesOf f).filter (!s.precision.contains ·)
  if found.isEmpty then return false
  let initial ← SetsRun.reading fun sets => .ofExcept (initialStates a sets.reached.toList)
  if initial.isEmpty then throw .noInitialState
  SetsRun.startOver (initial.map (·.withPrecision (s.precision ∪ found)))
  return true

/-- In place the refinement comes to the sets that the search starts over with, and where it makes
no progress or fails the sets stay as they were. -/
theorem outcome_refineInPlace (proper : sets.reached.Proper) :
    (refineInPlace a s).outcome sets before =
      match refinePrecision a sets s with
      | .ok (progress, next) => (.ok progress, next, before)
      | .error error => (.error error, sets, before) := by
  have ok_bind : ∀ {α β : Type} (x : α) (f : α → Except Error β),
      (Except.ok x >>= f) = f x := fun _ _ => rfl
  -- the sets are only read until there are both new predicates and roots
  unfold refineInPlace refinePrecision
  rw [SetsRun.outcome_bind, SetsRun.outcome_reading_ofExcept]
  cases a.formula s with
  | error error => rfl
  | ok f =>
    rw [ok_bind]
    dsimp only
    split
    · rfl
    · rw [SetsRun.outcome_bind, SetsRun.outcome_reading_ofExcept]
      rcases initialStates a sets.reached.toList with error | _ | ⟨first, rest⟩
      · rfl
      · rfl
      · rw [ok_bind]
        simp only [List.isEmpty_cons, Bool.false_eq_true, if_false, SetsRun.outcome_bind,
          SetsRun.outcome_startOver proper, List.foldl_map]
        rfl

/-! ### All or nothing -/

omit [DecidableEq σ] in
/-- A search starts over with its roots. -/
theorem mem_initialStates {a : Analysis σ} {states initial : List σ}
    (given : initialStates a states = .ok initial) (r : σ) :
    r ∈ initial ↔ r ∈ states ∧ a.IsRoot r := by
  induction states generalizing initial with
  | nil =>
    obtain rfl := Except.ok.inj given
    simp
  | cons first rest ih =>
    unfold initialStates at given
    split at given
    · cases given
    · rename_i provenance found
      obtain ⟨others, later, built⟩ := bind_eq_ok_iff.1 given
      obtain rfl := pure_eq_ok_iff.1 built
      have here : a.IsRoot first ↔ provenance.predecessors.isEmpty = true := by
        simp [Analysis.IsRoot, found, SortedSet.isEmpty_iff]
      rw [List.mem_cons, or_and_right, ← ih later]
      split
      · rename_i root
        rw [List.mem_cons, and_iff_left_of_imp]
        rintro rfl
        exact here.2 root
      · rename_i inner
        rw [or_iff_right]
        rintro ⟨rfl, root⟩
        exact inner (here.1 root)

/-- The sets start over with the reached roots. These are to track what the violating state tracks
and what its formula suggests, among it something new. -/
structure Refines (a : Analysis (AbstractionState σ)) (s : AbstractionState σ) (f : Formula)
    (precision : Precision) (sets next : SearchSets a.partitionKey) : Prop where
  tracks : ∀ e, e ∈ precision ↔ e ∈ s.precision ∨ f.Suggests e
  grows : s.precision ⊆ precision ∧ s.precision ≠ precision
  fresh : ∀ e ∈ precision, e ∉ s.precision →
    f.Suggests e ∧ e.isGround = false ∧ ∀ v ∈ e.variables, v.version = none
  proper : next.reached.Proper
  sound : next.Sound
  reached : ∀ t, t ∈ next.reached.toList ↔
    ∃ r ∈ sets.reached.toList, a.IsRoot r ∧ t = r.withPrecision precision
  waiting : ∀ t, t ∈ next.frontier.queue ↔
    ∃ r ∈ sets.reached.toList, a.IsRoot r ∧ t = r.withPrecision precision

omit [DecidableEq σ] in
theorem mem_newPredicates {f : Formula} {e : Expression} :
    e ∈ (predicatesOf f).filter (!s.precision.contains ·) ↔ f.Suggests e ∧ e ∉ s.precision := by
  rw [SortedSet.mem_filter, mem_predicatesOf, Bool.not_eq_true', ← Bool.not_eq_true,
    SortedSet.contains_iff]

omit [DecidableEq σ] in
/-- There is nothing new exactly where all that the formula suggests is tracked. -/
theorem newPredicates_eq_empty {f : Formula} :
    ((predicatesOf f).filter (!s.precision.contains ·)).isEmpty = true ↔
      ∀ e, f.Suggests e → e ∈ s.precision := by
  rw [SortedSet.isEmpty_iff]
  constructor
  · intro none e suggests
    by_contra untracked
    exact SortedSet.not_mem_empty e (none ▸ mem_newPredicates.2 ⟨suggests, untracked⟩)
  · intro tracked
    refine SortedSet.ext_mem fun e => iff_of_false ?_ (SortedSet.not_mem_empty e)
    rw [mem_newPredicates]
    exact fun new => new.2 (tracked e new.1)

theorem proper_foldl_insert {states : List (AbstractionState σ)} (proper : sets.reached.Proper) :
    (states.foldl SearchSets.insert sets).reached.Proper :=
  List.foldlRecOn states SearchSets.insert
    (motive := fun (next : SearchSets a.partitionKey) => next.reached.Proper) proper
    fun _ kept _ _ => kept.insert

theorem refines_of_refinePrecision (given : refinePrecision a sets s = .ok (true, next)) :
    ∃ f precision, a.formula s = .ok f ∧ Refines a s f precision sets next := by
  obtain ⟨f, initial, formed, listed, _, new, rfl⟩ := exists_of_refinePrecision given
  have roots := mem_initialStates listed
  let precision := s.precision ∪ (predicatesOf f).filter (!s.precision.contains ·)
  have tracks : ∀ e, e ∈ precision ↔ e ∈ s.precision ∨ f.Suggests e := by
    intro e
    rw [SortedSet.mem_union, mem_newPredicates, or_and_left, and_iff_left (Classical.em _)]
  have restarted : ∀ t, t ∈ initial.map (·.withPrecision precision) ↔
      ∃ r ∈ sets.reached.toList, a.IsRoot r ∧ t = r.withPrecision precision := by
    intro t
    simp only [List.mem_map, roots, and_assoc, eq_comm]
  obtain ⟨sound, reached, waiting⟩ :=
    @SearchSets.sound_start _ a.partitionKey _ (initial.map (·.withPrecision precision))
  refine ⟨f, precision, formed, tracks, ⟨?_, ?_⟩, ?_, ?_, sound,
    fun t => (reached t).trans (restarted t), fun t => (waiting t).trans (restarted t)⟩
  · exact fun e member => (tracks e).2 (Or.inl member)
  · intro unchanged
    refine Bool.eq_false_iff.1 new (newPredicates_eq_empty.2 fun e suggests => ?_)
    exact unchanged.symm ▸ (tracks e).2 (Or.inr suggests)
  · intro e member untracked
    have suggests := ((tracks e).1 member).resolve_left untracked
    exact ⟨suggests, suggests.not_ground, suggests.unversioned⟩
  · exact proper_foldl_insert Reached.proper_empty

/-- Nothing is refined exactly where all that the formula suggests is tracked. -/
theorem refinePrecision_eq_false_iff : refinePrecision a sets s = .ok (false, sets) ↔
    ∃ f, a.formula s = .ok f ∧ ∀ e, f.Suggests e → e ∈ s.precision := by
  unfold refinePrecision
  rw [bind_eq_ok_iff]
  refine exists_congr fun f => and_congr_right fun _ => ?_
  rw [← newPredicates_eq_empty]
  dsimp only
  split
  · rename_i none
    exact iff_of_true rfl none
  · rename_i new
    refine iff_of_false (fun given => ?_) new
    obtain ⟨initial, _, given⟩ := bind_eq_ok_iff.1 given
    cases initial <;> cases given

/-- A refinement is all or nothing. Where it fails, and where it answers that all is tracked that
the formula of the state suggests, both sets are as before. Else both sets hold exactly the formerly
reached states without predecessors, with the predicates of the state and at least a new one, each
new one an atom of the formula without versions. -/
theorem refineInPlace_allOrNothing (a : Analysis (AbstractionState σ)) (s : AbstractionState σ)
    (sets : SearchSets a.partitionKey) (proper : sets.reached.Proper) (before : Context) :
    (match (refineInPlace a s).outcome sets before with
    | (.ok true, next, after) => after = before ∧ refinePrecision a sets s = .ok (true, next) ∧
      ∃ f precision, a.formula s = .ok f ∧ Refines a s f precision sets next
    | (.ok false, next, after) =>
      after = before ∧ refinePrecision a sets s = .ok (false, next) ∧ next = sets
    | (.error error, next, after) =>
      after = before ∧ refinePrecision a sets s = .error error ∧ next = sets) ∧
    ((refineInPlace a s).outcome sets before = (.ok false, sets, before) ↔
      ∃ f, a.formula s = .ok f ∧ ∀ e, f.Suggests e → e ∈ s.precision) := by
  have none_iff : refinePrecision a sets s = .ok (false, sets) ↔ _ := refinePrecision_eq_false_iff
  rw [outcome_refineInPlace proper, ← none_iff]
  rcases found : refinePrecision a sets s with error | ⟨_ | _, next⟩
  · simp
  · simp [eq_of_refinePrecision found]
  · simpa using refines_of_refinePrecision found

/-! ### From two states -/

section Pair

/-- An abstraction of known values that records where they come from. -/
def tracked : Analysis (AbstractionState (ProvenanceState ValueMap)) :=
  (knownValues .join).toAnalysis.withProvenance.withAbstraction ⟨.enumeration 2, .cartesian⟩ .always

/-- The state that a search has started from, and the one after it, in which a variable is one. -/
def rootState : AbstractionState (ProvenanceState ValueMap) where
  inner := { provenance := { id := 0 }, inner := .top }
  blockId := []

def leafState : AbstractionState (ProvenanceState ValueMap) where
  inner := { provenance := { id := 1, predecessors := .singleton 0 },
             inner := .values ((∅ : Model).insert ⟨"x", .int, some 1⟩ (.int 1)) }
  blockId := []

def pair : SearchSets tracked.partitionKey where
  reached := ((∅ : Reached _).insert rootState).insert leafState
  frontier := (∅ : Frontier _).insert leafState

theorem proper_pair : pair.reached.Proper :=
  Reached.Proper.insert (s := leafState)
    (Reached.Proper.insert (s := rootState) Reached.proper_empty)

/-- That the variable is one, whatever its version. -/
def isOne : Expression := .binary .eq (.var ⟨"x", .int, none⟩) (.const (.int 1))

/-- The refinement starts over with the first state and the equation. -/
theorem refineInPlace_pair :
    let (result, next, _) := (refineInPlace tracked leafState).outcome pair {}
    result.toOption = some true ∧
      next.reached.toList = [rootState.withPrecision (.singleton isOne)] ∧
      ∃ f precision, tracked.formula leafState = .ok f ∧
        Refines tracked leafState f precision pair next := by
  have refines := (refineInPlace_allOrNothing tracked leafState pair proper_pair {}).1
  have result : ((refineInPlace tracked leafState).outcome pair {}).1.toOption = some true := by
    decide +kernel
  have same : ((refineInPlace tracked leafState).outcome pair {}).2.1.reached.toList =
      [rootState.withPrecision (.singleton isOne)] := by decide +kernel
  generalize (refineInPlace tracked leafState).outcome pair {} = found at refines result same ⊢
  obtain ⟨_ | answer, next, after⟩ := found
  · cases result
  · cases answer with
    | false => cases result
    | true => exact ⟨rfl, same, refines.2.2⟩

end Pair

end Refiner

end EventCheck
