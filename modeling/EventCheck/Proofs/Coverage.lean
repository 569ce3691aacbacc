import EventCheck.Proofs.VersionedStates

/-!
When one state in single assignment form covers another. With path formulas inside, a covered
state describes no environment that the covering one does not. Known values may be nothing where
the block is something, and then states with other versions are covered whose block says the same
of older versions only.
-/

namespace EventCheck

open SingleAssignment

/-- The statement is made of well-typed expressions, of the type that it needs. -/
def Statement.WellTyped : Statement → Prop
  | .assign v e => e.WellTyped ∧ e.dataType = v.dataType
  | .assume e | .waitUntil e => e.WellTyped ∧ e.dataType = .bool
  | .broadcast e | .broadcastAndWait e | .waitSecs e => e.WellTyped
  | .call _ arguments _ => ∀ e ∈ arguments, e.WellTyped
  | .return value => ∀ e, value = some e → e.WellTyped
  | .declare _ | .signalFailure _ | .nop => True

variable {σ : Type}

/-- The states that well-typed statements, resets and joins lead to. -/
inductive SsaState.Arises (a : LabeledAnalysis σ) : SsaState σ → Prop
  | initial {s : SsaState σ} (member : s ∈ a.withVersions.initial) : Arises a s
  | step {s t : SsaState σ} {operation : LabeledOperation} {next : List (SsaState σ)}
    (before : Arises a s) (wellTyped : operation.statement.WellTyped)
    (stepped : a.withVersions.step s operation = .ok next) (member : t ∈ next) : Arises a t
  | reset {s : SsaState σ} (before : Arises a s) : Arises a (a.withVersions.resetPath s)
  | join {s t u : SsaState σ} (left : Arises a s) (right : Arises a t)
    (joined : a.withVersions.join s t = .ok u) : Arises a u

/-- Some typed assignment satisfies the formula of the state and gives every variable its value at
the current version. -/
def SsaState.Allows (a : LabeledAnalysis σ) (s : SsaState σ) (env : Environment) : Prop :=
  ∃ assigned : Environment, assigned.Typed ∧
    (∃ f, a.withVersions.formula s = .ok f ∧ f.Holds assigned.lookup) ∧
    s.versions.Reads assigned env

variable {a : LabeledAnalysis σ} {meaning : Meaning a} {s r : SsaState σ} {env : Environment}

theorem SsaState.allows_iff (meaning : Meaning a) : s.Allows a env ↔ s.Describes meaning env := by
  constructor
  · rintro ⟨assigned, typed, formula, reads⟩
    exact ⟨assigned, typed, (admits_iff meaning typed).2 formula, reads⟩
  · rintro ⟨assigned, typed, admits, reads⟩
    exact ⟨assigned, typed, (admits_iff meaning typed).1 admits, reads⟩

namespace SingleAssignment

/-- A covering state has an implied block and data that covers, and its versions agree unless its
data says nothing. -/
theorem stop_eq_true (covered : a.withVersions.stop s [r] = .ok true) :
    (r.block.isTrue = true ∨ s.block.implies r.block = true) ∧
      a.stop s.inner [r.inner] = .ok true ∧
      (s.versions = r.versions ∨ a.formula r.inner = .ok .top) := by
  have covered : coveredBy a s r = .ok true := by
    obtain ⟨b, found, rest⟩ := bind_eq_ok_iff.1 covered
    cases b with
    | true => exact found
    | false => cases rest
  unfold coveredBy at covered
  split at covered
  · cases covered
  · rename_i implied
    obtain ⟨data, stopped, covered⟩ := bind_eq_ok_iff.1 covered
    cases data with
    | false => cases covered
    | true =>
      have blocks : r.block.isTrue = true ∨ s.block.implies r.block = true := by
        cases first : r.block.isTrue <;> cases second : s.block.implies r.block <;>
          simp_all
      refine ⟨blocks, stopped, ?_⟩
      rw [if_neg (by simp)] at covered
      split at covered
      · rename_i same
        exact Or.inl same
      · obtain ⟨f, formed, rest⟩ := bind_eq_ok_iff.1 covered
        rw [Formula.isTrue_iff.1 (pure_eq_ok_iff.1 rest)] at formed
        exact Or.inr formed

/-- An implied block holds where the implying one does. -/
theorem block_of_stop (blocks : r.block.isTrue = true ∨ s.block.implies r.block = true)
    {lookup : Variable → Option Constant} (holds : s.block.Holds lookup) :
    r.block.Holds lookup := by
  rcases blocks with true | implied
  · rw [Formula.isTrue_iff.1 true]
    exact Formula.holds_top
  · exact Formula.holds_of_implies implied holds

/-- Between states with the same versions coverage is sound. -/
theorem describes_of_stop (meaning : Meaning a) (covered : a.withVersions.stop s [r] = .ok true)
    (versions : s.versions = r.versions) (describes : s.Describes meaning env) :
    r.Describes meaning env := by
  obtain ⟨assigned, typed, ⟨data, block⟩, reads⟩ := describes
  obtain ⟨blocks, stopped, _⟩ := stop_eq_true covered
  exact ⟨assigned, typed, ⟨meaning.stop_admits stopped data, block_of_stop blocks block⟩,
    versions ▸ reads⟩

/-! ### Path formulas -/

section Symbolic

variable {operator : MergeOperator} {s t r u : SsaState Formula}

/-- The constraint that a path formula takes up is the one that the block does. -/
theorem symbolicStep_mem {f g h : Formula} {operation : LabeledOperation} {next : List Formula}
    (formed : constraintOf operation.statement = .ok g)
    (stepped : SymbolicMemory.step f operation = .ok next) (member : h ∈ next) :
    h = f.conjunction g := by
  obtain ⟨c, given, form⟩ := constraintOf_eq_ok formed
  obtain ⟨d, same, result⟩ := SymbolicMemory.step_eq_ok stepped
  obtain rfl : c = d := Except.ok.inj (given.symm.trans same)
  rcases form with ⟨rfl, rfl⟩ | ⟨e, rfl, built⟩
  · rcases result with ⟨_, rfl⟩ | ⟨_, _, impossible, _⟩
    · rw [List.mem_singleton.1 member, Formula.conjunction_top]
    · cases impossible
  · rcases result with ⟨impossible, _⟩ | ⟨x, k, equal, other, rfl⟩
    · cases impossible
    · cases equal
      obtain rfl := Except.ok.inj (built.symm.trans other)
      split at member
      · simp at member
      · exact List.mem_singleton.1 member

theorem foldlM_align_block {versions : VersionMap} {entries : List (Variable × Nat)}
    {states aligned : List Formula} {block alignedBlock : Formula}
    (given : entries.foldlM (alignVariable (symbolicMemory operator) versions) (states, block) =
      .ok (aligned, alignedBlock))
    (same : ∀ f ∈ states, f = block) : ∀ f ∈ aligned, f = alignedBlock := by
  induction entries generalizing states block with
  | nil =>
    obtain ⟨rfl, rfl⟩ := Prod.mk.inj (pure_eq_ok_iff.1 given)
    exact same
  | cons entry rest ih =>
    rw [List.foldlM_cons] at given
    obtain ⟨⟨middle, middleBlock⟩, first, later⟩ := bind_eq_ok_iff.1 given
    refine ih later ?_
    rcases alignVariable_eq_ok first with ⟨_, rfl, rfl⟩ | ⟨next, followed, rfl, rfl⟩
    · exact same
    · intro f member
      obtain ⟨fs, found, inner⟩ := List.mem_flatten.1 member
      obtain ⟨g, inside, stepped⟩ := exists_left_of_mem (mapM_eq_ok_iff.1 followed) found
      rw [← same g inside]
      exact symbolicStep_mem (constraintOf_equality _ _) stepped inner

theorem align_block {target : VersionMap} {inner : Option Formula} {block : Formula}
    (same : s.inner = s.block)
    (given : align (symbolicMemory operator) s target = .ok (inner, block)) :
    ∀ f, inner = some f → f = block := by
  obtain ⟨⟨states, alignedBlock⟩, folded, rest⟩ := bind_eq_ok_iff.1 given
  obtain ⟨rfl, rfl⟩ := Prod.mk.inj (pure_eq_ok_iff.1 rest)
  exact fun f first => foldlM_align_block folded (by simpa using same) f (List.mem_of_head? first)

/-- With path formulas inside, what is known of the data is the block. -/
theorem inner_eq_block (arises : SsaState.Arises (symbolicMemory operator) s) :
    s.inner = s.block := by
  induction arises with
  | initial member =>
    obtain rfl := List.mem_singleton.1 member
    rfl
  | @step s t operation next _ _ stepped member ih =>
    obtain ⟨g, formed, ⟨_, rfl⟩ | ⟨inner, followed, rfl⟩⟩ := step_eq_ok stepped
    · simp at member
    · obtain ⟨f, inside, rfl⟩ := List.mem_map.1 member
      rw [symbolicStep_mem formed followed inside, ih]
  | reset => rfl
  | @join s t u _ _ joined left right =>
    obtain ⟨_, _, leftBlock, _, rightBlock, first, second, form⟩ := combine_eq_ok joined
    rcases form with ⟨i, j, rfl, rfl, combined, blocks⟩ | ⟨rfl, _, blocks⟩ | ⟨_, rfl, blocks⟩ |
      ⟨_, _, blocks, inner⟩
    · rw [blocks, ← align_block left first i rfl, ← align_block right second j rfl]
      exact (Except.ok.inj combined).symm
    · rw [blocks]
      exact align_block left first _ rfl
    · rw [blocks]
      exact align_block right second _ rfl
    · rw [blocks, inner, right]

/-- With path formulas inside, coverage is sound. -/
theorem symbolic_coverage (arises : SsaState.Arises (symbolicMemory operator) r)
    (covered : (symbolicMemory operator).withVersions.stop s [r] = .ok true)
    (describes : s.Describes (.symbolicMemory operator) env) :
    r.Describes (.symbolicMemory operator) env := by
  obtain ⟨_, _, versions | formed⟩ := stop_eq_true covered
  · exact describes_of_stop _ covered versions describes
  · have data : r.inner = .top := Except.ok.inj formed
    have block : r.block = .top := (inner_eq_block arises).symm.trans data
    obtain ⟨assigned, typed, _, reads⟩ := describes
    refine ⟨env.unversioned, reads.typed_unversioned typed, ⟨?_, ?_⟩, r.versions.reads_unversioned env⟩
    · rw [data]
      exact Formula.holds_top
    · rw [block]
      exact Formula.holds_top

end Symbolic

/-! ### Known values -/

/-- A state only speaks of versions that have been written on the way to it. -/
theorem fits_of_arises (meaning : Meaning a) (arises : SsaState.Arises a s) :
    s.Fits meaning fun _ => True := by
  induction arises with
  | initial member =>
    obtain ⟨inner, only, _, fits⟩ := meaning.initial
    rw [show a.withVersions.initial = a.initial.map fun inner => { inner } from rfl, only] at member
    obtain rfl := List.mem_singleton.1 member
    exact ⟨Formula.allAtoms_top, fits _⟩
  | step _ _ stepped member ih =>
    exact step_fits AtomRule.all (fun _ _ _ _ => trivial) stepped ih _ member
  | reset => exact ⟨Formula.allAtoms_top, meaning.reset_fits _ _⟩
  | join _ _ joined left right =>
    exact combine_fits joined AtomRule.all (fun _ _ _ => trivial) meaning.join_fits left right

section Known

variable {operator : MergeOperator} {s r : SsaState ValueMap} {known target : Environment}

theorem eq_top_of_formula {m : ValueMap} (formed : KnownValues.formula m = .ok .top) :
    m = .top := by
  rcases KnownValues.formula_eq_ok formed with ⟨_, impossible⟩ | ⟨entries, c, rfl, built, same⟩
  · have holds : (Formula.bottom).Holds fun _ => none := impossible ▸ Formula.holds_top
    exact absurd holds Formula.not_holds_bottom
  · have empty : c = ∅ := by
      have member : (∅ : Cube) ∈ (Formula.ofCube c).cubes := by simp [← same, Formula.top]
      exact (SortedSet.mem_singleton.1 (Formula.mem_of_mem_normalize member)).symm
    have none : ∀ v, entries.get? v = none := by
      intro v
      cases found : entries.get? v with
      | none => rfl
      | some d =>
        have literal := ((Cube.ofModel_eq_ok built).2 _).2 ⟨v, d, found, rfl⟩
        simp [empty] at literal
    have nothing : entries = ∅ := SortedMap.ext_get? none
    rw [nothing]
    rfl

/-- Coverage by a state is sound if values are known in it, or if it describes all environments or
none. -/
theorem knownValues_coverage
    (fine : r.inner ≠ .top ∨ (∀ env, env.Typed → r.Describes (.knownValues operator) env) ∨
      ∀ env, ¬r.Describes (.knownValues operator) env)
    (covered : (knownValues operator).withVersions.stop s [r] = .ok true)
    (describes : s.Describes (.knownValues operator) env) :
    r.Describes (.knownValues operator) env := by
  obtain ⟨blocks, stopped, versions | formed⟩ := stop_eq_true covered
  · exact describes_of_stop _ covered versions describes
  · have data : r.inner = .top := eq_top_of_formula formed
    obtain ⟨assigned, typed, admits, reads⟩ := describes
    rcases fine with known | all | none
    · exact absurd data known
    · obtain ⟨other, otherTyped, otherAdmits, otherReads⟩ :=
        all _ (reads.typed_unversioned typed)
      refine ⟨other, otherTyped, otherAdmits, fun v unversioned => ?_⟩
      rw [← otherReads v unversioned, Environment.unversioned,
        Variable.base_of_unversioned unversioned]
    · refine absurd ⟨assigned, typed, ⟨?_, block_of_stop blocks admits.2⟩,
        r.versions.reads_read assigned⟩ (none (r.versions.read assigned))
      exact (Meaning.knownValues operator).stop_admits stopped admits.1

/-- The assignment of a constant always has a successor. -/
theorem exists_step_assign {v : Variable} {c : Constant} (type : c.dataType = v.dataType)
    (s : SsaState ValueMap) :
    ∃ next, step (knownValues operator) s (.synthesized (.assign v (.const c))) = .ok next := by
  let version := (s.versions.bump v).current v
  have formed : constraintOf (.assign version (.const c)) =
      .ok (.ofLiteral ⟨.binary .eq (.var version) (.const c), true⟩) :=
    bind_eq_ok_iff.2 ⟨_, map_eq_ok_iff.2 ⟨_, Expression.binaryChecked_eq_ok_iff.2
      ⟨rfl, rfl, type⟩, rfl⟩, rfl⟩
  have inside : ∃ inner, KnownValues.step s.inner
      { LabeledOperation.synthesized (.assign v (.const c)) with
        statement := .assign version (.const c) } = .ok inner := by
    unfold KnownValues.step
    split
    · exact ⟨_, rfl⟩
    · exact ⟨[s.inner.set version (.value c)], rfl⟩
  obtain ⟨inner, followed⟩ := inside
  by_cases false : (s.block.conjunction
      (.ofLiteral ⟨.binary .eq (.var version) (.const c), true⟩)).isFalse = true
  · exact ⟨[], bind_eq_ok_iff.2 ⟨_, formed, by rw [if_pos false]; rfl⟩⟩
  · exact ⟨_, bind_eq_ok_iff.2 ⟨_, formed, by
      rw [if_neg false]
      exact bind_eq_ok_iff.2 ⟨inner, followed, rfl⟩⟩⟩

/-- A state that came from another by writes and implies its block, and speaks of versions of
certain variables only. -/
structure Narrows (operator : MergeOperator) (bases : List Variable) (r s : SsaState ValueMap)
    (env : Environment) : Prop where
  arises : SsaState.Arises (knownValues operator) s
  implies : s.block.implies r.block = true
  fits : s.Fits (.knownValues operator) (Expression.Over fun v => v.base ∈ bases)
  describes : s.Describes (.knownValues operator) env

/-- A variable can be given any value of its type. -/
theorem Narrows.write {bases : List Variable} (narrows : Narrows operator bases r s known)
    {v : Variable} (unversioned : v.version = none) (member : v ∈ bases) {c : Constant}
    (type : c.dataType = v.dataType) :
    ∃ t, Narrows operator bases r t (Function.update known v c) := by
  obtain ⟨assigned, typed, admits, reads⟩ := narrows.describes
  obtain ⟨next, followed⟩ := @exists_step_assign operator v c type s
  have stepped : (knownValues operator).withVersions.step s
      (.synthesized (.assign v (.const c))) = .ok next := followed
  have plain : (LabeledOperation.synthesized (.assign v (.const c))).statement.Plain :=
    ⟨unversioned, ⟨⟨trivial, trivial⟩, by simp [Expression.variables]⟩⟩
  have executed : known.execute (LabeledOperation.synthesized (.assign v (.const c))).statement =
      some (Function.update known v c) :=
    Environment.execute_assign.2 ⟨c, Expression.eval_const c, rfl⟩
  obtain ⟨t, inside, extended, typedAfter, _, admitsAfter, readsAfter⟩ :=
    exists_mem_step narrows.fits plain typed admits reads executed followed
  obtain ⟨g, _, _, block⟩ := mem_step followed inside
  have allowed : Allowed (Expression.Over fun v => v.base ∈ bases) (.assign v (.const c)) := by
    intro versions declared e given w occurs
    obtain ⟨d, checked, same⟩ := map_eq_ok_iff.1 given
    obtain rfl := Option.some.inj same
    obtain ⟨rfl, _⟩ := Expression.binaryChecked_eq_ok_iff.1 checked
    simp only [Expression.variables, renameReads, Expression.rename, SortedSet.mem_union,
      SortedSet.mem_singleton, SortedSet.not_mem_empty, or_false] at occurs
    rw [occurs, VersionMap.base_current, Variable.base_of_unversioned unversioned]
    exact member
  refine ⟨t, narrows.arises.step ?_ stepped inside, ?_,
    step_fits (AtomRule.over _) allowed followed narrows.fits t inside,
    extended, typedAfter, admitsAfter, readsAfter⟩
  · exact ⟨trivial, type⟩
  · rw [block]
    exact Formula.implies_trans (Formula.conjunction_implies _ _) narrows.implies

/-- All the variables can be given the values that they have in another environment. -/
theorem Narrows.writeAll {bases : List Variable} (typed : target.Typed)
    (unversioned : ∀ v ∈ bases, v.version = none) {written : List Variable}
    (among : ∀ v ∈ written, v ∈ bases) (narrows : Narrows operator bases r s known) :
    ∃ t env, Narrows operator bases r t env ∧ (∀ v ∈ written, env v = target v) ∧
      ∀ v, v ∉ written → env v = known v := by
  induction written generalizing s known with
  | nil => exact ⟨s, known, narrows, by simp, fun _ _ => rfl⟩
  | cons v rest ih =>
    obtain ⟨t, next⟩ := narrows.write (unversioned v (among v (by simp))) (among v (by simp))
      (typed v)
    obtain ⟨u, env, last, values, others⟩ := ih (fun w member => among w (by simp [member])) next
    refine ⟨u, env, last, ?_, ?_⟩
    · intro w member
      by_cases later : w ∈ rest
      · exact values w later
      · obtain rfl := (List.mem_cons.1 member).resolve_right later
        rw [others w later, Function.update_self]
    · intro w absent
      rw [List.mem_cons, not_or] at absent
      rw [others w absent.2, Function.update_of_ne absent.1]

/-- A state that nothing is known in covers every state whose block implies its block. -/
theorem stop_of_top {entries : Model} (data : r.inner = .top)
    (implied : s.block.implies r.block = true) (inner : s.inner = .values entries) :
    (knownValues operator).withVersions.stop s [r] = .ok true := by
  have stopped : (knownValues operator).stop s.inner [r.inner] = .ok true := by
    have included : (ValueMap.values entries).included .top = true :=
      SortedMap.isSubmap_iff.2 fun v c found => by simp at found
    rw [data, inner]
    exact congrArg Except.ok (by simp [included])
  have formed : (knownValues operator).formula r.inner = .ok .top := by
    rw [data]
    rfl
  have covered : coveredBy (knownValues operator) s r = .ok true := by
    unfold coveredBy
    rw [if_neg (by simp [implied])]
    refine bind_eq_ok_iff.2 ⟨true, stopped, ?_⟩
    rw [if_neg (by simp)]
    split
    · rfl
    · exact bind_eq_ok_iff.2 ⟨_, formed, rfl⟩
  exact bind_eq_ok_iff.2 ⟨true, covered, rfl⟩

/-- A state that nothing is known in, but that leaves some environment out, covers states that
describe this environment. -/
theorem exists_uncovered (arises : SsaState.Arises (knownValues operator) r)
    (data : r.inner = .top) (some : r.Describes (.knownValues operator) known)
    (typed : target.Typed) : ∃ s, SsaState.Arises (knownValues operator) s ∧
      (knownValues operator).withVersions.stop s [r] = .ok true ∧
      s.Describes (.knownValues operator) target := by
  let bases := r.block.variables.toList.map Variable.base
  have unversioned : ∀ v ∈ bases, v.version = none := by
    intro v member
    obtain ⟨w, _, rfl⟩ := List.mem_map.1 member
    rfl
  have start : Narrows operator bases r r known := by
    refine ⟨arises, Formula.implies_iff.2 fun c member => ⟨c, member, fun _ h => h⟩, ⟨?_, ?_⟩, some⟩
    · intro c member l inside
      obtain ⟨bounded, boolean⟩ := (fits_of_arises (.knownValues operator) arises).block c member l inside
      refine ⟨⟨fun v occurs => List.mem_map.2 ⟨v, ?_, rfl⟩, bounded.2⟩, boolean⟩
      exact SortedSet.mem_unionMap.2 ⟨l.atom, Formula.mem_atoms.2 ⟨c, member, l, inside, rfl⟩, occurs⟩
    · rw [data]
      exact (Meaning.knownValues operator).reset_fits r.inner _
  obtain ⟨s, env, narrows, values, _⟩ := start.writeAll typed unversioned fun _ member => member
  obtain ⟨assigned, assignedTyped, admits, reads⟩ := narrows.describes
  -- outside the block every version takes the value from the environment
  let merged : Environment := fun v => if v.base ∈ bases then assigned v else target v.base
  have same : ∀ v, v.base ∈ bases → assigned v = merged v := fun v member => (if_pos member).symm
  refine ⟨s, narrows.arises, ?_, merged, ?_, ⟨?_, ?_⟩, ?_⟩
  · obtain ⟨entries, inner⟩ : ∃ entries, s.inner = .values entries := by
      cases inner : s.inner with
      | bottom => exact absurd admits.1 (by rw [inner]; exact id)
      | values entries => exact ⟨entries, rfl⟩
    refine stop_of_top data narrows.implies inner
  · intro v
    by_cases member : v.base ∈ bases
    · rw [← same v member]
      exact assignedTyped v
    · rw [show merged v = target v.base from if_neg member]
      exact typed v.base
  · exact (Meaning.knownValues operator).admits_congr
      ((Meaning.knownValues operator).fits_imp (fun _ bounded => bounded.1) narrows.fits.inner)
      assignedTyped same admits.1
  · exact ((narrows.fits.block.imp fun _ bounded => bounded.1).within.holds_iff
      fun v member => congrArg Option.some (same v member)).1 admits.2
  · intro v plain
    have base := Variable.base_of_unversioned plain
    by_cases member : v.base ∈ bases
    · rw [← same _ (by simpa using member), ← reads v plain, values v (base ▸ member)]
    · rw [show merged (s.versions.current v) = target v.base from if_neg (by simpa using member), base]

end Known

/-! ### An uncovered environment -/

/-- Two variables, the first of which is written. -/
def written : Variable := { name := "a", dataType := .int }

def copied : Variable := { name := "b", dataType := .int }

/-- The environment with the given values of the two variables. -/
def pairEnvironment (m n : Int) : Environment := fun v =>
  if v.base = written then .int m else if v.base = copied then .int n else v.dataType.default

theorem typed_pairEnvironment (m n : Int) : (pairEnvironment m n).Typed := by
  intro v
  unfold pairEnvironment
  split
  · rename_i same
    rw [← Variable.dataType_base v, same]
    rfl
  · split
    · rename_i same
      rw [← Variable.dataType_base v, same]
      rfl
    · exact DataType.dataType_default v.dataType

/-- After a variable has been copied nothing is known of its value, but it is not any value. -/
theorem exists_copy (operator : MergeOperator) : ∃ r, SsaState.Arises (knownValues operator) r ∧
    r.inner = .top ∧ r.Describes (.knownValues operator) (pairEnvironment 1 1) ∧
    ¬r.Describes (.knownValues operator) (pairEnvironment 0 1) := by
  let start : SsaState ValueMap := { inner := .top }
  let operation := LabeledOperation.synthesized (.assign written (.var copied))
  let equation := Literal.mk (.binary .eq (.var (written.atVersion 1)) (.var (copied.atVersion 0))) true
  let r : SsaState ValueMap :=
    { versions := start.versions.bump written
      block := Formula.top.conjunction (.ofLiteral equation), inner := .top }
  have initial : SsaState.Arises (knownValues operator) start := .initial (by
    simp [start, knownValues, LabeledAnalysis.withVersions])
  have stepped : (knownValues operator).withVersions.step start operation = .ok [r] := rfl
  have wellTyped : operation.statement.WellTyped := ⟨trivial, rfl⟩
  have arises : SsaState.Arises (knownValues operator) r :=
    initial.step wellTyped stepped (by simp)
  have holds : ∀ assigned : Environment, r.block.Holds assigned.lookup ↔
      assigned (written.atVersion 1) = assigned (copied.atVersion 0) := by
    intro assigned
    rw [Formula.holds_conjunction, holds_equality]
    exact and_iff_right Formula.holds_top
  have admits : ∀ assigned, (Meaning.knownValues operator).admits r.inner assigned :=
    (Meaning.knownValues operator).reset_admits ValueMap.top
  refine ⟨r, arises, rfl, ⟨pairEnvironment 1 1, typed_pairEnvironment 1 1, ⟨admits _, ?_⟩, ?_⟩, ?_⟩
  · rw [holds]
    rfl
  · intro v _
    rfl
  · rintro ⟨assigned, _, ⟨_, block⟩, reads⟩
    have first := reads written rfl
    have second := reads copied rfl
    have same : assigned (r.versions.current written) = assigned (r.versions.current copied) :=
      (holds assigned).1 block
    rw [← first, ← second] at same
    cases same

/-! ### When coverage is sound -/

/-- All that a state covers describes only environments that the state does. -/
def SoundlyCovers (a : LabeledAnalysis σ) (r : SsaState σ) : Prop :=
  ∀ s env, SsaState.Arises a s → a.withVersions.stop s [r] = .ok true → s.Allows a env →
    r.Allows a env

theorem soundlyCovers_iff (meaning : Meaning a) : SoundlyCovers a r ↔
    ∀ s env, SsaState.Arises a s → a.withVersions.stop s [r] = .ok true →
      s.Describes meaning env → r.Describes meaning env := by
  unfold SoundlyCovers
  simp only [SsaState.allows_iff meaning]

/-- With path formulas inside, coverage is sound. With known values inside it is sound between
equal versions, and a state is sound to be covered by exactly if values are known in it or if its
block leaves all environments in or out. -/
theorem soundlyCovers_characterization (operator : MergeOperator) :
    (∀ r, SsaState.Arises (symbolicMemory operator) r →
      SoundlyCovers (symbolicMemory operator) r) ∧
    (∀ s r env, (knownValues operator).withVersions.stop s [r] = .ok true →
      s.versions = r.versions → s.Allows (knownValues operator) env →
      r.Allows (knownValues operator) env) ∧
    ∀ r, SsaState.Arises (knownValues operator) r →
      (SoundlyCovers (knownValues operator) r ↔
        r.inner ≠ .top ∨ (∀ env : Environment, env.Typed → r.Allows (knownValues operator) env) ∨
          ∀ env, ¬r.Allows (knownValues operator) env) := by
  refine ⟨fun r arises => ?_, fun s r env covered versions => ?_, fun r arises => ?_⟩
  · rw [soundlyCovers_iff (.symbolicMemory operator)]
    exact fun s env _ covered describes => symbolic_coverage arises covered describes
  · simp only [SsaState.allows_iff (.knownValues operator)]
    exact describes_of_stop _ covered versions
  · rw [soundlyCovers_iff (.knownValues operator)]
    simp only [SsaState.allows_iff (.knownValues operator)]
    constructor
    · intro sound
      by_cases data : r.inner = .top
      · refine Or.inr (Classical.byContradiction fun neither => ?_)
        obtain ⟨left, right⟩ := not_or.1 neither
        obtain ⟨known, some⟩ := Classical.not_forall_not.1 right
        obtain ⟨target, left⟩ := Classical.not_forall.1 left
        obtain ⟨typed, out⟩ := Classical.not_imp.1 left
        obtain ⟨s, before, covered, describes⟩ := exists_uncovered arises data some typed
        exact out (sound s target before covered describes)
      · exact Or.inl data
    · exact fun fine s env _ covered describes => knownValues_coverage fine covered describes

/-- The state after a variable has been set to one. -/
def afterWrite : SsaState ValueMap where
  versions := VersionMap.bump ∅ written
  block := Formula.top.conjunction
    (.ofLiteral ⟨.binary .eq (.var (written.atVersion 1)) (.const (.int 1)), true⟩)
  inner := ValueMap.top.set (written.atVersion 1) (.value (.int 1))

theorem arises_afterWrite : SsaState.Arises (knownValues .join) afterWrite := by
  have start : SsaState.Arises (knownValues .join) { inner := .top } :=
    .initial (by simp [knownValues, LabeledAnalysis.withVersions])
  have stepped : (knownValues .join).withVersions.step { inner := .top }
    (.synthesized (.assign written (.const (.int 1)))) = .ok [afterWrite] := rfl
  refine start.step ?_ stepped List.mem_cons_self
  exact ⟨trivial, rfl⟩

/-- Once a value is known of a version that has been written, nothing that covers is lost. -/
theorem soundlyCovers_afterWrite : SsaState.Arises (knownValues .join) afterWrite ∧
    afterWrite.versions.current written = written.atVersion 1 ∧
    afterWrite.inner.value? (written.atVersion 1) = some (.int 1) ∧
    SoundlyCovers (knownValues .join) afterWrite := by
  have known : afterWrite.inner.value? (written.atVersion 1) = some (.int 1) := by decide
  refine ⟨arises_afterWrite, rfl, known,
    ((soundlyCovers_characterization .join).2.2 _ arises_afterWrite).2 (Or.inl fun unknown => ?_)⟩
  rw [unknown] at known
  cases known

/-- With known values inside, coverage is not sound at all states. -/
theorem exists_not_soundlyCovers : ∃ s r env, SsaState.Arises (knownValues .join) s ∧
    SsaState.Arises (knownValues .join) r ∧
    (knownValues .join).withVersions.stop s [r] = .ok true ∧
    s.Allows (knownValues .join) env ∧ ¬r.Allows (knownValues .join) env := by
  obtain ⟨r, arises, data, some, out⟩ := exists_copy .join
  obtain ⟨s, before, covered, describes⟩ :=
    exists_uncovered arises data some (typed_pairEnvironment 0 1)
  refine ⟨s, r, pairEnvironment 0 1, before, arises, covered, ?_, ?_⟩
  · exact (SsaState.allows_iff (.knownValues .join)).2 describes
  · exact fun allows => out ((SsaState.allows_iff (.knownValues .join)).1 allows)

end SingleAssignment

end EventCheck
