import EventCheck.Proofs.Coverage
import EventCheck.Proofs.Occurring

/-!
Path formulas against execution. A sequence of statements runs from one environment to another
exactly if the formula of the state after it can be satisfied with the first one as the versions
zero and the other one as the current versions.
-/

namespace EventCheck

open SingleAssignment

/-! ### Sequences -/

/-- The states that the operations lead to, one after the other. -/
def LabeledAnalysis.stepAll {σ : Type} (a : LabeledAnalysis σ) :
    List LabeledOperation → List σ → Except Error (List σ)
  | [], states => .ok states
  | operation :: rest, states => do
    let next ← states.mapM fun s => a.step s operation
    a.stepAll rest next.flatten

/-- The statement declares, assigns or assumes, with variables that have no version and well-typed
expressions that do not divide. -/
def Statement.Simple : Statement → Prop
  | .declare v => v.version = none
  | .assign v e => v.version = none ∧ e.Plain ∧ e.dataType = v.dataType
  | .assume condition => condition.Plain
  | _ => False

theorem Statement.Simple.plain {statement : Statement} (simple : statement.Simple) :
    statement.Plain := by
  cases statement with
  | declare v => exact simple
  | assign v e => exact ⟨simple.1, simple.2.1⟩
  | assume condition => exact simple
  | _ => cases simple

section Sequences

variable {σ : Type} {a : LabeledAnalysis σ} {operations : List LabeledOperation} {states next : List σ}

theorem LabeledAnalysis.stepAll_of_step {s t : σ} {operation : LabeledOperation}
    (stepped : a.step s operation = .ok [t]) :
    a.stepAll (operation :: operations) [s] = a.stepAll operations [t] := by
  simp [stepAll, stepped, bind, Except.bind, pure, Except.pure]

theorem leads_of_stepAll (stepped : a.stepAll operations states = .ok next) :
    ∀ t ∈ next, ∃ s ∈ states, Control.Leads a (operations.map (·.statement)) s t := by
  induction operations generalizing states with
  | nil =>
    obtain rfl := Except.ok.inj stepped
    exact fun t member => ⟨t, member, .nil⟩
  | cons operation rest ih =>
    obtain ⟨each, followed, later⟩ := bind_eq_ok_iff.1 stepped
    intro t member
    obtain ⟨r, inside, leads⟩ := ih later t member
    obtain ⟨results, listed, found⟩ := List.mem_flatten.1 inside
    obtain ⟨s, source, one⟩ := exists_left_of_mem (mapM_eq_ok_iff.1 followed) listed
    exact ⟨s, source, .cons one found leads⟩

end Sequences

/-! ### Execution -/

namespace Environment

variable {env other next : Environment} {statement : Statement} {statements : List Statement}

/-- The variables without version have equal values. -/
def Agrees (env other : Environment) : Prop := ∀ v, v.version = none → env v = other v

theorem Agrees.symm (agrees : env.Agrees other) : other.Agrees env :=
  fun v unversioned => (agrees v unversioned).symm

theorem Agrees.trans (agrees : env.Agrees other) (also : other.Agrees next) : env.Agrees next :=
  fun v unversioned => (agrees v unversioned).trans (also v unversioned)

theorem Agrees.eval (agrees : env.Agrees other) {e : Expression} (plain : e.Plain) :
    e.eval env.lookup = e.eval other.lookup :=
  Expression.eval_congr fun v member => congrArg some (agrees v (plain.unversioned v member))

theorem Agrees.update (agrees : env.Agrees other) (v : Variable) (c : Constant) :
    Agrees (Function.update env v c) (Function.update other v c) := by
  intro w unversioned
  by_cases same : w = v
  · rw [same, Function.update_self, Function.update_self]
  · rw [Function.update_of_ne same, Function.update_of_ne same, agrees w unversioned]

theorem Agrees.execute (agrees : env.Agrees other) (simple : statement.Simple)
    (executed : env.execute statement = some next) :
    ∃ last, other.execute statement = some last ∧ next.Agrees last := by
  cases statement with
  | declare v =>
    obtain rfl := Option.some.inj executed
    exact ⟨_, rfl, agrees.update v _⟩
  | assign v e =>
    obtain ⟨c, value, rfl⟩ := execute_assign.1 executed
    exact ⟨_, execute_assign.2 ⟨c, (agrees.eval simple.2.1).symm.trans value, rfl⟩,
      agrees.update v c⟩
  | assume condition =>
    obtain ⟨true, rfl⟩ := execute_assume.1 executed
    exact ⟨other, execute_assume.2 ⟨(agrees.eval simple).symm.trans true, rfl⟩, agrees⟩
  | _ => cases simple

/-- Only variables without version count in the execution of simple statements. -/
theorem Agrees.executeAll (agrees : env.Agrees other)
    (simple : ∀ statement ∈ statements, statement.Simple)
    (executed : env.executeAll statements = some next) :
    ∃ last, other.executeAll statements = some last ∧ next.Agrees last := by
  induction statements generalizing env other with
  | nil =>
    obtain rfl := Option.some.inj executed
    exact ⟨other, rfl, agrees⟩
  | cons statement rest ih =>
    obtain ⟨middle, first, later⟩ := executeAll_cons.1 executed
    obtain ⟨between, second, same⟩ := agrees.execute (simple statement (by simp)) first
    obtain ⟨last, all, agrees⟩ := ih same (fun s member => simple s (by simp [member])) later
    exact ⟨last, executeAll_cons.2 ⟨between, second, all⟩, agrees⟩

/-- Types are kept. -/
theorem Typed.execute (typed : env.Typed) (wellTyped : statement.WellTyped)
    (executed : env.execute statement = some next) : next.Typed := by
  cases statement with
  | declare v =>
    obtain rfl := Option.some.inj executed
    exact typed_update typed (DataType.dataType_default v.dataType)
  | assign v e =>
    obtain ⟨c, value, rfl⟩ := execute_assign.1 executed
    refine typed_update typed (Eq.trans ?_ wellTyped.2)
    refine Expression.dataType_of_eval ?_ value
    rintro w d ⟨⟩
    exact typed w
  | assume condition =>
    obtain ⟨_, rfl⟩ := execute_assume.1 executed
    exact typed
  | _ =>
    obtain rfl := Option.some.inj executed
    exact typed

/-- A statement that runs is well typed. -/
theorem Typed.wellTyped (typed : env.Typed) (simple : statement.Simple)
    (executed : env.execute statement = some next) : statement.WellTyped := by
  cases statement with
  | declare v => trivial
  | assign v e => exact ⟨simple.2.1.total.wellTyped, simple.2.2⟩
  | assume condition =>
    obtain ⟨true, _⟩ := execute_assume.1 executed
    refine ⟨simple.total.wellTyped, Eq.symm (Expression.dataType_of_eval ?_ true)⟩
    rintro w d ⟨⟩
    exact typed w
  | _ => cases simple

end Environment

/-! ### Steps -/

namespace SingleAssignment

variable {operator : MergeOperator} {versions : VersionMap} {declared : SortedSet Variable}
variable {statement : Statement} {operation : LabeledOperation} {assigned : Environment}

/-- The constraint of a well-typed statement has a formula. -/
theorem exists_constraint (versions : VersionMap) (declared : SortedSet Variable)
    (plain : statement.Plain) (wellTyped : statement.WellTyped) :
    ∃ c, (rename versions declared statement).1.constraint? = .ok c ∧
      ∀ e, c = some e → ∃ g, Formula.ofExpression e = .ok g := by
  have types := VersionMap.dataType_current versions
  have write : ∀ {v : Variable} {e : Expression}, e.dataType = v.dataType →
      ∃ c, some <$> Expression.binaryChecked .eq (.var v) e = .ok c ∧
        ∀ d, c = some d → ∃ g, Formula.ofExpression d = .ok g := by
    intro v e types
    refine ⟨_, map_eq_ok_iff.2 ⟨_, Expression.binaryChecked_eq_ok_iff.2 ⟨rfl, rfl, types⟩, rfl⟩, ?_⟩
    rintro _ ⟨⟩
    exact ⟨_, Formula.ofExpression_equation v e⟩
  cases statement with
  | declare v => exact write (DataType.dataType_default v.dataType)
  | assign v e => exact write ((Expression.dataType_rename types e).trans wellTyped.2)
  | assume condition =>
    refine ⟨_, rfl, ?_⟩
    rintro _ ⟨⟩
    exact Formula.exists_ofExpressionPolarity (plain.total.rename types)
      ((Expression.dataType_rename types condition).trans wellTyped.2) true
  | call _ _ _ | «return» _ | broadcast _ | broadcastAndWait _ | waitUntil _ | waitSecs _
  | signalFailure _ | nop => exact ⟨none, rfl, nofun⟩

/-- With path formulas inside, no step fails at a well-typed statement. -/
theorem exists_step (plain : operation.statement.Plain) (wellTyped : operation.statement.WellTyped)
    (s : SsaState Formula) : ∃ next, step (symbolicMemory operator) s operation = .ok next := by
  obtain ⟨c, given, formulas⟩ := exists_constraint s.versions s.declared plain wellTyped
  have constrained : ∃ g inner, constraintOf (rename s.versions s.declared operation.statement).1 =
      .ok g ∧ (symbolicMemory operator).step s.inner
        { operation with statement := (rename s.versions s.declared operation.statement).1 } =
          .ok inner := by
    cases c with
    | none => exact ⟨_, _, bind_eq_ok_iff.2 ⟨none, given, rfl⟩, bind_eq_ok_iff.2 ⟨none, given, rfl⟩⟩
    | some e =>
      obtain ⟨g, built⟩ := formulas e rfl
      exact ⟨g, _, bind_eq_ok_iff.2 ⟨some e, given, built⟩,
        bind_eq_ok_iff.2 ⟨some e, given, bind_eq_ok_iff.2 ⟨g, built, rfl⟩⟩⟩
  obtain ⟨g, inner, formed, followed⟩ := constrained
  unfold step
  by_cases false : (s.block.conjunction g).isFalse = true
  · exact ⟨[], bind_eq_ok_iff.2 ⟨g, formed, if_pos false⟩⟩
  · exact ⟨_, bind_eq_ok_iff.2 ⟨g, formed, (if_neg false).trans
      (bind_eq_ok_iff.2 ⟨inner, followed, rfl⟩)⟩⟩

/-- With path formulas inside, there is at most one successor. -/
theorem eq_singleton_of_mem_step {s t : SsaState Formula} {next : List (SsaState Formula)}
    (stepped : step (symbolicMemory operator) s operation = .ok next) (member : t ∈ next) :
    next = [t] := by
  obtain ⟨g, _, ⟨_, rfl⟩ | ⟨inner, followed, rfl⟩⟩ := step_eq_ok stepped
  · simp at member
  · have single : ∃ states : Formula, inner = [states] ∨ inner = [] := by
      obtain ⟨c, _, ⟨_, rfl⟩ | ⟨_, _, _, _, rfl⟩⟩ := SymbolicMemory.step_eq_ok followed
      · exact ⟨_, Or.inl rfl⟩
      · split
        · exact ⟨.top, Or.inr rfl⟩
        · exact ⟨_, Or.inl rfl⟩
    obtain ⟨f, rfl | rfl⟩ := single
    · obtain rfl := List.mem_singleton.1 member
      rfl
    · simp at member

/-! ### Execution has a path -/

/-- The state after statements that run from a described environment describes the one after. -/
theorem exists_stepAll {operations : List LabeledOperation} {s : SsaState Formula}
    {env last : Environment} (simple : ∀ o ∈ operations, o.statement.Simple)
    (fits : s.Fits (.symbolicMemory operator) fun _ => True) (typed : assigned.Typed)
    (admits : s.Admits (.symbolicMemory operator) assigned) (reads : s.versions.Reads assigned env)
    (typedEnv : env.Typed) (executed : env.executeAll (operations.map (·.statement)) = some last) :
    ∃ next t, (symbolicMemory operator).withVersions.stepAll operations [s] = .ok next ∧ t ∈ next ∧
      ∃ extended : Environment, extended.Typed ∧
        (∀ v, s.versions.Covers v → assigned v = extended v) ∧
        t.Admits (.symbolicMemory operator) extended ∧ t.versions.Reads extended last := by
  induction operations generalizing s assigned env with
  | nil =>
    obtain rfl := Option.some.inj executed
    exact ⟨_, s, rfl, by simp, assigned, typed, fun _ _ => rfl, admits, reads⟩
  | cons operation rest ih =>
    have first := simple operation (by simp)
    obtain ⟨middle, one, later⟩ := Environment.executeAll_cons.1 executed
    obtain ⟨states, stepped⟩ := exists_step first.plain (typedEnv.wellTyped first one) s
    obtain ⟨t, member, extended, typedAfter, same, admitsAfter, readsAfter⟩ :=
      exists_mem_step fits first.plain typed admits reads one stepped
    obtain ⟨_, _, versions, _⟩ := mem_step stepped member
    obtain ⟨next, u, all, inside, assigned, typed, kept, result⟩ :=
      ih (fun o member => simple o (by simp [member]))
        (step_fits AtomRule.all (fun _ _ _ _ => trivial) stepped fits t member) typedAfter
        admitsAfter readsAfter (typedEnv.execute (typedEnv.wellTyped first one) one) later
    -- no other successor can make the rest fail
    have only : (symbolicMemory operator).withVersions.step s operation = .ok [t] := by
      rw [← eq_singleton_of_mem_step stepped member]
      exact stepped
    refine ⟨next, u, (LabeledAnalysis.stepAll_of_step only).trans all, inside, assigned, typed,
      fun v covers => ?_, result⟩
    rw [same v covers]
    exact kept v (versions ▸ covers.mono (below_versionsAfter _ _))

/-! ### A path has an execution -/

/-- A write makes one more version count. -/
theorem covers_bump {v w : Variable} (covers : (versions.bump v).Covers w) :
    versions.Covers w ∨ w = (versions.bump v).current v := by
  obtain ⟨k, version, bound⟩ := covers
  rw [VersionMap.version_bump] at bound
  by_cases same : w.base = v.base
  · rw [if_pos same] at bound
    rw [← VersionMap.version_congr same] at bound
    by_cases earlier : k ≤ versions.version w
    · exact Or.inl ⟨k, version, earlier⟩
    · refine Or.inr (Variable.eq_of_base same ?_)
      rw [version, VersionMap.version_current, VersionMap.version_bump, if_pos rfl,
        ← VersionMap.version_congr same, Option.some.injEq]
      omega
  · rw [if_neg same] at bound
    exact Or.inl ⟨k, version, bound⟩

/-- All versions that count have values of their types. -/
def TypedOn (versions : VersionMap) (assigned : Environment) : Prop :=
  ∀ v, versions.Covers v → (assigned v).dataType = v.dataType

/-- The assignment with values of the right types only. -/
def settle (assigned : Environment) : Environment := fun v =>
  if (assigned v).dataType = v.dataType then assigned v else v.dataType.default

theorem typed_settle (assigned : Environment) : (settle assigned).Typed := by
  intro v
  unfold settle
  split
  · assumption
  · exact DataType.dataType_default v.dataType

theorem TypedOn.settle_eq (typed : TypedOn versions assigned) {v : Variable}
    (covers : versions.Covers v) : assigned v = settle assigned v :=
  (if_pos (typed v covers)).symm

/-- The constraint of a write gives the new version a value of its type. -/
theorem TypedOn.versionsAfter (typed : TypedOn versions assigned) (simple : statement.Simple)
    {g : Formula} (formed : constraintOf (rename versions declared statement).1 = .ok g)
    (holds : g.Holds assigned.lookup) : TypedOn (versionsAfter versions statement) assigned := by
  have write : ∀ {v : Variable} {e : Expression} {c : Constant}, e.dataType = v.dataType →
      Formula.ofExpression (.binary .eq (.var ((versions.bump v).current v)) e) = .ok g →
      e.eval assigned.lookup = .ok (some c) → c.dataType = e.dataType →
      TypedOn (versions.bump v) assigned := by
    intro v e c types built value type w covers
    rcases covers_bump covers with before | rfl
    · exact typed w before
    · rw [(holds_equation built value).1 holds, type, types]
      exact (VersionMap.dataType_current _ v).symm
  cases statement with
  | declare v =>
    obtain ⟨types, built⟩ := constraintOf_write formed rfl
    exact write types built (Expression.eval_const _) rfl
  | assign v e =>
    obtain ⟨types, built⟩ := constraintOf_write formed rfl
    obtain ⟨c, value, type⟩ := Expression.eval_total (typed_settle assigned)
      (simple.2.1.total.rename fun v => VersionMap.dataType_current versions v)
    refine write types built (Eq.trans ?_ value) type
    exact Expression.eval_congr fun w occurs =>
      congrArg some (typed.settle_eq (over_renameReads versions e w occurs))
  | assume condition => exact typed
  | _ => cases simple

theorem TypedOn.leads {σ : Type} {a : LabeledAnalysis σ} {s t : SsaState σ}
    {statements : List Statement} (typed : TypedOn s.versions assigned)
    (simple : ∀ statement ∈ statements, statement.Simple)
    (leads : Control.Leads a.withVersions statements s t) (holds : t.block.Holds assigned.lookup) :
    TypedOn t.versions assigned := by
  induction leads with
  | nil => exact typed
  | cons stepped member later ih =>
    obtain ⟨g, formed, versions, same⟩ := mem_step stepped member
    obtain ⟨_, constraint⟩ :=
      Formula.holds_conjunction.1 (same ▸ SsaState.block_of_leads later holds)
    refine ih ?_ (fun statement later => simple statement (by simp [later])) holds
    exact versions ▸ typed.versionsAfter (simple _ (by simp)) formed constraint

end SingleAssignment

/-! ### Exactness -/

section Exactness

variable {operator : MergeOperator} {operations : List LabeledOperation}
variable {first last : Environment} {s : SsaState Formula}

/-- Some assignment satisfies the formula of the state, with the values of one environment at version
zero and of another one at the current versions. -/
def SsaState.Connects (operator : MergeOperator) (s : SsaState Formula)
    (first last : Environment) : Prop :=
  ∃ f, (symbolicMemory operator).withVersions.formula s = .ok f ∧
    ∃ assigned : Environment, f.Holds assigned.lookup ∧
      (∀ v, v.version = none → assigned (v.atVersion 0) = first v) ∧
      ∀ v, v.version = none → assigned (s.versions.current v) = last v

/-- What runs has a path. -/
theorem connects_of_executeAll {e : Environment} (simple : ∀ o ∈ operations, o.statement.Simple)
    (typed : first.Typed)
    (executed : first.executeAll (operations.map (·.statement)) = some e) (agrees : e.Agrees last) :
    ∃ states, (symbolicMemory operator).withVersions.stepAll operations
        (symbolicMemory operator).withVersions.initial = .ok states ∧
      ∃ s ∈ states, s.Connects operator first last := by
  let start : SsaState Formula := { inner := .top }
  have fits : start.Fits (.symbolicMemory operator) fun _ => True :=
    fits_of_arises _ (.initial (List.mem_singleton.2 rfl))
  obtain ⟨states, t, stepped, member, extended, typedAfter, kept, admits, reads⟩ :=
    exists_stepAll simple fits typed.unversioned ⟨Formula.holds_top, Formula.holds_top⟩
      (start.versions.reads_unversioned first) typed executed
  obtain ⟨f, formed, holds⟩ := (SsaState.admits_iff _ typedAfter).1 admits
  refine ⟨states, stepped, t, member, f, formed, extended, holds, fun v unversioned => ?_,
    fun v unversioned => ?_⟩
  · rw [← kept (v.atVersion 0) ⟨0, rfl, Nat.zero_le _⟩, Environment.unversioned,
      Variable.base_atVersion, Variable.base_of_unversioned unversioned]
  · rw [← reads v unversioned, agrees v unversioned]

/-- What has a path runs. -/
theorem executeAll_of_connects {states : List (SsaState Formula)}
    (simple : ∀ o ∈ operations, o.statement.Simple) (typed : first.Typed)
    (stepped : (symbolicMemory operator).withVersions.stepAll operations
      (symbolicMemory operator).withVersions.initial = .ok states) (member : s ∈ states)
    (connects : s.Connects operator first last) :
    ∃ e, first.executeAll (operations.map (·.statement)) = some e ∧ e.Agrees last := by
  have simple : ∀ statement ∈ operations.map (·.statement), statement.Simple := by
    intro statement inside
    obtain ⟨operation, listed, rfl⟩ := List.mem_map.1 inside
    exact simple operation listed
  obtain ⟨f, formed, assigned, holds, starts, ends⟩ := connects
  obtain ⟨start, initial, leads⟩ := leads_of_stepAll stepped s member
  obtain ⟨inner, _, built⟩ := bind_eq_ok_iff.1 formed
  obtain rfl := pure_eq_ok_iff.1 built
  have block := (Formula.holds_conjunction.1 holds).2
  have zero : ∀ v : Variable, v.version = none → (∅ : VersionMap).current v = v.atVersion 0 := by
    intro v unversioned
    rw [VersionMap.current, Variable.base_of_unversioned unversioned]
    rfl
  have typedStart : TypedOn ∅ assigned := by
    rintro v ⟨k, version, bound⟩
    obtain rfl : k = 0 := Nat.le_zero.1 bound
    have same : v = v.base.atVersion 0 := Variable.eq_of_base rfl version
    rw [same, starts v.base rfl]
    exact typed v.base
  have fits : s.Fits (.symbolicMemory operator) fun _ => True :=
    SsaState.fits_of_leads AtomRule.all (fun _ _ _ _ _ _ => trivial)
      (fits_of_arises _ (.initial initial)) leads
  obtain rfl := List.mem_singleton.1 initial
  -- versions that were never written may have values of other types, which `settle` replaces
  have typedEnd := typedStart.leads simple leads block
  have executed := SsaState.executeAll_of_leads (fun statement inside => (simple statement inside).plain)
    (typed_settle assigned) leads ((fits.block_congr fun v => typedEnd.settle_eq).1 block)
  have begins : Environment.Agrees ((∅ : VersionMap).read (settle assigned)) first := by
    intro v unversioned
    rw [VersionMap.read, if_pos unversioned,
      ← typedStart.settle_eq (VersionMap.covers_current _ v), zero v unversioned,
      starts v unversioned]
  obtain ⟨e, run, agrees⟩ := begins.executeAll simple executed
  refine ⟨e, run, agrees.symm.trans fun v unversioned => ?_⟩
  rw [VersionMap.read, if_pos unversioned, ← typedEnd.settle_eq (VersionMap.covers_current _ v),
    ends v unversioned]

/-- Declarations, assignments and assumptions run from one environment to another exactly if they
lead to a state whose formula connects the two. If they lead to none they run from nowhere. -/
theorem executeAll_iff_connects (operator : MergeOperator)
    (simple : ∀ o ∈ operations, o.statement.Simple) (typed : first.Typed) (last : Environment) :
    ((∃ e, first.executeAll (operations.map (·.statement)) = some e ∧ e.Agrees last) ↔
      ∃ states, (symbolicMemory operator).withVersions.stepAll operations
          (symbolicMemory operator).withVersions.initial = .ok states ∧
        ∃ s ∈ states, s.Connects operator first last) ∧
    ((∀ states, (symbolicMemory operator).withVersions.stepAll operations
        (symbolicMemory operator).withVersions.initial = .ok states → states = []) →
      ∀ e : Environment, e.Typed → e.executeAll (operations.map (·.statement)) = none) := by
  refine ⟨⟨?_, ?_⟩, fun none e typed => ?_⟩
  · rintro ⟨e, executed, agrees⟩
    exact connects_of_executeAll simple typed executed agrees
  · rintro ⟨states, stepped, s, member, connects⟩
    exact executeAll_of_connects simple typed stepped member connects
  · refine Option.eq_none_iff_forall_ne_some.2 fun last executed => ?_
    obtain ⟨states, stepped, s, member, _⟩ :=
      connects_of_executeAll simple typed executed fun _ _ => rfl
    rw [none states stepped] at member
    cases member

end Exactness

/-! ### A path and a contradiction -/

/-- The successor of a variable is kept while the variable itself is declared anew. -/
def keepsSuccessor : List LabeledOperation :=
  let x : Variable := { name := "x", dataType := .int }
  let y : Variable := { name := "y", dataType := .int }
  [.synthesized (.assign y (.binary .add (.var x) (.const (.int 1)))),
    .synthesized (.declare x),
    .synthesized (.assume (.binary .eq (.var y) (.const (.int 6))))]

/-- A condition and its negation are assumed. -/
def contradictsItself : List LabeledOperation :=
  let negative : Expression := .binary .lt (.var { name := "x", dataType := .int }) (.const (.int 0))
  [.synthesized (.assume negative), .synthesized (.assume (.not negative))]

/-- The first sequence runs if the variable is five, so it has a path; the second one has no path, so
it never runs. -/
theorem exists_connects : ∃ first last : Environment, first.Typed ∧
    first.executeAll (keepsSuccessor.map (·.statement)) = some last ∧
    (∃ states, (symbolicMemory .sep).withVersions.stepAll keepsSuccessor
        (symbolicMemory .sep).withVersions.initial = .ok states ∧
      ∃ s ∈ states, s.Connects .sep first last) ∧
    ∀ e : Environment, e.Typed → e.executeAll (contradictsItself.map (·.statement)) = none := by
  let first : Environment := fun v => if v.dataType = .int then .int 5 else v.dataType.default
  have typed : first.Typed := by
    intro v
    by_cases whole : v.dataType = .int
    · simp [first, whole, Constant.dataType]
    · simp [first, whole, DataType.dataType_default]
  have simple : ∀ o ∈ keepsSuccessor, o.statement.Simple := by
    intro o member
    simp only [keepsSuccessor, List.mem_cons, List.not_mem_nil, or_false] at member
    rcases member with rfl | rfl | rfl
    · exact ⟨rfl, ⟨⟨⟨trivial, trivial, rfl, rfl⟩, by simp, by simp, trivial, trivial⟩,
        by simp [Expression.variables]⟩, rfl⟩
    · exact rfl
    · exact ⟨⟨⟨trivial, trivial, rfl, rfl⟩, by simp, by simp, trivial, trivial⟩,
        by simp [Expression.variables]⟩
  have contradictory : ∀ o ∈ contradictsItself, o.statement.Simple := by
    intro o member
    simp only [contradictsItself, List.mem_cons, List.not_mem_nil, or_false] at member
    rcases member with rfl | rfl
    · exact ⟨⟨⟨trivial, trivial, rfl, rfl⟩, by simp, by simp, trivial, trivial⟩,
        by simp [Expression.variables]⟩
    · exact ⟨⟨⟨⟨trivial, trivial, rfl, rfl⟩, rfl⟩, by simp, by simp, trivial, trivial⟩,
        by simp [Expression.variables]⟩
  obtain ⟨last, executed⟩ : ∃ last, first.executeAll (keepsSuccessor.map (·.statement)) = some last :=
    ⟨_, rfl⟩
  refine ⟨first, last, typed, executed, ?_, ?_⟩
  · exact (executeAll_iff_connects .sep simple typed last).1.1 ⟨last, executed, fun _ _ => rfl⟩
  · refine (executeAll_iff_connects .sep contradictory typed last).2 fun states stepped => ?_
    obtain rfl : [] = states := Except.ok.inj stepped
    rfl

end EventCheck
