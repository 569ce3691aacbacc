import EventCheck.Proofs.Layers
import EventCheck.Proofs.Search

/-!
The states of the standard stack that searches come across. Their formulas are over versions that
have been written, the data of a state follows from its block, and the violations that a state
reports are those of its threads.
-/

namespace EventCheck

open SingleAssignment Verification

variable {σ : Type} {data : LabeledAnalysis σ} {meaning : Meaning data}
variable {ok : Expression → Prop} {target : Variable → Prop} {source : Expression → Prop}

/-! ### Along a step -/

/-- The data of the state follows from its block. -/
def SsaState.Entails (meaning : Meaning data) (s : SsaState σ) : Prop :=
  ∀ assigned : Environment, assigned.Typed → s.block.Holds assigned.lookup →
    meaning.admits s.inner assigned

namespace SsaState

variable {s t u : SsaState σ} {assigned : Environment} {statements : List Statement}

theorem Entails.admits (entails : s.Entails meaning) (typed : assigned.Typed)
    (holds : s.block.Holds assigned.lookup) : s.Admits meaning assigned :=
  ⟨entails assigned typed holds, holds⟩

theorem below_of_leads (leads : Control.Leads data.withVersions statements s t) :
    s.versions.Below t.versions := by
  induction leads with
  | nil => exact fun _ => Nat.le_refl _
  | cons stepped member _ ih =>
    obtain ⟨_, _, versions, _⟩ := mem_step stepped member
    rw [versions] at ih
    exact fun v => Nat.le_trans (below_versionsAfter _ _ v) (ih v)

theorem fits_of_leads (rule : AtomRule ok)
    (allowed : ∀ statement ∈ statements, Allowed ok statement) (fits : s.Fits meaning ok)
    (leads : Control.Leads data.withVersions statements s t) : t.Fits meaning ok := by
  induction leads with
  | nil => exact fits
  | cons stepped member _ ih =>
    refine ih (fun statement later => allowed statement (by simp [later])) ?_
    exact step_fits rule (allowed _ (by simp)) stepped fits _ member

theorem Entails.step (entails : s.Entails meaning) {operation : LabeledOperation}
    {next : List (SsaState σ)} (stepped : data.withVersions.step s operation = .ok next)
    (member : t ∈ next) : t.Entails meaning := by
  intro assigned typed holds
  obtain ⟨g, formed, _, block⟩ := mem_step stepped member
  obtain ⟨before, constraint⟩ := Formula.holds_conjunction.1 (block ▸ holds)
  exact ((step_admits formed stepped (entails.admits typed before) constraint).2 _ member).1

theorem entails_of_leads (entails : s.Entails meaning)
    (leads : Control.Leads data.withVersions statements s t) : t.Entails meaning := by
  induction leads with
  | nil => exact entails
  | cons stepped member _ ih => exact ih (entails.step stepped member)

theorem Entails.join (left : s.Entails meaning) (right : t.Entails meaning)
    (fits : t.Fits meaning ok) (joined : combine data data.join s t = .ok u) :
    u.Entails meaning := by
  intro assigned typed holds
  refine (combine_admits meaning joined meaning.join_admits ?_).1
  rcases combine_block joined fits right typed holds with ⟨block, aligned⟩ | ⟨block, aligned⟩
  · exact Or.inl ⟨left.admits typed block, aligned⟩
  · exact Or.inr ⟨right.admits typed block, aligned⟩

theorem block_of_leads (leads : Control.Leads data.withVersions statements s t)
    (holds : t.block.Holds assigned.lookup) : s.block.Holds assigned.lookup := by
  induction leads with
  | nil => exact holds
  | cons stepped member _ ih =>
    obtain ⟨g, _, _, block⟩ := mem_step stepped member
    exact (Formula.holds_conjunction.1 (block ▸ ih holds)).1

/-- Under an assignment that satisfies the block after them, statements execute from the environment
that it stands for before to the one that it stands for after. -/
theorem executeAll_of_leads (plain : ∀ statement ∈ statements, statement.Plain)
    (typed : assigned.Typed) (leads : Control.Leads data.withVersions statements s t)
    (holds : t.block.Holds assigned.lookup) :
    (s.versions.read assigned).executeAll statements = some (t.versions.read assigned) := by
  induction leads with
  | nil => rfl
  | cons stepped member later ih =>
    have executed := ih (fun statement later => plain statement (by simp [later])) holds
    obtain ⟨g, formed, versions, same⟩ := mem_step stepped member
    obtain ⟨_, constraint⟩ := Formula.holds_conjunction.1 (same ▸ block_of_leads later holds)
    refine Environment.executeAll_cons.2 ⟨_, ?_, versions ▸ executed⟩
    exact execute_of_holds (plain _ (by simp)) typed formed constraint

end SsaState

/-! ### The standard stack -/

namespace Verification

/-- The threads of a state. -/
def State.threads (s : State σ) : List Thread := s.inner.inner.threads

/-- What a state knows of the data. -/
def State.ssa (s : State σ) : SsaState σ := s.inner.inner.inner.inner

/-- What a standard stack is for and what it is made of. -/
structure Setting (σ : Type) where
  task : Task
  policy : WaitPolicy
  domain : PredicateDomain
  points : AbstractionPoints
  data : LabeledAnalysis σ

variable [DecidableEq σ]

/-- The standard stack without its counts. -/
def Setting.analysis (setting : Setting σ) : Analysis (State σ) :=
  ((setting.data.withVersions.withLabels.scheduled setting.task
    setting.policy).withProvenance).withAbstraction setting.domain setting.points

theorem stack_eq_ok {config : Config} {solver : Solver} {task : Task} {a : Analysis (State σ)}
    (given : stack config solver task data = .ok a) : ∃ abstraction,
      a = Setting.analysis ⟨task, config.control.waitPolicy, ⟨solver, abstraction⟩,
        config.abstraction.abstractionPoints, data⟩ := by
  unfold stack at given
  obtain ⟨control, scheduled, given⟩ := bind_eq_ok_iff.1 given
  obtain ⟨abstraction, _, built⟩ := bind_eq_ok_iff.1 given
  unfold LabeledAnalysis.withControl at scheduled
  split at scheduled
  · cases scheduled
  · obtain rfl := Except.ok.inj scheduled
    exact ⟨abstraction, (pure_eq_ok_iff.1 built).symm⟩

/-- The states that searches come across: those of the start, successors, widened states, merges
and states with more predicates. -/
inductive Setting.Occurs (setting : Setting σ) : State σ → Prop
  | initial {before after : Context} {states : List (State σ)} {s : State σ}
    (given : setting.analysis.initial.Yields before states after) (member : s ∈ states) :
    Occurs setting s
  | successor {before after : Context} {states : List (State σ)} {s t : State σ}
    (state : Occurs setting s) (given : (setting.analysis.successors s).Yields before states after)
    (member : t ∈ states) : Occurs setting t
  | widened {before after : Context} {reached : List (State σ)} {s t : State σ}
    (state : Occurs setting s)
    (given : (setting.analysis.widen s reached).Yields before t after) : Occurs setting t
  | merged {before after : Context} {s t u : State σ} (left : Occurs setting s)
    (right : Occurs setting t) (wanted : setting.analysis.shouldMerge s t = .ok true)
    (given : (setting.analysis.merge s t).Yields before u after) : Occurs setting u
  | refined {s t : State σ} {f : Formula} {found : Precision} (violation : Occurs setting s)
    (formed : setting.analysis.formula s = .ok f)
    (predicates : ∀ e ∈ found, e ∈ Refiner.predicatesOf f) (state : Occurs setting t) :
    Occurs setting (t.withPrecision (s.precision ∪ found))

variable {setting : Setting σ} {s t u : State σ} {before after : Context}
variable {states : List (State σ)}

/-! ### Operations -/

/-- A search starts with the states of the data analysis under the threads at their start, each
under a number of its own. -/
theorem numbered_initial (given : setting.analysis.initial.Yields before states after) :
    ∃ threads middle inner,
      setting.task.startThreads (setting.task.newThreads before.threads) = .ok threads ∧
      ProvenanceState.Numbered ∅ middle
        (setting.data.withVersions.withLabels.initial.map fun inner =>
          { threads, inner, targets := Control.targetsOf threads }) inner ∧
      after.states = middle + inner.length ∧
      states = inner.map fun inner => { inner, blockId := Control.partitionKey inner.inner } := by
  obtain ⟨inner, _, first, built⟩ := Run.yields_bind.1 given
  obtain ⟨rfl, rfl⟩ := Run.yields_pure.1 built
  obtain ⟨controls, middle, begun, numbered, count⟩ := yields_initial_withProvenance first
  obtain ⟨threads, started, rfl⟩ := Control.yields_initial begun
  exact ⟨threads, middle.states, inner, started, numbered, numbered.length ▸ count, rfl⟩

theorem yields_initial (given : setting.analysis.initial.Yields before states after)
    (member : s ∈ states) : ∃ i ∈ setting.data.initial,
      setting.task.startThreads (setting.task.newThreads before.threads) = .ok s.threads ∧
      s.inner.inner.targets = Control.targetsOf s.threads ∧ s.ssa = { inner := i } ∧
      s.summary = .top ∧ s.path = .top ∧ s.precision = ∅ := by
  obtain ⟨threads, _, inner, started, numbered, _, rfl⟩ := numbered_initial given
  obtain ⟨p, inside, rfl⟩ := List.mem_map.1 member
  obtain ⟨label, labels, same⟩ := List.mem_map.1 (numbered.exists_of_mem inside).1
  obtain ⟨ssa, versions, rfl⟩ := List.mem_map.1 labels
  obtain ⟨i, listed, rfl⟩ := List.mem_map.1 versions
  refine ⟨i, listed, ?_⟩
  unfold State.threads State.ssa
  rw [← same]
  exact ⟨started, rfl, rfl, rfl, rfl, rfl⟩

theorem exists_initial (meaning : Meaning setting.data)
    (given : setting.analysis.initial.Yields before states after) : ∃ s, s ∈ states := by
  obtain ⟨threads, _, inner, _, numbered, _, rfl⟩ := numbered_initial given
  obtain ⟨i, same, _⟩ := meaning.initial
  have listed : ({ inner := { inner := i } } : LabelState (SsaState σ)) ∈
      setting.data.withVersions.withLabels.initial := by
    refine List.mem_map.2 ⟨_, List.mem_map.2 ⟨i, ?_, rfl⟩, rfl⟩
    rw [same]
    exact List.mem_singleton_self i
  obtain ⟨p, member, _⟩ := numbered.exists_of_inner (List.mem_map.2 ⟨_, listed, rfl⟩)
  exact ⟨_, List.mem_map.2 ⟨p, member, rfl⟩⟩

/-- A state that its summary does not exclude has the successors that the scheduler gives it, each
under a number of its own. -/
theorem yields_successors (given : (setting.analysis.successors s).Yields before states after) :
    (s.summary.isFalse = true ∧ states = [] ∧ before = after) ∨
      s.summary.isFalse = false ∧ ∃ controls middle inner,
        (Control.successors setting.task setting.policy setting.data.withVersions.withLabels
          s.inner.inner).Yields before controls middle ∧
        ProvenanceState.Numbered (.singleton s.inner.provenance.id) middle.states controls inner ∧
        after.states = middle.states + controls.length ∧
        states = inner.map fun inner => { s with inner } := by
  refine (Abstraction.yields_successors given).imp id fun ⟨possible, inner, followed, built⟩ => ?_
  obtain ⟨controls, middle, succeeded, numbered, count⟩ :=
    yields_successors_withProvenance followed
  exact ⟨possible, controls, middle, inner, succeeded, numbered, count, built⟩

theorem succeeds_of_mem (given : (setting.analysis.successors s).Yields before states after)
    (member : t ∈ states) : t = { s with inner := t.inner } ∧ ∃ index thread step,
      Control.Succeeds setting.task setting.policy setting.data.withVersions.withLabels
        s.inner.inner t.inner.inner index thread step := by
  rcases yields_successors given with ⟨_, rfl, _⟩ | ⟨_, controls, middle, inner, succeeded,
    numbered, _, rfl⟩
  · simp at member
  · obtain ⟨p, inside, rfl⟩ := List.mem_map.1 member
    exact ⟨rfl, Control.exists_succeeds succeeded (numbered.exists_of_mem inside).1⟩

theorem formula_eq_ok {f : Formula} : setting.analysis.formula s = .ok f ↔
    ∃ g, setting.data.withVersions.formula s.ssa = .ok g ∧
      (s.path.conjunction s.summary).conjunction g = f := by
  refine bind_eq_ok_iff.trans (exists_congr fun g => and_congr_right fun _ => ?_)
  exact pure_eq_ok_iff

/-- Widening leaves a state alone, or ends its block. -/
theorem yields_widen {reached : List (State σ)}
    (given : (setting.analysis.widen s reached).Yields before t after) :
    (setting.points = .loopHeads ∧ t = s) ∨ ∃ block summary,
      setting.data.withVersions.formula s.ssa = .ok block ∧
      setting.domain.widen (s.summary.conjunction block)
        (.ofList (s.precision.toList.map (renameReads s.ssa.versions))) = .ok summary ∧
      t.summary = summary ∧ t.path = s.path.conjunction block ∧ t.precision = s.precision ∧
      t.threads = s.threads ∧ t.inner.inner.targets = s.inner.inner.targets ∧
      t.inner.provenance = s.inner.provenance ∧
      t.ssa = setting.data.withVersions.resetPath s.ssa := by
  have summarized := (Run.yields_ofExcept.1 given).1
  rcases Abstraction.summarize_eq_ok summarized with ⟨away, rfl⟩ | ⟨_, block, summary, inner, formed,
    widened, reset, rfl⟩
  · refine Or.inl ⟨?_, rfl⟩
    unfold Abstraction.isPoint at away
    split at away
    · cases away
    · assumption
  · obtain ⟨control, reset, built⟩ := bind_eq_ok_iff.1 reset
    obtain rfl := Except.ok.inj reset
    obtain rfl := pure_eq_ok_iff.1 built
    exact Or.inr ⟨block, summary, formed, widened, rfl, rfl, rfl, rfl, rfl, rfl, rfl⟩

theorem shouldMerge_eq_true (wanted : setting.analysis.shouldMerge s t = .ok true) :
    s.precision = t.precision ∧ s.summary = t.summary ∧ s.threads = t.threads ∧
      setting.data.shouldMerge s.ssa.inner t.ssa.inner = true := by
  obtain ⟨_, precision, summary, inner⟩ := Abstraction.shouldMerge_eq_true wanted
  have both := Except.ok.inj inner
  rw [Bool.and_eq_true, decide_eq_true_eq] at both
  exact ⟨precision, summary, both.1, both.2⟩

/-- A merge combines what is known of the data, under the threads of both states. It is the second
state, or has the paths of both. -/
theorem yields_merge (wanted : setting.analysis.shouldMerge s t = .ok true)
    (given : (setting.analysis.merge s t).Yields before u after) :
    u.threads = t.threads ∧
      u.inner.inner.targets = s.inner.inner.targets ∪ t.inner.inner.targets ∧
      combine setting.data setting.data.merge s.ssa t.ssa = .ok u.ssa ∧
      u.summary = t.summary.disjunction t.summary ∧ u.precision = t.precision ∧
      (u = t ∨ u.path = s.path.disjunction t.path) := by
  obtain ⟨_, summary, threads, _⟩ := shouldMerge_eq_true wanted
  obtain ⟨inner, summaries, form⟩ := Abstraction.yields_merge given
  obtain ⟨_, merged, _⟩ := yields_merge_withProvenance inner
  obtain ⟨same, targets, labels⟩ := Control.merge_eq_ok (Run.yields_ofExcept.1 merged).1 threads
  obtain ⟨ssa, combined, built⟩ := bind_eq_ok_iff.1 labels
  have inside : ssa = u.ssa := congrArg LabelState.inner (pure_eq_ok_iff.1 built)
  refine ⟨same, targets, inside ▸ combined, summary ▸ summaries, ?_, ?_⟩
  · rcases form with same | same <;> rw [same]
  · exact form.imp id fun same => by rw [same]

/-- A merge has the predecessors of the second state. -/
theorem predecessors_merge (given : (setting.analysis.merge s t).Yields before u after)
    {id : Nat} (member : id ∈ t.inner.provenance.predecessors) :
    id ∈ u.inner.provenance.predecessors := by
  obtain ⟨inner, _, _⟩ := Abstraction.yields_merge given
  obtain ⟨_, _, ⟨same, _⟩ | ⟨_, _, both⟩⟩ := yields_merge_withProvenance inner
  · exact same ▸ member
  · rw [both]
    exact SortedSet.mem_union.2 (Or.inr member)

omit [DecidableEq σ] in
/-- A search can start over from the states without predecessors. -/
theorem initialStates_eq {a : Analysis (State σ)}
    (provenances : ∀ s, a.provenance s = some s.inner.provenance) :
    Refiner.initialStates a states =
      .ok (states.filter (·.inner.provenance.predecessors.isEmpty)) := by
  induction states with
  | nil => rfl
  | cons s rest ih =>
    simp only [Refiner.initialStates, provenances, ih, List.filter_cons]
    rfl

/-- A search starts over with the reached states that have no predecessors, to which it adds
predicates of the violation. -/
theorem refinePrecision_eq_ok {sets next : SearchSets setting.analysis.partitionKey}
    (given : Refiner.refinePrecision setting.analysis sets s = .ok (true, next)) :
    ∃ f found initial, setting.analysis.formula s = .ok f ∧
      (∀ e ∈ found, e ∈ Refiner.predicatesOf f) ∧ initial ≠ [] ∧
      (∀ t ∈ initial, t ∈ sets.reached.toList ∧ t.inner.provenance.predecessors = ∅) ∧
      next = (initial.map (·.withPrecision (s.precision ∪ found))).foldl SearchSets.insert {} := by
  obtain ⟨f, initial, formed, listed, some, _, same⟩ := Refiner.exists_of_refinePrecision given
  refine ⟨f, (Refiner.predicatesOf f).filter (!s.precision.contains ·), initial, formed,
    fun e member => (SortedSet.mem_filter.1 member).1, some, fun t member => ?_, same⟩
  obtain rfl := Except.ok.inj (listed.symm.trans (initialStates_eq fun _ => rfl))
  obtain ⟨inside, empty⟩ := List.mem_filter.1 member
  exact ⟨inside, SortedSet.isEmpty_iff.1 empty⟩

/-! ### Verification -/

/-- How the standard stack is refined. -/
def Setting.refiner (setting : Setting σ) : Refiner setting.analysis.partitionKey :=
  Refiner.abstraction setting.analysis setting.domain.solver

/-- The search through the states of the stack comes to the outcome. -/
def Setting.Finds (setting : Setting σ) (limits : SearchLimits) (expansions : Nat)
    (outcome : SearchOutcome) (after : Context) : Prop :=
  (setting.analysis.withStatistics.reachability setting.refiner setting.task limits
    expansions).Yields {} (some outcome) after

/-- What a configuration makes of a task. -/
def settingOf (task : Task) (config : Config) (solver : Solver) (abstraction : AbstractionType)
    (data : LabeledAnalysis σ) : Setting σ where
  task
  policy := config.control.waitPolicy
  domain := { solver, abstraction }
  points := config.abstraction.abstractionPoints
  data

theorem finds_of_run {task : Task} {config : Config} {solver : Solver} {expansions : Nat}
    {data : LabeledAnalysis σ} {outcome : SearchOutcome}
    (given : (run config solver task expansions data).Yields {} (some outcome) after) :
    ∃ abstraction, (settingOf task config solver abstraction data).Finds config.reachability
      expansions outcome after := by
  unfold run at given
  obtain ⟨a, _, stacked, given⟩ := Run.yields_bind.1 given
  obtain ⟨built, rfl⟩ := Run.yields_ofExcept.1 stacked
  obtain ⟨abstraction, rfl⟩ := stack_eq_ok built
  exact ⟨abstraction, given⟩

/-- A verdict is what a search comes to, unless the run came to something that is not modelled. -/
theorem verify_eq_ok {task : Task} {config : Config} {runSolver : String → Option String}
    {expansions : Nat} {result : AnalysisResult}
    (given : verify task config runSolver expansions = .ok (some result)) :
    (∃ reason, result.verdict = .inconclusive reason) ∨ ∃ operator abstraction outcome after,
      MergeOperator.ofName config.data.mergeOperator = .ok operator ∧
      result.verdict = outcome.verdict ∧
      ((settingOf task config (config.solver.solver runSolver) abstraction
          (symbolicMemory operator)).Finds config.reachability expansions outcome after ∨
        (settingOf task config (config.solver.solver runSolver) abstraction
          (knownValues operator)).Finds config.reachability expansions outcome after) := by
  unfold verify at given
  dsimp only at given
  split at given
  · rename_i found after ran
    obtain ⟨outcome, rfl, built⟩ := Option.map_eq_some_iff.1 (Except.ok.inj given)
    have configured : (runConfigured config (config.solver.solver runSolver) task
      expansions).Yields {} (some outcome) after := ran
    unfold runConfigured at configured
    obtain ⟨operator, _, named, configured⟩ := Run.yields_bind.1 configured
    obtain ⟨listed, rfl⟩ := Run.yields_ofExcept.1 named
    refine Or.inr ?_
    split at configured
    · obtain ⟨abstraction, finds⟩ := finds_of_run configured
      exact ⟨operator, abstraction, outcome, after, listed, built ▸ rfl, Or.inl finds⟩
    · obtain ⟨abstraction, finds⟩ := finds_of_run configured
      exact ⟨operator, abstraction, outcome, after, listed, built ▸ rfl, Or.inr finds⟩
  · rename_i error after _
    split at given
    · obtain rfl := Option.some.inj (Except.ok.inj given)
      exact Or.inl ⟨_, rfl⟩
    · cases given

/-- The outcome of the search, expansion by expansion. -/
def Setting.trace (setting : Setting σ) (limits : SearchLimits) (expansions : Nat) :
    Option (SearchOutcome × Context) :=
  match setting.analysis.withStatistics.initial.outcome {} with
  | (.ok states, context) =>
    setting.analysis.withStatistics.trace setting.refiner setting.task limits expansions
      { states.foldl SearchSets.insert {} with } context
  | _ => none

theorem finds_of_trace {limits : SearchLimits} {expansions : Nat} {outcome : SearchOutcome}
    (traced : setting.trace limits expansions = some (outcome, after)) :
    setting.Finds limits expansions outcome after := by
  unfold Setting.trace at traced
  split at traced
  · rename_i states middle began
    exact Run.yields_bind.2 ⟨states, middle, began, Analysis.yields_of_trace traced⟩
  · cases traced

/-- What the search of the standard stack finds is what a verification by default reports. -/
theorem verify_of_finds {task : Task} {expansions : Nat} {outcome : SearchOutcome}
    (finds : (settingOf task {} (.enumeration 8) .boolean (symbolicMemory .sep)).Finds {} expansions
      outcome after) :
    verify task {} (fun _ => none) expansions = .ok (some (resultOf outcome after)) := by
  have ran : (runConfigured {} (({} : Config).solver.solver fun _ => none) task
      expansions).run.run {} = (.ok (some outcome), after) := finds
  unfold verify
  simp only [ran, Option.map_some]

/-! ### What they are made of -/

/-- A property of atoms that the states of a search keep, and what the task has to be made of for
that. -/
structure Setting.Obeys (setting : Setting σ) (ok : Expression → Prop)
    (target : Variable → Prop) (source : Expression → Prop) : Prop where
  rule : AtomRule ok
  /-- Versions do not matter. -/
  rename : ∀ f : Variable → Variable, (∀ v, (f v).base = v.base) → ∀ e, ok e → ok (e.rename f)
  allowed : ∀ statement : Statement, statement.Uses target source → Allowed ok statement
  uses : setting.task.Uses target source
  equates : (∃ m n, setting.data.shouldMerge m n = true) → Equates ok

/-- Formulas have the property and are over versions that have been written; data follows from the
block, and violations are those of the threads. -/
structure State.Formed (meaning : Meaning data) (ok : Expression → Prop)
    (target : Variable → Prop) (s : State σ) : Prop where
  path : s.path.Fits (Bounded ok s.ssa.versions)
  summary : s.summary.Fits (Bounded ok s.ssa.versions)
  precision : ∀ e ∈ s.precision, ok e
  ssa : s.ssa.Fits meaning ok
  entails : s.ssa.Entails meaning
  targets : s.inner.inner.targets = Control.targetsOf s.threads
  returns : AllReturn target s.threads

variable {meaning : Meaning setting.data}

/-- For a state that occurs, the formula holds where path, summary and block do. -/
theorem State.Formed.formula_iff (formed : s.Formed meaning ok target) {assigned : Environment}
    (typed : assigned.Typed) :
    (∃ f, setting.analysis.formula s = .ok f ∧ f.Holds assigned.lookup) ↔
      s.path.Holds assigned.lookup ∧ s.summary.Holds assigned.lookup ∧
        s.ssa.block.Holds assigned.lookup := by
  have admits : (∃ g, setting.data.withVersions.formula s.ssa = .ok g ∧ g.Holds assigned.lookup) ↔
      s.ssa.block.Holds assigned.lookup :=
    (SsaState.admits_iff meaning typed).symm.trans
      ⟨fun both => both.2, formed.entails.admits typed⟩
  rw [← admits]
  constructor
  · rintro ⟨f, given, holds⟩
    obtain ⟨g, inner, rfl⟩ := formula_eq_ok.1 given
    obtain ⟨outer, last⟩ := Formula.holds_conjunction.1 holds
    obtain ⟨path, summary⟩ := Formula.holds_conjunction.1 outer
    exact ⟨path, summary, g, inner, last⟩
  · rintro ⟨path, summary, g, inner, last⟩
    exact ⟨_, formula_eq_ok.2 ⟨g, inner, rfl⟩, Formula.holds_conjunction.2
      ⟨Formula.holds_conjunction.2 ⟨path, summary⟩, last⟩⟩

theorem State.Formed.formula_fits (formed : s.Formed meaning ok target) {f : Formula}
    (given : setting.analysis.formula s = .ok f) : f.Fits (Bounded ok s.ssa.versions) := by
  obtain ⟨g, inner, rfl⟩ := formula_eq_ok.1 given
  exact (formed.path.conjunction formed.summary).conjunction (formed.ssa.formula inner)

theorem formed_initial (given : setting.analysis.initial.Yields before states after)
    (member : s ∈ states) : s.Formed meaning ok target := by
  obtain ⟨i, listed, started, targets, ssa, summary, path, precision⟩ := yields_initial given member
  obtain ⟨only, same, admits, fits⟩ := meaning.initial
  obtain rfl := List.mem_singleton.1 (same ▸ listed)
  constructor
  · rw [path]
    exact Formula.allAtoms_top
  · rw [summary]
    exact Formula.allAtoms_top
  · simp [precision]
  · rw [ssa]
    exact ⟨Formula.allAtoms_top, fits _⟩
  · rw [ssa]
    exact fun assigned _ _ => admits assigned
  · exact targets
  · exact Task.allReturn_startThreads started

theorem formed_successor (obeys : setting.Obeys ok target source)
    (formed : s.Formed meaning ok target)
    (given : (setting.analysis.successors s).Yields before states after) (member : t ∈ states) :
    t.Formed meaning ok target := by
  obtain ⟨same, index, thread, step, succeeds⟩ := succeeds_of_mem given member
  obtain ⟨steps, leaving, offered⟩ := succeeds.offered
  have returns := formed.returns thread (List.mem_of_getElem? succeeds.found)
  have follows := Task.follows_of_leavingSteps obeys.uses returns leaving offered
  have leads : Control.Leads setting.data.withVersions (step.operations.map (·.2)) s.ssa t.ssa :=
    succeeds.leads.unlabeled
  have below := SsaState.below_of_leads leads
  have allowed : ∀ statement ∈ step.operations.map (·.2), Allowed ok statement := by
    intro statement inside
    obtain ⟨operation, listed, rfl⟩ := List.mem_map.1 inside
    exact obeys.allowed _ (follows.operations operation listed)
  constructor
  · rw [same]
    exact formed.path.imp (Bounded.mono below)
  · rw [same]
    exact formed.summary.imp (Bounded.mono below)
  · rw [same]
    exact formed.precision
  · exact SsaState.fits_of_leads obeys.rule allowed formed.ssa leads
  · exact SsaState.entails_of_leads formed.entails leads
  · exact succeeds.targets
  · exact Task.allReturn_applyStep follows succeeds.applied formed.returns

omit [DecidableEq σ] in
theorem fits_widen (obeys : setting.Obeys ok target source) {versions : VersionMap}
    {precision : Precision} {f g : Formula} (predicates : ∀ e ∈ precision, ok e)
    (widened : setting.domain.widen f
      (.ofList (precision.toList.map (renameReads versions))) = .ok g) :
    g.Fits (Bounded ok versions) := by
  have rule := Bounded.rule obeys.rule versions
  refine PredicateDomain.allAtoms_widen rule.operand rule.negation widened fun e member => ?_
  obtain ⟨predicate, inside, rfl⟩ := List.mem_map.1 (SortedSet.mem_ofList.1 member)
  exact ⟨obeys.rename versions.current (fun _ => rfl) _ (predicates predicate inside),
    over_renameReads versions predicate⟩

theorem formed_widen (obeys : setting.Obeys ok target source)
    (formed : s.Formed meaning ok target) {reached : List (State σ)}
    (given : (setting.analysis.widen s reached).Yields before t after) :
    t.Formed meaning ok target := by
  rcases yields_widen given with ⟨_, rfl⟩ | ⟨block, summary, block_, widened, summaries, path,
    precision, threads, targets, _, ssa⟩
  · exact formed
  · have versions : t.ssa.versions = s.ssa.versions := by rw [ssa]; rfl
    constructor
    · rw [path, versions]
      exact formed.path.conjunction (formed.ssa.formula block_)
    · rw [summaries, versions]
      exact fits_widen obeys formed.precision widened
    · rw [precision]
      exact formed.precision
    · rw [ssa]
      exact ⟨Formula.allAtoms_top, meaning.reset_fits _ _⟩
    · rw [ssa]
      exact fun assigned _ _ => meaning.reset_admits _ assigned
    · rw [targets, threads]
      exact formed.targets
    · rw [threads]
      exact formed.returns

theorem formed_merge (obeys : setting.Obeys ok target source)
    (left : s.Formed meaning ok target) (right : t.Formed meaning ok target)
    (wanted : setting.analysis.shouldMerge s t = .ok true)
    (given : (setting.analysis.merge s t).Yields before u after) :
    u.Formed meaning ok target := by
  obtain ⟨_, _, same, data⟩ := shouldMerge_eq_true wanted
  obtain ⟨threads, targets, combined, summary, precision, form⟩ := yields_merge wanted given
  have joined := combined
  rw [meaning.merge_eq data] at joined
  have versions := (combine_eq_ok combined).1
  have belowLeft : s.ssa.versions.Below u.ssa.versions :=
    versions ▸ VersionMap.below_join_left _ _
  have belowRight : t.ssa.versions.Below u.ssa.versions :=
    versions ▸ VersionMap.below_join_right _ _
  have summaries := right.summary.imp (Bounded.mono belowRight)
  constructor
  · rcases form with rfl | path
    · exact right.path
    · rw [path]
      exact (left.path.imp (Bounded.mono belowLeft)).disjunction
        (right.path.imp (Bounded.mono belowRight))
  · rw [summary]
    exact summaries.disjunction summaries
  · rw [precision]
    exact right.precision
  · exact combine_fits joined obeys.rule (obeys.equates ⟨_, _, data⟩) meaning.join_fits left.ssa
      right.ssa
  · exact left.entails.join right.entails right.ssa joined
  · rw [targets, left.targets, right.targets, same, threads]
    exact SortedSet.ext_mem fun p => by simp
  · rw [threads]
    exact right.returns

theorem formed_withPrecision (obeys : setting.Obeys ok target source)
    (violation : s.Formed meaning ok target) (formed : t.Formed meaning ok target) {f : Formula}
    (given : setting.analysis.formula s = .ok f) {found : Precision}
    (predicates : ∀ e ∈ found, e ∈ Refiner.predicatesOf f) :
    State.Formed meaning ok target (t.withPrecision (s.precision ∪ found)) where
  path := formed.path
  summary := formed.summary
  precision e member := by
    rcases SortedSet.mem_union.1 member with member | member
    · exact violation.precision e member
    · obtain ⟨atom, inside, rfl⟩ :=
        List.mem_map.1 (SortedSet.mem_ofList.1 (predicates e member))
      obtain ⟨c, listed, l, occurs, rfl⟩ := Formula.mem_atoms.1 (List.mem_filter.1 inside).1
      exact obeys.rename Variable.base (fun _ => rfl) _
        (violation.formula_fits given c listed l occurs).1.1
  ssa := formed.ssa
  entails := formed.entails
  targets := formed.targets
  returns := formed.returns

/-- All states that searches come across are formed as they should. -/
theorem formed_of_occurs (meaning : Meaning setting.data) (obeys : setting.Obeys ok target source)
    (occurs : setting.Occurs s) : s.Formed meaning ok target := by
  induction occurs with
  | initial given member => exact formed_initial given member
  | successor _ given member formed => exact formed_successor obeys formed given member
  | widened _ given formed => exact formed_widen obeys formed given
  | merged _ _ wanted given left right => exact formed_merge obeys left right wanted given
  | refined _ given predicates _ violation formed =>
    exact formed_withPrecision obeys violation formed given predicates

/-! ### Plain tasks -/

/-- The expression has a value everywhere, and its variables are versions of certain ones. -/
def TotalOver (among : Variable → Prop) (e : Expression) : Prop :=
  e.Total ∧ e.Over fun v => among v.base

theorem TotalOver.equation {among : Variable → Prop} {v : Variable} {e : Expression}
    (member : among v.base) (total : TotalOver among e) (type : e.dataType = v.dataType) :
    TotalOver among (.binary .eq (.var v) e) := by
  refine ⟨⟨⟨trivial, total.1.wellTyped, rfl, type⟩, nofun, nofun, trivial, total.1.divisionFree⟩,
    fun w occurs => ?_⟩
  rcases SortedSet.mem_union.1 occurs with occurs | occurs
  · rw [SortedSet.mem_singleton.1 occurs]
    exact member
  · exact total.2 w occurs

theorem TotalOver.rename {among : Variable → Prop} {f : Variable → Variable}
    (bases : ∀ v, (f v).base = v.base) {e : Expression} (total : TotalOver among e) :
    TotalOver among (e.rename f) := by
  refine ⟨total.1.rename fun v => Variable.dataType_of_base (bases v), fun v occurs => ?_⟩
  obtain ⟨w, inside, rfl⟩ := Expression.exists_of_mem_rename occurs
  rw [bases]
  exact total.2 w inside

/-- Constraints of plain statements over certain variables are over their versions. -/
theorem allowed_totalOver {among : Variable → Prop} {statement : Statement}
    (uses : statement.Uses (fun v => v.version = none ∧ among v)
      fun e => e.Plain ∧ ∀ v ∈ e.variables, among v) :
    Allowed (TotalOver among) statement := by
  intro versions declared c given
  have reads : ∀ {e : Expression}, e.Plain ∧ (∀ v ∈ e.variables, among v) →
      TotalOver among (renameReads versions e) := by
    intro e plain
    refine TotalOver.rename (f := versions.current) (fun _ => rfl)
      ⟨plain.1.total, fun v occurs => ?_⟩
    have base := Variable.base_of_unversioned (plain.1.unversioned v occurs)
    exact base.symm ▸ plain.2 v occurs
  have writes : ∀ {v : Variable} {e : Expression}, (v.version = none ∧ among v) →
      TotalOver among e → some <$> Expression.binaryChecked .eq
        (.var ((versions.bump v).current v)) e = .ok (some c) → TotalOver among c := by
    intro v e target total given
    obtain ⟨d, checked, same⟩ := map_eq_ok_iff.1 given
    obtain rfl := Option.some.inj same
    obtain ⟨rfl, _, type⟩ := Expression.binaryChecked_eq_ok_iff.1 checked
    refine TotalOver.equation ?_ total type
    rw [VersionMap.base_current, Variable.base_of_unversioned target.1]
    exact target.2
  cases statement with
  | declare v =>
    have total : TotalOver among (.const v.dataType.default) :=
      ⟨⟨trivial, trivial⟩, by simp [Expression.Over, Expression.variables]⟩
    exact writes uses total given
  | assign v e => exact writes uses.1 (reads uses.2) given
  | assume condition =>
    obtain rfl := Option.some.inj (Except.ok.inj given)
    exact reads uses
  | call _ _ _ | «return» _ | broadcast _ | broadcastAndWait _ | waitUntil _ | waitSecs _
  | signalFailure _ | nop => cases Except.ok.inj given

omit [DecidableEq σ] in
/-- A plain task over certain variables makes formulas over their versions. Merges may bring in
others. -/
theorem Setting.obeys_totalOver {among : Variable → Prop} (plain : setting.task.PlainOver among)
    (merges : (∃ m n, setting.data.shouldMerge m n = true) → ∀ v, among v) :
    setting.Obeys (TotalOver among) (fun v => v.version = none ∧ among v)
      (fun e => e.Plain ∧ ∀ v ∈ e.variables, among v) where
  rule := AtomRule.total.and (AtomRule.over _)
  rename _ bases _ total := total.rename bases
  allowed _ uses := allowed_totalOver uses
  uses := plain
  equates wanted v m n := by
    refine TotalOver.equation (merges wanted _) ⟨⟨trivial, trivial⟩, fun w occurs => ?_⟩ rfl
    exact merges wanted _

end Verification

end EventCheck
