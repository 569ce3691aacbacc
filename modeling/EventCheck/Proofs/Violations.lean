import EventCheck.Proofs.Enumeration
import EventCheck.Proofs.Witness

/-!
Violations that a search without merges finds. The model of the formula of the violating state is
read along the trail to it: each state becomes a configuration, and together they are a run of the
program that goes through the steps of the witness.
-/

namespace EventCheck

open SingleAssignment

namespace Verification

variable {σ : Type} [DecidableEq σ] {setting : Setting σ} {meaning : Meaning setting.data}
variable {s t : State σ} {before after context : Context} {states rest : List (State σ)}
variable {ok : Expression → Prop} {among target : Variable → Prop} {assigned : Environment} {model : Model}

/-! ### Values along a trail -/

/-- The current version of a variable that a state lists has the listed value in the model. -/
theorem get?_of_modelValue? {v : Variable} {c : Constant}
    (value : ErrorWitness.modelValue? setting.analysis s model v = some c) :
    model.get? (s.ssa.versions.current v) = some c := by
  unfold ErrorWitness.modelValue? at value
  rw [show setting.analysis.instantiate s (.var v) = .var (s.ssa.versions.current v) from rfl]
    at value
  dsimp only at value
  split at value
  · cases value
  · exact value

/-- The values that are listed at a state are those of the configuration that the model makes of
it. -/
theorem value_of_valuesAt (formed : s.Formed meaning (TotalOver among) target)
    (typed : model.extension.Typed) (recalls : s.Recalls model.extension)
    (within : ∀ v c, model.get? v = some c → among v.base) {v : Variable} {c : Constant}
    (listed : (ErrorWitness.valuesAt setting.analysis s model).get? v = some c) :
    among v.base ∧ (s.configuration model.extension).env v.base = c := by
  have read : ∀ w : Variable, (s.configuration model.extension).env w.base =
      model.extension (s.ssa.versions.current w) := fun w =>
    (s.ssa.versions.reads_read model.extension w.base rfl).trans
      (congrArg model.extension (VersionMap.current_congr rfl))
  rw [read]
  rcases ErrorWitness.get?_valuesAt listed with known | ⟨_, modelled⟩
  · have known : (values setting.data s.ssa).get? v = some c := known
    obtain ⟨⟨w, d⟩, member, same⟩ := List.mem_map.1 (SortedMap.mem_of_get?_ofList known)
    obtain ⟨rfl, rfl⟩ := Prod.mk.inj same
    obtain ⟨inside, current⟩ := List.mem_filter.1 member
    have current : w = s.ssa.versions.current w.base :=
      Variable.eq_of_base rfl (by simpa using current)
    have admits := (formed.entails.admits typed recalls.2).1
    have member : among w.base := meaning.values_over (p := fun v => among v.base)
      (meaning.fits_imp (fun _ bounded => bounded.1.2) formed.ssa.inner) typed admits inside
    refine ⟨member, ?_⟩
    show model.extension (s.ssa.versions.current w.base) = d
    rw [← current]
    exact meaning.values_admits admits inside
  · have value := get?_of_modelValue? modelled
    have inside := within _ _ value
    rw [VersionMap.base_current] at inside
    exact ⟨inside, Model.extension_of_get? value⟩

omit [DecidableEq σ] in
/-- The inputs in the model are the values that a search starts with. -/
theorem value_of_input (begins : setting.Begins s) {v : Variable} {c : Constant}
    (value : model.get? v = some c) (zero : v.version = some 0) :
    (s.configuration model.extension).env v.base = c := by
  have current : s.ssa.versions.current v = v := by
    refine Variable.eq_of_base rfl ?_
    rw [begins.versions, zero]
    rfl
  refine (s.ssa.versions.reads_read model.extension v.base rfl).trans ?_
  rw [VersionMap.current_congr (Variable.base_base v), current]
  exact Model.extension_of_get? value

omit [DecidableEq σ] in
/-- A formula that the enumerating solver finds feasible holds in the model that it gives. -/
theorem holds_of_feasible {range : Nat} {f : Formula} (decided : f.Decided)
    (feasible : Feasibility.ofFormula (.enumeration range) f = .feasible model) :
    model.extension.Typed ∧ f.Holds model.extension.lookup ∧
      ∀ p : Variable → Prop, f.Within p → ∀ v d, model.get? v = some d → p v := by
  unfold Feasibility.ofFormula at feasible
  split at feasible
  · rename_i sat
    obtain ⟨found, modelled, holds⟩ := Solver.model_enumeration decided sat
    rw [modelled, Option.getD_some] at feasible
    obtain rfl := Feasibility.feasible.inj feasible
    exact holds
  · cases feasible
  · cases feasible

variable {sets : SearchSets setting.analysis.partitionKey}

theorem Tracks.statesById (tracks : Tracks setting context rest sets)
    (member : s ∈ sets.reached.toList)
    (found : (ErrorWitness.statesById setting.analysis sets.reached.toList).get? s.id = some t) :
    t = s := by
  obtain ⟨u, inside, same⟩ := List.mem_filterMap.1 (SortedMap.mem_of_get?_ofList found)
  obtain ⟨numbers, rfl⟩ := Prod.mk.inj (Option.some.inj same)
  exact tracks.distinct u inside s member numbers

/-- No data is ever merged. -/
def Setting.Separate (setting : Setting σ) : Prop :=
  ∀ m n, setting.data.shouldMerge m n = false

theorem formed_of_plainOver (meaning : Meaning setting.data) (separate : setting.Separate)
    (plain : setting.task.PlainOver among) (occurs : setting.Occurs s) :
    s.Formed meaning (TotalOver among) fun v => v.version = none ∧ among v := by
  refine formed_of_occurs meaning (setting.obeys_totalOver plain ?_) occurs
  rintro ⟨m, n, wanted⟩
  cases (separate m n).symm.trans wanted

/-- The witness for a feasible violation that has been reached shows a run of the program. -/
theorem exists_shows (meaning : Meaning setting.data) {range : Nat}
    (solver : setting.domain.solver = .enumeration range)
    (separate : setting.Separate) (plain : setting.task.PlainOver among) (apart : Apart among)
    (tracks : Tracks setting context rest sets) (member : s ∈ sets.reached.toList)
    {accessibility : Accessibility} {witness : ErrorWitness}
    (related : setting.analysis.accessibility sets.reached = .ok accessibility)
    (asked : setting.refiner.feasibility sets.reached accessibility s = .ok (.feasible model))
    (built : ErrorWitness.build setting.analysis setting.task sets.reached.toList accessibility s
      (setting.analysis.target s) model = .ok witness)
    (violated : (setting.analysis.target s).isEmpty = false) :
    ∃ run, witness.Shows setting.task setting.policy among (setting.analysis.target s) run := by
  have formed : ∀ t, setting.Occurs t →
      t.Formed meaning (TotalOver among) fun v => v.version = none ∧ among v :=
    fun _ => formed_of_plainOver meaning separate plain
  have violation := formed s (tracks.known s member).occurs
  obtain ⟨f, given, feasible⟩ := bind_eq_ok_iff.1 asked
  have feasible := pure_eq_ok_iff.1 feasible
  rw [solver] at feasible
  have fits := violation.formula_fits given
  obtain ⟨typed, holds, within⟩ := holds_of_feasible (fits.imp fun _ bounded => bounded.1.1) feasible
  have within := within (fun v => among v.base) (fits.imp fun _ bounded => bounded.1.2).within
  obtain ⟨past, _, block⟩ := (violation.formula_iff typed).1 ⟨f, given, holds⟩
  obtain ⟨path, found, steps, mocks⟩ := ErrorWitness.build_eq_ok
    (show setting.analysis.provenance s = some s.inner.provenance from rfl) built
  obtain ⟨trail, trailed, rfl, last, inside⟩ := tracks.exists_trail related member found
  obtain ⟨recalls, moves⟩ := moves_of_trail trailed.steps typed fun t final =>
    Option.some.inj (last.symm.trans final) ▸ ⟨past, block⟩
  refine ⟨trail.map (·.configuration model.extension), ?_, moves, ?_, ?_⟩
  · obtain ⟨first, head⟩ : ∃ first, trail.head? = some first := by
      cases trail with
      | nil => cases last
      | cons first _ => exact ⟨first, rfl⟩
    have begins := trailed.begins first head
    refine ⟨first.configuration model.extension, by rw [List.head?_map, head]; rfl,
      ⟨begins.threads, VersionMap.typed_read typed⟩, ?_⟩
    rw [mocks]
    exact ErrorWitness.agrees_of_inputs apart fun v c value zero =>
      ⟨within v c value, value_of_input begins value zero⟩
  · rw [List.forall₂_map_right_iff]
    have shown := (List.forall₂_and_left _ _).2
      ⟨fun t member => And.intro (inside t member) (recalls t member),
        List.forall₂_map_left_iff.1 steps⟩
    refine (shown.imp fun t step both => ?_).flip
    obtain ⟨⟨reached, past⟩, timestamp, u, state, rfl⟩ := both
    obtain rfl := tracks.statesById reached state
    intro actor listed
    obtain ⟨⟨name, values⟩, entry, rfl⟩ := List.mem_map.1 listed
    exact ErrorWitness.lists_of_byActor apart (fun v c value => value_of_valuesAt
      (formed u (tracks.known u reached).occurs) typed past within
      (SortedMap.get?_eq_some_iff.2 value)) entry
  · refine ⟨s.configuration model.extension, by rw [List.getLast?_map, last]; rfl, ?_⟩
    have targets : setting.analysis.target s =
      if s.summary.isFalse then ∅ else s.inner.inner.targets := rfl
    rw [targets] at violated ⊢
    split at violated
    · cases violated
    · rw [if_neg ‹_›, violation.targets]
      rfl

/-! ### Searches without merges -/

/-- What there is to say about the outcome: the witness for a violation shows a run to it. -/
def Convicts (setting : Setting σ) (among : Variable → Prop) (outcome : SearchOutcome) : Prop :=
  ∀ properties witness, outcome.verdict = .violated properties witness →
    ∃ run, witness.Shows setting.task setting.policy among properties run

theorem Setting.Separate.apart (separate : setting.Separate) (s t : State σ) :
    setting.analysis.shouldMerge s t ≠ .ok true := fun wanted => by
  cases (separate _ _).symm.trans (shouldMerge_eq_true wanted).2.2.2

theorem Setting.Separate.keeps (separate : setting.Separate)
    {next : SearchSets setting.analysis.partitionKey}
    (given : (setting.analysis.withStatistics.mergeInto s sets).Yields before next after) :
    next = sets ∧ after = before :=
  Analysis.mergeInto_of_apart (a := setting.analysis.withStatistics) (separate.apart _) given

theorem keepsStates_stop {reached : List (State σ)} {covered : Bool}
    (given : (setting.analysis.stop s reached).Yields before covered after) :
    after.states = before.states :=
  Abstraction.keepsStates_stop (fun _ _ => Run.keepsStates_ofExcept _) _ _ _ given

/-- A state to come that has been widened may be admitted. -/
theorem Tracks.widen (formed : ∀ t, setting.Occurs t → t.Formed meaning ok target)
    {reached : List (State σ)} (tracks : Tracks setting before (s :: rest) sets)
    (given : (setting.analysis.widen s reached).Yields before t after) :
    setting.Known after t ∧ t.id = s.id ∧ ∀ p, setting.Precedes p s → setting.Precedes p t := by
  have known := (tracks.later s (by simp)).1
  obtain ⟨_, rfl⟩ := Run.yields_ofExcept.1 given
  have widened := fun p => precedes_widen (p := p) (formed s known.occurs) given
  have provenance := (widened s).1
  refine ⟨⟨.widened known.occurs given, ?_, ?_⟩, congrArg Provenance.id provenance,
    fun p => (widened p).2⟩
  · rw [State.id, provenance]
    exact known.numbered
  · rw [State.id, provenance]
    exact known.alone

theorem tracks_of_consider (meaning : Meaning setting.data) {range : Nat}
    (solver : setting.domain.solver = .enumeration range) (separate : setting.Separate)
    (plain : setting.task.PlainOver among) (apart : Apart among) {limits : SearchLimits}
    {search : SearchState setting.analysis.partitionKey}
    {step : SearchStep setting.analysis.partitionKey}
    (tracks : Tracks setting before (s :: rest) search.toSearchSets)
    (given : (setting.analysis.withStatistics.consider setting.refiner setting.task limits search
      s).Yields before step after) :
    @Analysis.Continues _ setting.analysis.withStatistics
      (fun context search => Tracks setting context [] search.toSearchSets)
      (fun context search => Tracks setting context rest search.toSearchSets)
      (Convicts setting among) after step := by
  rcases Analysis.yields_consider given with ⟨reason, rfl⟩ | ⟨t, widened, sets, merged, covered,
    widen, merge, stop, form⟩
  · nofun
  · obtain ⟨first, widen, started⟩ := yields_widen_withStatistics widen
    obtain ⟨rfl, rfl⟩ := separate.keeps merge
    obtain ⟨_, _, stopped, begun, ended⟩ := yields_stop_withStatistics stop
    have tracks : Tracks setting first (s :: rest) search.toSearchSets :=
      tracks.mono (Nat.le_of_eq started.symm)
    obtain ⟨known, same, precedes⟩ :=
      tracks.widen (fun _ => formed_of_plainOver meaning separate plain) widen
    obtain ⟨_, rfl⟩ := Run.yields_ofExcept.1 widen
    have count : first.states ≤ after.states :=
      Nat.le_of_eq (begun.symm.trans ((keepsStates_stop stopped).symm.trans ended.symm))
    have known := known.mono count
    have tracks := tracks.mono count
    rcases form with ⟨_, rfl⟩ | ⟨_, _, rfl⟩ | ⟨_, violated, judged⟩
    · exact tracks.skip
    · obtain ⟨sound, reached, waiting⟩ := tracks.sound.insert (s := t)
      exact tracks.admit known same precedes sound reached fun u member => (waiting u).1 member
    · have admitted : Tracks setting after rest
          { search.toSearchSets with reached := search.reached.insert t } :=
        tracks.admit known same precedes
          ⟨Reached.keyed_insert tracks.sound.reached, tracks.sound.frontier⟩
          (fun _ => Reached.mem_insert tracks.sound.reached) fun _ member => Or.inr member
      have member : t ∈ (search.reached.insert t).toList :=
        (Reached.mem_insert tracks.sound.reached).2 (Or.inl rfl)
      rcases Analysis.judge_eq_ok judged with ⟨accessibility, model, witness, related, asked, built,
        rfl⟩ | ⟨_, _, rfl, _⟩ | ⟨next, _, _, refined, rfl⟩ | ⟨reason, _, rfl⟩
      · intro properties shown equal
        obtain ⟨rfl, rfl⟩ := Verdict.violated.inj equal
        exact exists_shows meaning solver separate plain apart admitted member related asked built
          violated
      · nofun
      · exact admitted.restart known.occurs refined
      · exact admitted

/-- A search without merges is right about the violations that it finds. -/
theorem convicts_of_search (meaning : Meaning setting.data) {range : Nat}
    (solver : setting.domain.solver = .enumeration range) (separate : setting.Separate)
    (plain : setting.task.PlainOver among) (apart : Apart among) {limits : SearchLimits}
    {search : SearchState setting.analysis.partitionKey} {expansions : Nat}
    {outcome : SearchOutcome} (tracks : Tracks setting before [] search.toSearchSets)
    (given : (setting.analysis.withStatistics.search setting.refiner setting.task limits expansions
      search).Yields before (some outcome) after) : Convicts setting among outcome := by
  refine @Analysis.search_induction _ _ setting.analysis.withStatistics setting.refiner
    setting.task limits search before after
    (fun context search => Tracks setting context [] search.toSearchSets)
    (fun _ _ context rest search => Tracks setting context rest search.toSearchSets)
    (Convicts setting among) expansions outcome ?_ ?_ ?_ ?_ given tracks
  · intro before search s frontier states after tracks popped given
    obtain ⟨middle, given, count⟩ := yields_successors_withStatistics given
    refine (tracks.pop plain.plain (fun t occurs => ?_) popped given).mono (Nat.le_of_eq count.symm)
    exact (formed_of_plainOver meaning separate plain occurs).returns.imp fun _ both => both.1
  · intro s states before search successor rest step after tracks given
    exact tracks_of_consider meaning solver separate plain apart tracks given
  · exact fun _ _ _ _ tracks => tracks
  · intro context search _ _ properties witness equal
    unfold SearchState.exhausted SearchState.finish at equal
    dsimp only at equal
    split at equal <;> cases equal

theorem convicts_of_finds (meaning : Meaning setting.data) {range : Nat}
    (solver : setting.domain.solver = .enumeration range) (separate : setting.Separate)
    (plain : setting.task.PlainOver among) (apart : Apart among) {limits : SearchLimits}
    {expansions : Nat} {outcome : SearchOutcome}
    (finds : setting.Finds limits expansions outcome after) : Convicts setting among outcome := by
  unfold Setting.Finds Analysis.reachability at finds
  obtain ⟨states, middle, began, given⟩ := Run.yields_bind.1 finds
  have began : setting.analysis.initial.Yields {} states middle := began
  obtain ⟨begins, ordered⟩ := begins_of_initial began
  have different : (states.map State.id).Nodup := List.pairwise_map.2 (ordered.imp Nat.ne_of_lt)
  refine convicts_of_search meaning solver separate plain apart (tracks_of_states begins ?_) given
  exact fun s first t second same => List.inj_on_of_nodup_map different first second same

end Verification

/-! ### Verdicts -/

open Verification

/-- Without merges every violation that is reported for a plain program, whose variables have
different names or actors, comes with a witness that shows a run of the program to it. -/
theorem exists_shows_of_violated {task : Task} {config : Config}
    {runSolver : String → Option String} {expansions : Nat} {result : AnalysisResult}
    {among : Variable → Prop} {properties : SortedSet Property} {witness : ErrorWitness}
    (plain : task.PlainOver among) (apart : Apart among)
    (separate : config.data.mergeOperator = "SEP") (kind : config.solver.kind = .enumeration)
    (given : verify task config runSolver expansions = .ok (some result))
    (violated : result.verdict = .violated properties witness) :
    ∃ run, witness.Shows task config.control.waitPolicy among properties run := by
  have solver : config.solver.solver runSolver =
      .enumeration config.solver.integerRange := by
    unfold SolverOptions.solver
    rw [kind]
  rcases verify_eq_ok given with ⟨reason, other⟩ | ⟨operator, abstraction, outcome,
    after, named, same, finds⟩
  · cases violated.symm.trans other
  · obtain rfl : MergeOperator.sep = operator := by
      rw [separate] at named
      exact Except.ok.inj named
    rcases finds with finds | finds
    · exact convicts_of_finds (.symbolicMemory .sep) solver (fun _ _ => rfl) plain apart finds
        properties witness (same ▸ violated)
    · exact convicts_of_finds (.knownValues .sep) solver (fun _ _ => rfl) plain apart finds
        properties witness (same ▸ violated)

/-! ### A violation for some input -/

/-- A program that copies its input and fails. -/
def copiesInput : Except Error Task := do
  let flow ← ControlFlow.ofTransitions [0] [(0, 1, 1), (1, 2, 2)]
  Task.create "t" [{ name := "A", scripts := [{ id := 0, event := .bootstrap, flow }] }]
    [⟨1, .assign ⟨"y", .int, none⟩ (.var ⟨"x", .int, none⟩)⟩,
      ⟨2, .signalFailure (.singleton ⟨"P"⟩)⟩]

/-- Whether the program is well formed and found to violate something, and the witness lists both
inputs and the values at a step. -/
def isWitnessed (program : Except Error Task) : Bool :=
  match program with
  | .ok task =>
    match (settingOf task {} (.enumeration 8) .boolean (symbolicMemory .sep)).trace {} 3 with
    | some (outcome, _) =>
      match outcome.verdict with
      | .violated _ witness =>
        !witness.mocks.isEmpty && witness.steps.any fun step => !step.actors.isEmpty
      | _ => false
    | none => false
  | _ => false

theorem isWitnessed_copiesInput : isWitnessed copiesInput = true := by decide +kernel

/-- The variables of the program. -/
def copied : List Variable := [⟨"x", .int, none⟩, ⟨"y", .int, none⟩]

theorem apart_copied : Apart (· ∈ copied) := by
  have names : (copied.map Variable.localName).Nodup := by decide +kernel
  exact fun v w first second _ same => List.inj_on_of_nodup_map names first second same

theorem plainOver_copiesInput {task : Task} (created : copiesInput = .ok task) :
    task.PlainOver (· ∈ copied) := by
  obtain ⟨flow, _, created⟩ := bind_eq_ok_iff.1 created
  refine Task.uses_of_create created ?_ ?_
  · intro operation member
    rcases List.mem_cons.1 member with rfl | member
    · refine ⟨⟨rfl, by simp [copied]⟩, ⟨⟨trivial, trivial⟩, ?_⟩, ?_⟩ <;>
        simp [Expression.variables, copied]
    · rw [List.mem_singleton.1 member]
      trivial
  · intro actor member name method found
    rw [List.mem_singleton.1 member] at found
    cases found

/-- The witness for its violation lists inputs and values, and shows a run. -/
theorem exists_shows_input : ∃ (task : Task) (result : AnalysisResult)
    (properties : SortedSet Property) (witness : ErrorWitness) (run : List Configuration),
    copiesInput = .ok task ∧ task.PlainOver (· ∈ copied) ∧ Apart (· ∈ copied) ∧
      verify task {} (fun _ => none) 3 = .ok (some result) ∧
      result.verdict = .violated properties witness ∧ witness.mocks ≠ [] ∧
      (∃ step ∈ witness.steps, step.actors ≠ []) ∧
      witness.Shows task .approximate (· ∈ copied) properties run := by
  have checked := isWitnessed_copiesInput
  unfold isWitnessed at checked
  split at checked
  · rename_i task created
    split at checked
    · rename_i outcome after traced
      split at checked
      · rename_i properties witness violated
        rw [Bool.and_eq_true, List.any_eq_true] at checked
        obtain ⟨inputs, step, member, listed⟩ := checked
        have plain := plainOver_copiesInput created
        have verified := verify_of_finds (finds_of_trace traced)
        obtain ⟨run, shows⟩ := exists_shows_of_violated plain apart_copied rfl rfl verified
          (show (resultOf outcome after).verdict = .violated properties witness from violated)
        exact ⟨task, _, properties, witness, run, created, plain, apart_copied, verified, violated,
          by simpa using inputs, ⟨step, member, by simpa using listed⟩, shows⟩
      · cases checked
    · cases checked
  · cases checked

end EventCheck
