import EventCheck.Proofs.ThreadSteps

/-!
What threads keep. Whatever happens to a thread, it stays the thread of its script and forgets no
violation that it has reported; and once it has failed nothing happens to it any more. So what a
state reports as violated is reported by all states that come later.
-/

namespace EventCheck

variable {task : Task} {policy : WaitPolicy} {threads next : List Thread} {t u w : Thread}
variable {index place : Nat} {step : Step} {effect : Statement}

namespace Thread

/-- The second thread is what the first one has become: it runs the same script of the same actor
from the same entry, has reported at least the same violations, and is the same if it failed. -/
structure Persists (t u : Thread) : Prop where
  id : u.id = t.id
  actor : u.actor = t.actor
  script : u.script = t.script
  entry : u.entry = t.entry
  isObserver : u.isObserver = t.isObserver
  reported : t.failedFor ⊆ u.failedFor
  failed : t.status = .failure → u = t

theorem Persists.refl (t : Thread) : t.Persists t :=
  ⟨rfl, rfl, rfl, rfl, rfl, fun _ member => member, fun _ => rfl⟩

theorem Persists.trans (first : t.Persists u) (second : u.Persists w) : t.Persists w where
  id := second.id.trans first.id
  actor := second.actor.trans first.actor
  script := second.script.trans first.script
  entry := second.entry.trans first.entry
  isObserver := second.isObserver.trans first.isObserver
  reported property member := second.reported property (first.reported property member)
  failed failure := by
    obtain rfl := first.failed failure
    exact second.failed failure

theorem forall₂_persists_trans {last : List Thread} (first : List.Forall₂ Persists threads next)
    (second : List.Forall₂ Persists next last) : List.Forall₂ Persists threads last :=
  forall₂_comp (fun _ _ _ one two => one.trans two) first second

theorem Alike.persists (alike : t.Alike u) (failed : t.status = .failure → u = t) :
    t.Persists u := by
  obtain ⟨_, _, rfl⟩ := alike
  exact ⟨rfl, rfl, rfl, rfl, rfl, fun _ member => member, failed⟩

theorem persists_restart (alive : t.status ≠ .failure) : t.Persists t.restart :=
  ⟨rfl, rfl, rfl, rfl, rfl, fun _ member => member, fun failed => absurd failed alive⟩

end Thread

namespace Task

theorem Triggers.alive {sender : Nat} {message : String}
    (triggers : task.Triggers sender message (t, place)) : t.status ≠ .failure := by
  obtain ⟨_, script, _, eligible⟩ := triggers
  unfold isEligible at eligible
  rw [Bool.and_eq_true, Bool.and_eq_true] at eligible
  simpa using eligible.1.2

theorem Receives.persists (receives : task.Receives index place t u) : t.Persists u := by
  rcases receives with rfl | ⟨⟨text, triggers⟩, rfl⟩
  · exact .refl u
  · exact Thread.persists_restart triggers.alive

theorem Observes.persists {stepper : Thread} (observes : task.Observes stepper t u) :
    t.Persists u := by
  rcases observes.cases with rfl | ⟨_, _, done, rfl⟩
  · exact .refl u
  · exact Thread.persists_restart (by rw [done]; nofun)

theorem Proceeds.persists (proceeds : task.Proceeds t u) : t.Persists u := by
  refine proceeds.alike.persists fun failed => proceeds.eq_of_ne ?_ ?_
  · rw [failed]
    nofun
  · rw [failed]
    nofun

theorem persists_own {status : Status} (alive : t.status ≠ .failure)
    (suffers : Suffers task threads index effect (move step t) w)
    (proceeds : task.Proceeds { w with status } u) : t.Persists u := by
  obtain ⟨location, moving, calls, scopes, _, moved⟩ := move_cases step t
  rw [moved] at suffers
  have affected : t.Persists { w with status } := by
    -- whoever steps has not failed, so that nothing is claimed for the case that it has
    cases suffers with
    | nothing =>
      exact ⟨rfl, rfl, rfl, rfl, rfl, fun _ member => member, fun failed => absurd failed alive⟩
    | fails _ =>
      exact ⟨rfl, rfl, rfl, rfl, rfl, fun _ member => SortedSet.mem_union.2 (Or.inl member),
        fun failed => absurd failed alive⟩
    | waits _ _ _ =>
      exact ⟨rfl, rfl, rfl, rfl, rfl, fun _ member => member, fun failed => absurd failed alive⟩
  exact affected.trans proceeds.persists

/-- Every thread persists through a step of one that is active. -/
theorem persists_applyStep (given : task.applyStep policy threads index step = .ok next)
    (before : threads[index]? = some t) (active : t.status.isActive = true) :
    List.Forall₂ Thread.Persists threads next := by
  refine forall₂_applyStep given before ?_ ?_
  · intro w status u suffers _ proceeds
    refine persists_own (fun failed => ?_) suffers proceeds
    rw [failed] at active
    cases active
  · intro place s w v u _ receives observes proceeds
    exact (receives.persists.trans observes.persists).trans proceeds.persists

/-- Whoever signals violations has failed with them after the step. -/
theorem failure_of_signals {properties : SortedSet Property}
    (given : task.applyStep policy threads index step = .ok next)
    (before : threads[index]? = some t) (signals : step.effect = .signalFailure properties) :
    ∃ u, next[index]? = some u ∧ u.status = .failure ∧ properties ⊆ u.failedFor := by
  obtain ⟨prepared, first, second⟩ := applyStep_eq_ok given before
  obtain ⟨effected, w, status, effect, found, after, observers⟩ :=
    prepare_eq_ok first (List.getElem?_eq_some_iff.1 before).1
  obtain rfl : w = (move step t).fail properties := by
    rw [signals] at effect
    obtain rfl := Except.ok.inj effect
    rw [List.getElem?_modify_eq, List.getElem?_modify_eq, before] at found
    exact (Option.some.inj found).symm
  obtain rfl := Except.ok.inj after
  have own := List.getElem?_set_self (a := (move step t).fail properties)
    (List.getElem?_eq_some_iff.1 found).1
  -- neither is it an observer that is done, nor does it settle
  obtain ⟨v, last, observes⟩ := exists_right_of_getElem? observers own
  obtain rfl : v = (move step t).fail properties := by
    rcases observes.cases with same | ⟨_, _, done, _⟩
    · exact same
    · cases done
  obtain ⟨u, here, proceeds⟩ := exists_right_of_getElem? (proceeds_of_proceed second) last
  obtain rfl := proceeds.eq_of_ne nofun nofun
  exact ⟨_, here, rfl, fun property member => SortedSet.mem_union.2 (Or.inr member)⟩

end Task

/-! ### Reachable states -/

namespace Control

variable {σ : Type} {a : LabeledAnalysis σ} {s : ControlState σ}

theorem mem_targetsOf {property : Property} :
    property ∈ targetsOf threads ↔ ∃ t ∈ threads, property ∈ t.failedFor := SortedSet.mem_unionMap

theorem targetsOf_subset (persist : List.Forall₂ Thread.Persists threads next) :
    targetsOf threads ⊆ targetsOf next := by
  intro property member
  obtain ⟨t, inside, reported⟩ := mem_targetsOf.1 member
  obtain ⟨u, after, persists⟩ := exists_right_of_mem persist inside
  exact mem_targetsOf.2 ⟨u, after, persists.reported property reported⟩

theorem targets_reachable (reachable : (a.scheduled task policy).Reachable s) :
    s.targets = targetsOf s.threads := by
  cases reachable with
  | initial given member =>
    obtain ⟨threads, _, rfl⟩ := yields_initial given
    obtain ⟨inner, _, rfl⟩ := List.mem_map.1 member
    rfl
  | step _ given member =>
    obtain ⟨_, _, _, succeeds⟩ := exists_succeeds given member
    exact succeeds.targets

theorem persists_later {t : ControlState σ} (later : (a.scheduled task policy).Later s t) :
    List.Forall₂ Thread.Persists s.threads t.threads := by
  induction later with
  | refl => exact List.forall₂_same.2 fun t _ => .refl t
  | tail _ last ih =>
    obtain ⟨index, thread, step, succeeds⟩ := exists_succeeds_of_successor last
    exact Thread.forall₂_persists_trans ih
      (Task.persists_applyStep succeeds.applied succeeds.found succeeds.hasTurn.cases.1)

theorem join_eq_ok {t u : ControlState σ} (same : t.threads = s.threads)
    (given : join a s t = .ok u ∨ merge a s t = .ok u) :
    u.threads = s.threads ∧ u.targets = s.targets ∪ t.targets := by
  rcases given with given | given
  · unfold join at given
    rw [if_neg (not_not.2 same.symm)] at given
    obtain ⟨inner, _, built⟩ := bind_eq_ok_iff.1 given
    obtain rfl := pure_eq_ok_iff.1 built
    exact ⟨same, rfl⟩
  · unfold merge at given
    rw [if_neg (not_not.2 same.symm)] at given
    obtain ⟨inner, _, built⟩ := bind_eq_ok_iff.1 given
    obtain rfl := pure_eq_ok_iff.1 built
    exact ⟨same, rfl⟩

end Control

/-- A state reports the violations that its threads have reported, and they are kept: whoever
signals violations fails and they are reported, no thread that has failed steps, later states have
the same threads and report the same violations and maybe more, and joining with a state of equal
threads or merging with it changes nothing. -/
structure Control.KeepsViolations {σ : Type} (a : LabeledAnalysis σ) (task : Task)
    (policy : WaitPolicy) (s : ControlState σ) : Prop where
  targets : ∀ property, property ∈ s.targets ↔ ∃ t ∈ s.threads, property ∈ t.failedFor
  signalled : ∀ next index t step properties, Control.Succeeds task policy a s next index t step →
    step.effect = .signalFailure properties → properties ⊆ next.targets ∧
      ∃ u, next.threads[index]? = some u ∧ u.status = .failure
  stepping : ∀ index t, task.chooseStepping s.threads = .ok (some index) →
    s.threads[index]? = some t → t.status ≠ .failure
  later : ∀ t, (a.scheduled task policy).Later s t →
    List.Forall₂ Thread.Persists s.threads t.threads ∧ s.targets ⊆ t.targets
  joined : ∀ t before u after, (a.scheduled task policy).Reachable t → t.threads = s.threads →
    ((a.scheduled task policy).join s t).Yields before u after ∨
      ((a.scheduled task policy).merge s t).Yields before u after →
    u.threads = s.threads ∧ u.targets = s.targets

/-- A violation that has been signalled is never lost. -/
theorem keepsViolations_of_reachable {σ : Type} {a : LabeledAnalysis σ} {task : Task}
    {options : ControlOptions} {analysis : Analysis (ControlState σ)} {s : ControlState σ}
    (wrapped : a.withControl task options = .ok analysis) (reachable : analysis.Reachable s) :
    Control.KeepsViolations a task options.waitPolicy s := by
  obtain rfl := LabeledAnalysis.withControl_eq_ok wrapped
  have targets := Control.targets_reachable reachable
  constructor
  · intro property
    rw [targets]
    exact Control.mem_targetsOf
  · intro next index t step properties succeeds signals
    obtain ⟨u, found, failed, reported⟩ :=
      Task.failure_of_signals succeeds.applied succeeds.found signals
    refine ⟨fun property member => ?_, u, found, failed⟩
    rw [succeeds.targets]
    exact Control.mem_targetsOf.2 ⟨u, List.mem_of_getElem? found, reported property member⟩
  · intro index t chosen found failed
    have active := (Task.HasTurn.mk chosen found).cases.1
    rw [failed] at active
    cases active
  · intro t later
    have persist := Control.persists_later later
    refine ⟨persist, ?_⟩
    rw [targets, Control.targets_reachable (reachable.later later)]
    exact Control.targetsOf_subset persist
  · intro t before u after other same given
    have combined := Control.join_eq_ok same
      (given.imp (fun joined => (Run.yields_ofExcept.1 joined).1)
        fun merged => (Run.yields_ofExcept.1 merged).1)
    refine ⟨combined.1, combined.2.trans (SortedSet.ext_mem fun property => ?_)⟩
    rw [SortedSet.mem_union, Control.targets_reachable other, same, ← targets, or_self]

/-- One script reports a violation while the other one has two more steps to go. -/
def failsBesideAnother : Except Error Task := do
  let fails ← ControlFlow.ofTransitions [0] [(0, 1, 1)]
  let goes ← ControlFlow.ofTransitions [2] [(2, 2, 3), (3, 2, 4)]
  let actor ← Actor.addScript { name := "A" } { id := 0, event := .bootstrap, flow := fails }
  let actor ← actor.addScript { id := 1, event := .bootstrap, flow := goes }
  Task.create "t" [actor] [⟨1, .signalFailure (.singleton ⟨"P"⟩)⟩, ⟨2, .nop⟩]

theorem comesTo_failsBesideAnother :
    Control.comesTo failsBesideAnother 1 (fun _ s => !s.targets.isEmpty) = true := by decide +kernel

/-- After the violation has been reported it is kept. -/
theorem exists_keepsViolations : ∃ (task : Task) (analysis : Analysis (ControlState Formula))
    (s : ControlState Formula), (symbolicMemory .sep).withControl task {} = .ok analysis ∧
      analysis.Reachable s ∧ s.targets ≠ ∅ ∧
      Control.KeepsViolations (symbolicMemory .sep) task .approximate s := by
  obtain ⟨task, s, _, reachable, reports⟩ := Control.exists_of_comesTo comesTo_failsBesideAnother
  refine ⟨task, _, s, rfl, reachable, fun nothing => ?_, keepsViolations_of_reachable
    (show (symbolicMemory .sep).withControl task {} = .ok _ from rfl) reachable⟩
  rw [nothing] at reports
  cases reports

end EventCheck
