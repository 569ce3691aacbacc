import EventCheck.Proofs.Persistence

/-!
Observers see everything. An observer of statements never waits for an event, so that it is done
or waits for other threads whenever the program moves. In the former case it is started over after
each statement of the program, and it steps before the program goes on.
-/

namespace EventCheck

variable {task : Task} {policy : WaitPolicy} {threads next : List Thread} {t u w : Thread}
variable {index place : Nat} {step : Step} {effect : Statement}

/-! ### Threads that do not wait for events -/

/-- The thread does not wait for an event, though maybe for other threads. -/
structure Thread.Alert (t : Thread) : Prop where
  known : t.status ≠ .unknown
  waits : t.status = .wait → t.waitingFor ≠ ∅

theorem Thread.alert_of_active (active : t.status.isActive = true) : t.Alert := by
  constructor
  · intro unknown
    rw [unknown] at active
    cases active
  · intro waits
    rw [waits] at active
    cases active

namespace Task

theorem stable_alert : task.Stable Thread.Alert where
  restart t := Thread.alert_of_active rfl
  shifts t u shifts _ := by
    cases shifts with
    | finish _ _ => exact ⟨nofun, nofun⟩
    | remain waits _ some => exact ⟨by rw [waits]; nofun, fun _ => some⟩
    | release _ _ => exact ⟨nofun, nofun⟩
  starts t := Thread.alert_of_active (isActive_of_isRunning isRunning_startThread)

/-- Who has stepped waits for none but the threads that it has started. -/
theorem alert_own {status : Status} (active : t.status.isActive = true)
    (suffers : Suffers task threads index effect (move step t) w)
    (after : task.statusAfter step w = .ok status) : Thread.Alert { w with status } := by
  rcases statusAfter_cases after with ⟨_, rfl⟩ | ⟨waits, rfl⟩ | ⟨_, _, rfl | ⟨goes, _⟩⟩
  · exact ⟨nofun, nofun⟩
  · refine ⟨nofun, fun _ => ?_⟩
    cases suffers with
    | nothing =>
      have moves : (move step t).status.isActive = true := isActive_move active
      rw [waits] at moves
      cases moves
    | fails _ => cases waits
    | waits _ anyone _ => exact anyone
  · exact ⟨nofun, nofun⟩
  · exact Thread.alert_of_active goes

/-! ### Observers of statements -/

/-- The thread is an observer's and its script is to run after each statement of the program. -/
def WatchesStatements (task : Task) (t : Thread) : Prop :=
  ∃ actor script, task.actor t.actor = .ok actor ∧ actor.isObserver = true ∧
    actor.script t.script = .ok script ∧ script.event = .afterStatement

theorem WatchesStatements.exists_script (watches : task.WatchesStatements t) :
    ∃ script, task.scriptOf t = .ok script ∧ script.event = .afterStatement := by
  obtain ⟨actor, script, owner, _, listed, event⟩ := watches
  exact ⟨script, by rw [scriptOf, owner]; exact listed, event⟩

/-- The flag of a thread says whether its actor is an observer. -/
def Flagged (task : Task) (t : Thread) : Prop :=
  ∃ actor, task.actor t.actor = .ok actor ∧ t.isObserver = actor.isObserver

theorem Flagged.watches (flagged : task.Flagged t) (watches : task.WatchesStatements t) :
    t.isObserver = true := by
  obtain ⟨actor, owner, same⟩ := flagged
  obtain ⟨other, _, known, observer, _⟩ := watches
  obtain rfl := Except.ok.inj (owner.symm.trans known)
  exact same.trans observer

theorem flagged_of_persists (persists : t.Persists u) (flagged : task.Flagged t) :
    task.Flagged u := by
  unfold Flagged
  rw [persists.actor, persists.isObserver]
  exact flagged

theorem watches_of_persists (persists : t.Persists u) (watches : task.WatchesStatements u) :
    task.WatchesStatements t := by
  unfold WatchesStatements at watches
  rw [persists.actor, persists.script] at watches
  exact watches

/-- An observer of statements does not wait for an event. -/
structure Attends (task : Task) (t : Thread) : Prop where
  flagged : task.Flagged t
  alert : task.WatchesStatements t → t.Alert

theorem attends_newThreads (accepted : task.Accepted) {first : Nat}
    (member : t ∈ task.newThreads first) : task.Attends t := by
  obtain ⟨actor, known, script, inside, id, entry, _, rfl⟩ := exists_of_mem_newThreads member
  have owner := accepted.actor_name known
  refine ⟨⟨actor, owner, rfl⟩, ?_⟩
  rintro ⟨other, piece, found, observer, listed, event⟩
  obtain rfl := Except.ok.inj (owner.symm.trans found)
  obtain rfl := Except.ok.inj (((accepted.built known).script_id inside).symm.trans listed)
  have ready : initialStatus actor script = .yield := by simp [initialStatus, event, observer]
  exact Thread.alert_of_active (by rw [ready]; rfl)

theorem Attends.of_persists (attends : task.Attends t) (persists : t.Persists u)
    (alert : t.Alert → u.Alert) : task.Attends u :=
  ⟨flagged_of_persists persists attends.flagged,
    fun watches => alert (attends.alert (watches_of_persists persists watches))⟩

/-- In all states that the scheduler comes to, no observer of statements waits for an event. -/
theorem attends_reachable {σ : Type} {a : LabeledAnalysis σ} {s : ControlState σ}
    (accepted : task.Accepted) (reachable : (a.scheduled task policy).Reachable s) :
    ∀ t ∈ s.threads, task.Attends t := by
  refine Control.threads_induction (motive := fun threads => ∀ t ∈ threads, task.Attends t)
    (fun first threads started u member => ?_)
    (fun threads index t step next turn applied all u member => ?_) reachable
  · obtain ⟨t, inside, proceeds⟩ := exists_left_of_mem (proceeds_of_proceed started) member
    exact (attends_newThreads accepted inside).of_persists proceeds.persists
      (stable_alert.proceeds proceeds)
  · obtain ⟨active, _⟩ := turn.cases
    have alert : List.Forall₂ (fun t u => t.Alert → u.Alert) threads next :=
      stable_alert.applyStep applied turn.found fun _ _ suffers after _ =>
        alert_own active suffers after
    have keeps : List.Forall₂ (fun t u => task.Attends t → task.Attends u) threads next :=
      List.Forall₂.mp (fun t u persists alert attends => attends.of_persists persists alert)
        (persists_applyStep applied turn.found active) alert
    obtain ⟨before, inside, kept⟩ := exists_left_of_mem keeps member
    exact kept (all before inside)

/-! ### A step of the program -/

/-- If no observer can step, an observer of statements that has not failed and waits for no other
threads is done. -/
theorem Attends.done (attends : task.Attends t) (watches : task.WatchesStatements t)
    (orderly : task.Orderly threads) (none : task.chooseObserver threads = .ok none)
    (member : t ∈ threads) (alive : t.status ≠ .failure) (free : t.waitingFor = ∅) :
    t.status = .done := by
  have observes := attends.flagged.watches watches
  have alert := attends.alert watches
  -- whoever is active can move, and then it would step before the program
  have idle : t.status.isActive ≠ true := by
    intro active
    have leaves := orderly.hasLeaving member active
    rw [chooseObserver_eq_none none t member observes active] at leaves
    cases leaves
  cases status : t.status with
  | done => rfl
  | failure => exact absurd status alive
  | unknown => exact absurd status alert.known
  | wait => exact absurd free (alert.waits status)
  | running | runningAtomic | yield =>
    rw [status] at idle
    exact absurd rfl idle

/-- Messages do not start observers of statements over. -/
theorem WatchesStatements.eq_of_receives (watches : task.WatchesStatements t)
    (receives : task.Receives index place t u) : u = t := by
  rcases receives with same | ⟨⟨text, _, script, listed, eligible⟩, _⟩
  · exact same
  · obtain ⟨other, found, event⟩ := watches.exists_script
    obtain rfl := Except.ok.inj (listed.symm.trans found)
    simp [isEligible, Script.isTriggeredBy, event] at eligible

/-- The second thread is the first one started over: it stands at its entry outside of all
methods, and is ready if it can go on from there and otherwise done. -/
def StartedOver (task : Task) (t u : Thread) : Prop :=
  ∃ script leaves, task.scriptOf t = .ok script ∧ script.flow.hasExits t.entry = .ok leaves ∧
    u = { t.restart with status := if leaves then .yield else .done }

theorem exists_hasExits {leaves : Bool} (known : task.hasLeaving t.restart = .ok leaves) :
    ∃ script, task.scriptOf t = .ok script ∧ script.flow.hasExits t.entry = .ok leaves := by
  obtain ⟨flow, found, exits⟩ := bind_eq_ok_iff.1 known
  obtain ⟨actor, owner, found⟩ := bind_eq_ok_iff.1 found
  obtain ⟨script, listed, built⟩ := bind_eq_ok_iff.1 found
  obtain rfl := pure_eq_ok_iff.1 built
  exact ⟨script, bind_eq_ok_iff.2 ⟨actor, owner, listed⟩, exits⟩

/-- A step of the program starts an observer of statements over that is done. -/
theorem WatchesStatements.startedOver (watches : task.WatchesStatements t)
    (observes : t.isObserver = true) (done : t.status = .done)
    (given : task.applyStep policy threads index step = .ok next) {stepper : Thread}
    (stepping : threads[index]? = some stepper) (program : stepper.isObserver = false)
    (orderly : task.Orderly next) (before : threads[place]? = some t)
    (after : next[place]? = some u) : task.StartedOver t u := by
  have away : place ≠ index := by
    rintro rfl
    obtain rfl := Option.some.inj (before.symm.trans stepping)
    cases observes.symm.trans program
  obtain ⟨w, v, last, receives, restarts, proceeds, found⟩ :=
    applyStep_other given stepping away before
  obtain rfl := Option.some.inj (after.symm.trans found)
  obtain rfl := watches.eq_of_receives receives
  -- the observer is started over at first
  obtain rfl : v = w.restart := by
    obtain ⟨script, listed, event⟩ := watches.exists_script
    rw [Observes, if_neg (by rw [program]; nofun), restartObserver,
      if_pos (by simp [observes, done]), listed] at restarts
    have chosen := Except.ok.inj restarts
    rw [if_pos event] at chosen
    exact chosen.symm
  -- then it settles, and it is not one of the threads that take turns
  obtain ⟨v, settles, rfl | ⟨ready, _⟩⟩ := proceeds
  · rcases settles.of_ready rfl with rfl | ⟨stuck, rfl⟩
    · have leaves := orderly.hasLeaving (List.mem_of_getElem? after) rfl
      obtain ⟨script, listed, exits⟩ := exists_hasExits leaves
      exact ⟨script, true, listed, exits, rfl⟩
    · obtain ⟨script, listed, exits⟩ := exists_hasExits stuck
      exact ⟨script, false, listed, exits, rfl⟩
  · have observer : v.isObserver = true := by
      obtain ⟨_, _, rfl⟩ := settles.alike
      exact observes
    rw [Thread.isReady, observer] at ready
    cases ready

end Task

/-! ### Reachable states -/

/-- While an observer is active only observers step. Once none can, each step is one of the
program, and starts every observer of statements over that has not failed and waits for no other
threads. -/
structure Control.ObservesStatements {σ : Type} (analysis : Analysis (ControlState σ))
    (task : Task) (s : ControlState σ) : Prop where
  flagged : ∀ t ∈ s.threads, task.Flagged t
  observers : (∃ t ∈ s.threads, t.isObserver = true ∧ t.status.isActive = true) →
    ∃ index stepper, task.chooseStepping s.threads = .ok (some index) ∧
      s.threads[index]? = some stepper ∧ stepper.isObserver = true
  program : task.chooseObserver s.threads = .ok none →
    ∀ index stepper, task.chooseStepping s.threads = .ok (some index) →
      s.threads[index]? = some stepper → stepper.runsProgram = true
  restarted : task.chooseObserver s.threads = .ok none → ∀ next, analysis.Successor s next →
    List.Forall₂ (fun t u => task.WatchesStatements t → t.status ≠ .failure → t.waitingFor = ∅ →
      task.StartedOver t u) s.threads next.threads

theorem Task.Orderly.chooseObserver (accepted : task.Accepted) (orderly : task.Orderly threads)
    (member : t ∈ threads) (observes : t.isObserver = true) (active : t.status.isActive = true) :
    ∃ index, task.chooseObserver threads = .ok (some index) := by
  obtain ⟨choice, chosen⟩ := orderly.exists_chooseStepping accepted
  obtain ⟨observer, first, _⟩ := bind_eq_ok_iff.1 chosen
  cases observer with
  | some index => exact ⟨index, first⟩
  | none =>
    have stuck := chooseObserver_eq_none first t member observes active
    rw [orderly.hasLeaving member active] at stuck
    cases stuck

/-- No statement of the program goes unobserved. -/
theorem observesStatements_of_reachable {σ : Type} {a : LabeledAnalysis σ}
    {options : ControlOptions} {analysis : Analysis (ControlState σ)} {s : ControlState σ}
    (accepted : task.Accepted) (wrapped : a.withControl task options = .ok analysis)
    (reachable : analysis.Reachable s) : Control.ObservesStatements analysis task s := by
  obtain rfl := LabeledAnalysis.withControl_eq_ok wrapped
  have orderly := Control.orderly_reachable accepted reachable
  have attends := Task.attends_reachable accepted reachable
  have program : task.chooseObserver s.threads = .ok none →
      ∀ index stepper, task.chooseStepping s.threads = .ok (some index) →
        s.threads[index]? = some stepper → stepper.runsProgram = true := by
    intro none index stepper chosen found
    rw [Task.chooseStepping, none] at chosen
    obtain ⟨other, same, runs⟩ := Task.chooseThread_eq_some chosen
    obtain rfl := Option.some.inj (same.symm.trans found)
    exact runs
  refine ⟨fun t member => (attends t member).flagged, ?_, program, ?_⟩
  · rintro ⟨t, member, observes, active⟩
    obtain ⟨index, first⟩ := orderly.chooseObserver accepted member observes active
    obtain ⟨stepper, found, observer, _⟩ := Task.chooseObserver_eq_some first
    exact ⟨index, stepper, by rw [Task.chooseStepping, first]; rfl, found, observer⟩
  · intro none next successor
    obtain ⟨index, stepper, step, succeeds⟩ := Control.exists_succeeds_of_successor successor
    have runs := program none index stepper succeeds.chosen succeeds.found
    have length := Task.length_applyStep succeeds.applied succeeds.found
    refine List.forall₂_iff_get.2 ⟨length.symm, fun place here there watches alive free => ?_⟩
    have member := s.threads.get_mem ⟨place, here⟩
    have attending := attends _ member
    exact watches.startedOver (attending.flagged.watches watches)
      (attending.done watches orderly none member alive free) succeeds.applied succeeds.found
      (by simpa using (Bool.and_eq_true_iff.1 runs).1)
      (Control.orderly_reachable accepted (reachable.later (.single successor)))
      (List.getElem?_eq_getElem here) (List.getElem?_eq_getElem there)

/-- An observer has a step to take after each of the two statements of the program. -/
def watched : Except Error Task := do
  let goes ← ControlFlow.ofTransitions [10] [(10, 1, 11), (11, 1, 12)]
  let watches ← ControlFlow.ofTransitions [40] [(40, 1, 41)]
  let program ← Actor.addScript { name := "A" } { id := 0, event := .bootstrap, flow := goes }
  let observer ← Actor.addScript { name := "O", isObserver := true }
    { id := 0, event := .afterStatement, flow := watches }
  Task.create "t" [program, observer] [⟨1, .nop⟩]

theorem accepted_watched (created : watched = .ok task) : task.Accepted := by
  obtain ⟨goes, first, created⟩ := bind_eq_ok_iff.1 created
  obtain ⟨watches, second, created⟩ := bind_eq_ok_iff.1 created
  obtain ⟨program, third, created⟩ := bind_eq_ok_iff.1 created
  obtain ⟨observer, fourth, created⟩ := bind_eq_ok_iff.1 created
  refine ⟨_, _, _, ?_, created⟩
  intro actor member
  rcases List.mem_cons.1 member with rfl | member
  · exact .script .empty (ControlFlow.built_ofTransitions first) third
  · obtain rfl := List.mem_singleton.1 member
    exact .script .empty (ControlFlow.built_ofTransitions second) fourth

/-- Whether no observer can step, the program can, and an observer of statements is done. -/
def comesToRest (task : Task) (s : ControlState Formula) : Bool :=
  match task.chooseObserver s.threads with
  | .ok none => ((symbolicMemory .sep).scheduled task .approximate).goesOn s &&
      s.threads.any fun t => t.isObserver && t.status == .done && t.waitingFor.isEmpty &&
        match task.scriptOf t with
        | .ok script => script.event == .afterStatement
        | .error _ => false
  | _ => false

theorem comesTo_watched : Control.comesTo watched 1 comesToRest = true := by decide +kernel

/-- After the observer has seen the state at the start the program takes a step. -/
theorem exists_observesStatements : ∃ (task : Task) (analysis : Analysis (ControlState Formula))
    (s next : ControlState Formula), task.Accepted ∧
      (symbolicMemory .sep).withControl task {} = .ok analysis ∧ analysis.Reachable s ∧
      task.chooseObserver s.threads = .ok none ∧ analysis.Successor s next ∧
      (∃ t ∈ s.threads, task.WatchesStatements t ∧ t.status ≠ .failure ∧ t.waitingFor = ∅) ∧
      Control.ObservesStatements analysis task s := by
  obtain ⟨task, s, created, reachable, rests⟩ := Control.exists_of_comesTo comesTo_watched
  have accepted := accepted_watched created
  have observes := observesStatements_of_reachable accepted
    (show (symbolicMemory .sep).withControl task {} = .ok _ from rfl) reachable
  unfold comesToRest at rests
  split at rests
  · rename_i none
    obtain ⟨goes, someone⟩ := Bool.and_eq_true_iff.1 rests
    obtain ⟨next, successor⟩ := Analysis.exists_successor goes
    obtain ⟨t, member, holds⟩ := List.any_eq_true.1 someone
    obtain ⟨others, scripted⟩ := Bool.and_eq_true_iff.1 holds
    obtain ⟨finished, free⟩ := Bool.and_eq_true_iff.1 others
    obtain ⟨observer, done⟩ := Bool.and_eq_true_iff.1 finished
    refine ⟨task, _, s, next, accepted, rfl, reachable, none, successor,
      ⟨t, member, ?_, by rw [eq_of_beq done]; nofun, SortedSet.isEmpty_iff.1 free⟩, observes⟩
    obtain ⟨actor, owner, flag⟩ := observes.flagged t member
    split at scripted
    · rename_i script listed
      rw [Task.scriptOf, owner] at listed
      exact ⟨actor, script, owner, flag.symm.trans observer, listed, eq_of_beq scripted⟩
    · cases scripted
  · cases rests

end EventCheck
