import EventCheck.Proofs.Atomicity

/-!
Who goes first when a thread is ready inside an atomic method. If a step of the program has
released it, then no thread outside of atomic methods runs before it does. But if an observer has,
while such a thread was running already, then that thread keeps its turn and takes one more step.
-/

namespace EventCheck

variable {task : Task} {policy : WaitPolicy} {threads next : List Thread} {t u p : Thread}
variable {index place other : Nat} {step : Step}

/-! ### One step -/

namespace Task

/-- The thread at the place is ready inside an atomic method. -/
structure ReadyInside (threads : List Thread) (place : Nat) (t : Thread) : Prop where
  found : threads[place]? = some t
  ready : t.isReady = true
  atomic : t.inAtomicCall = true

/-- The thread at the place is one of the program that runs outside of atomic methods. -/
structure RunsOutside (threads : List Thread) (place : Nat) (t : Thread) : Prop where
  found : threads[place]? = some t
  runs : t.runsProgram = true
  outside : t.inAtomicCall = false

theorem isReady_startThread : (startThread t).isReady = false := by
  unfold startThread Thread.isReady
  cases t.inAtomicCall <;> simp

/-- Picking lets nobody run outside of atomic methods while another one is ready inside. -/
theorem RunsOutside.of_schedule (outside : RunsOutside (schedule threads index) other p)
    (ready : ReadyInside (schedule threads index) place u) : RunsOutside threads other p := by
  rcases schedule_cases threads index with ⟨same, _⟩ | ⟨nobody, picked, t, found, _, same, first⟩
  · rw [same] at outside
    exact outside
  · exfalso
    have here := outside.found
    rw [same, List.getElem?_modify] at here
    obtain ⟨q, before, changed⟩ := Option.map_eq_some_iff.1 here
    by_cases own : picked = other
    · rw [if_pos own] at changed
      subst own
      obtain rfl := Option.some.inj (before.symm.trans found)
      subst changed
      have listed := List.mem_of_getElem? ready.found
      rw [same] at listed
      rcases first with inside | none
      · cases inside.symm.trans outside.outside
      · rcases mem_modify found listed with member | rfl
        · cases (none u member ready.ready).symm.trans ready.atomic
        · cases isReady_startThread.symm.trans ready.ready
    · rw [if_neg own] at changed
      obtain rfl := changed
      cases (nobody q (List.mem_of_getElem? before)).symm.trans outside.runs

/-- If a thread runs outside of atomic methods once the others have settled, it has done so before
the step, which is one of an observer. -/
theorem RunsOutside.of_settled {prepared settled : List Thread}
    (outside : RunsOutside settled other p) (orderly : task.Orderly threads)
    (turn : task.HasTurn threads index t) (agrees : Agrees t)
    (first : task.prepare policy threads index step = .ok prepared)
    (settles : task.settle prepared = .ok settled) :
    t.isObserver = true ∧ RunsOutside threads other p := by
  obtain ⟨_, kind⟩ := turn.cases
  obtain ⟨program, runs⟩ := Bool.and_eq_true_iff.1 outside.runs
  -- it has not come to run by settling
  obtain ⟨q, there, same⟩ := exists_left_of_getElem? (settles_of_settle settles) outside.found
  obtain rfl := same.eq_of_running runs
  -- nor has it taken the step, after which it would not run outside
  have away : other ≠ index := by
    rintro rfl
    obtain ⟨w, status, suffers, after, own⟩ := prepare_own first turn.found
    obtain rfl := Option.some.inj (there.symm.trans own)
    rcases kind with observer | stepping
    · have observes : w.isObserver = true :=
        suffers.isObserver.trans (isObserver_move.trans observer)
      simp [observes] at program
    · obtain ⟨mine, running⟩ := Bool.and_eq_true_iff.1 stepping
      obtain ⟨_, inside⟩ :=
        atomic_own (by simpa using mine) running (agrees stepping) suffers after runs
      cases inside.symm.trans outside.outside
  obtain ⟨x, w, before, receives, observes⟩ := prepare_back first turn.found away there
  obtain rfl := observes.eq_of_running runs
  obtain rfl := receives.eq_of_running runs
  have observer : t.isObserver = true := kind.resolve_right fun stepping =>
    away (orderly.eq_of_runsProgram turn.found stepping before outside.runs)
  exact ⟨observer, before, outside.runs, outside.outside⟩

/-- If a thread runs outside of atomic methods while another one is ready inside, it has done so
before the last step, which is one of an observer. -/
theorem RunsOutside.of_applyStep (outside : RunsOutside next other p)
    (ready : ReadyInside next place u) (orderly : task.Orderly threads)
    (turn : task.HasTurn threads index t) (agrees : Agrees t)
    (given : task.applyStep policy threads index step = .ok next) :
    t.isObserver = true ∧ RunsOutside threads other p := by
  obtain ⟨prepared, first, second⟩ := applyStep_eq_ok given turn.found
  obtain ⟨settled, settles, rest⟩ := bind_eq_ok_iff.1 second
  obtain ⟨_, _, built⟩ := bind_eq_ok_iff.1 rest
  obtain rfl := pure_eq_ok_iff.1 built
  exact (outside.of_schedule ready).of_settled orderly turn agrees first settles

/-- A thread that is ready inside an atomic method after the step of an observer has been so, or
has been released. -/
theorem ReadyInside.of_applyStep (ready : ReadyInside next place u)
    (turn : task.HasTurn threads index t) (observer : t.isObserver = true)
    (given : task.applyStep policy threads index step = .ok next) :
    ∃ w, threads[place]? = some w ∧ w.Alike u ∧
      (w = u ∨ w.status = .wait ∧ w.waitingFor ≠ ∅) := by
  obtain ⟨before, listed, persists⟩ :=
    exists_left_of_getElem? (persists_applyStep given turn.found turn.cases.1) ready.found
  obtain ⟨program, status⟩ := Bool.and_eq_true_iff.1 ready.ready
  have away : place ≠ index := by
    rintro rfl
    obtain rfl := Option.some.inj (listed.symm.trans turn.found)
    rw [persists.isObserver, observer] at program
    cases program
  obtain ⟨w, v, last, receives, observes, proceeds, found⟩ :=
    applyStep_other given turn.found away listed
  obtain rfl := Option.some.inj (found.symm.trans ready.found)
  rw [Observes, if_pos observer] at observes
  obtain rfl := observes
  -- had it been started over it would be outside of all methods
  obtain rfl : v = before := by
    rcases receives with same | ⟨_, rfl⟩
    · exact same
    · obtain ⟨_, _, rfl⟩ := proceeds.alike
      cases ready.atomic
  refine ⟨v, listed, proceeds.alike, ?_⟩
  obtain ⟨settled, settles, rfl | ⟨_, rfl⟩⟩ := proceeds
  · exact (settles.to_ready (eq_of_beq status)).imp_left Eq.symm
  · cases isReady_startThread.symm.trans ready.ready

/-- No thread of the program runs outside of atomic methods while the one at the place is ready
inside. -/
def GoesFirst (threads : List Thread) (place : Nat) : Prop :=
  ∀ u other p, ReadyInside threads place u → ¬RunsOutside threads other p

theorem goesFirst_startThreads {first : Nat}
    (given : task.startThreads (task.newThreads first) = .ok threads) :
    GoesFirst threads place := by
  intro u other p ready outside
  obtain ⟨settled, settles, rest⟩ := bind_eq_ok_iff.1 given
  obtain ⟨_, _, built⟩ := bind_eq_ok_iff.1 rest
  obtain rfl := pure_eq_ok_iff.1 built
  have runs := (Bool.and_eq_true_iff.1 outside.runs).2
  obtain ⟨q, there, same⟩ :=
    exists_left_of_getElem? (settles_of_settle settles) (outside.of_schedule ready).found
  obtain rfl := same.eq_of_running runs
  obtain ⟨actor, _, script, _, _, _, _, rfl⟩ :=
    exists_of_mem_newThreads (List.mem_of_getElem? there)
  cases runs.symm.trans isRunning_initialStatus

end Task

/-! ### Reachable states -/

namespace Control

variable {σ : Type} {a : LabeledAnalysis σ} {analysis : Analysis (ControlState σ)}
variable {s t : ControlState σ} {stepper : Thread} {count : Nat}

/-- The step of an observer has released the thread at one place, inside an atomic method, while
the one at another place was running outside of them, and since then only observers have stepped. -/
inductive ReleasedBeside (analysis : Analysis (ControlState σ)) (task : Task) (place other : Nat)
    (p : Thread) : ControlState σ → Prop
  | released {s t : ControlState σ} {index : Nat} {observer w u : Thread}
    (reachable : analysis.Reachable s) (successor : analysis.Successor s t)
    (turn : task.HasTurn s.threads index observer) (observes : observer.isObserver = true)
    (before : s.threads[place]? = some w) (waits : w.status = .wait) (anyone : w.waitingFor ≠ ∅)
    (alike : w.Alike u) (ready : Task.ReadyInside t.threads place u)
    (running : Task.RunsOutside s.threads other p) (still : Task.RunsOutside t.threads other p) :
    ReleasedBeside analysis task place other p t
  | stays {s t : ControlState σ} {index : Nat} {observer u : Thread}
    (earlier : ReleasedBeside analysis task place other p s) (successor : analysis.Successor s t)
    (turn : task.HasTurn s.threads index observer) (observes : observer.isObserver = true)
    (ready : Task.ReadyInside t.threads place u) (still : Task.RunsOutside t.threads other p) :
    ReleasedBeside analysis task place other p t

/-- So many steps are taken by threads outside of atomic methods from the first state to the
second one while the thread at the place is ready inside an atomic method. -/
inductive Overtakes (analysis : Analysis (ControlState σ)) (task : Task) (place : Nat)
    (s : ControlState σ) : ControlState σ → Nat → Prop
  | start : Overtakes analysis task place s s 0
  | step {t next : ControlState σ} {count index : Nat} {stepper u : Thread}
    (earlier : Overtakes analysis task place s t count)
    (ready : Task.ReadyInside t.threads place u) (turn : task.HasTurn t.threads index stepper)
    (successor : analysis.Successor t next) :
    Overtakes analysis task place s next
      (if stepper.isObserver || stepper.inAtomicCall then count else count + 1)

theorem exists_hasTurn (successor : (a.scheduled task policy).Successor s t) :
    ∃ index stepper, task.HasTurn s.threads index stepper := by
  obtain ⟨index, stepper, step, succeeds⟩ := exists_succeeds_of_successor successor
  exact ⟨index, stepper, succeeds.hasTurn⟩

theorem exists_applyStep (successor : (a.scheduled task policy).Successor s t)
    (turn : task.HasTurn s.threads index stepper) :
    ∃ step, task.applyStep policy s.threads index step = .ok t.threads := by
  obtain ⟨place, thread, step, succeeds⟩ := exists_succeeds_of_successor successor
  obtain rfl := Option.some.inj (Except.ok.inj (turn.chosen.symm.trans succeeds.chosen))
  exact ⟨step, succeeds.applied⟩

section

variable (accepted : task.Accepted) (reachable : (a.scheduled task policy).Reachable s)
include accepted reachable

theorem runsOutside_of_successor (successor : (a.scheduled task policy).Successor s t)
    (turn : task.HasTurn s.threads index stepper) (ready : Task.ReadyInside t.threads place u)
    (outside : Task.RunsOutside t.threads other p) :
    stepper.isObserver = true ∧ Task.RunsOutside s.threads other p := by
  obtain ⟨step, applied⟩ := exists_applyStep successor turn
  exact outside.of_applyStep ready (orderly_reachable accepted reachable) turn
    (Task.agrees_reachable reachable _ (List.mem_of_getElem? turn.found)) applied

/-- After a step of the program whoever is ready inside an atomic method goes first. -/
theorem goesFirst_of_program (successor : (a.scheduled task policy).Successor s t)
    (turn : task.HasTurn s.threads index stepper) (program : stepper.isObserver = false) :
    Task.GoesFirst t.threads place := by
  intro u other p ready outside
  obtain ⟨observer, _⟩ := runsOutside_of_successor accepted reachable successor turn ready outside
  cases program.symm.trans observer

/-- Whoever goes first does so until it has been picked. -/
theorem goesFirst_of_successor (successor : (a.scheduled task policy).Successor s t)
    (first : Task.GoesFirst s.threads place) (ready : Task.ReadyInside s.threads place u) :
    Task.GoesFirst t.threads place := by
  intro w other p still outside
  obtain ⟨index, stepper, turn⟩ := exists_hasTurn successor
  obtain ⟨_, before⟩ := runsOutside_of_successor accepted reachable successor turn still outside
  exact first u other p ready before

end

/-- A thread that runs outside of atomic methods while another one is ready inside has kept its
turn when an observer released the other one. -/
theorem releasedBeside_of_reachable (accepted : task.Accepted)
    (reachable : (a.scheduled task policy).Reachable s)
    (ready : Task.ReadyInside s.threads place u) (outside : Task.RunsOutside s.threads other p) :
    ReleasedBeside (a.scheduled task policy) task place other p s := by
  -- backwards along the steps of observers, to the one that has released the thread
  induction reachable generalizing u with
  | initial given member =>
    obtain ⟨threads, started, rfl⟩ := yields_initial given
    obtain ⟨inner, _, rfl⟩ := List.mem_map.1 member
    exact absurd outside (Task.goesFirst_startThreads started u other p ready)
  | @step s t states before after earlier given member ih =>
    have successor : (a.scheduled task policy).Successor s t :=
      ⟨before, states, after, given, member⟩
    obtain ⟨index, observer, turn⟩ := exists_hasTurn successor
    obtain ⟨observes, running⟩ :=
      runsOutside_of_successor accepted earlier successor turn ready outside
    obtain ⟨step, applied⟩ := exists_applyStep successor turn
    obtain ⟨w, found, alike, rfl | ⟨waits, anyone⟩⟩ := ready.of_applyStep turn observes applied
    · exact .stays (ih ⟨found, ready.ready, ready.atomic⟩ running) successor turn observes ready
        outside
    · exact .released earlier successor turn observes found waits anyone alike ready running outside

/-- The first step of a thread outside of atomic methods is the last one: afterwards whoever is
ready inside goes first. -/
theorem Overtakes.bounded (accepted : task.Accepted)
    (reachable : (a.scheduled task policy).Reachable s)
    (overtakes : Overtakes (a.scheduled task policy) task place s t count) :
    (a.scheduled task policy).Reachable t ∧
      (Task.GoesFirst s.threads place → count = 0 ∧ Task.GoesFirst t.threads place) ∧
      (count = 0 ∨ count = 1 ∧ Task.GoesFirst t.threads place) := by
  -- once a thread outside has stepped, the invariant is that whoever is ready inside goes first
  induction overtakes with
  | start => exact ⟨reachable, fun first => ⟨rfl, first⟩, Or.inl rfl⟩
  | @step t next count index stepper u _ ready turn successor ih =>
    obtain ⟨later, always, bound⟩ := ih
    -- who goes first is not overtaken
    have kept : Task.GoesFirst t.threads place →
        (stepper.isObserver || stepper.inAtomicCall) = true := by
      intro first
      rw [Bool.or_eq_true]
      rcases turn.cases.2 with observer | runs
      · exact Or.inl observer
      · by_contra neither
        push Not at neither
        exact first u index stepper ready ⟨turn.found, runs, by simpa using neither.2⟩
    have keeps := fun first => goesFirst_of_successor accepted later successor first ready
    refine ⟨later.later (.single successor), fun first => ?_, ?_⟩
    · obtain ⟨none, here⟩ := always first
      rw [if_pos (kept here)]
      exact ⟨none, keeps here⟩
    · rcases bound with rfl | ⟨rfl, here⟩
      · by_cases inside : (stepper.isObserver || stepper.inAtomicCall) = true
        · rw [if_pos inside]
          exact Or.inl rfl
        · rw [if_neg inside]
          have program : stepper.isObserver = false := by
            rw [Bool.or_eq_true, not_or] at inside
            simpa using inside.1
          exact Or.inr ⟨rfl, goesFirst_of_program accepted later successor turn program⟩
      · rw [if_pos (kept here)]
        exact Or.inr ⟨rfl, keeps here⟩

/-- While no observer can step and a thread is ready inside an atomic method, a thread is chosen
that is inside one, too, or was running already when an observer released the former one. Such a
thread takes at most one step before the former one goes on, and none if a step of the program has
released it. -/
structure AtomicGoesFirst (analysis : Analysis (ControlState σ)) (task : Task)
    (s : ControlState σ) : Prop where
  chosen : task.chooseObserver s.threads = .ok none →
    ∀ place t, Task.ReadyInside s.threads place t →
      ∃ other p, task.chooseThread s.threads = .ok (some other) ∧ s.threads[other]? = some p ∧
        (p.inAtomicCall = true ∨ ReleasedBeside analysis task place other p s)
  overtaken : ∀ place t count, Overtakes analysis task place s t count → count ≤ 1
  program : ∀ index stepper next, task.HasTurn s.threads index stepper →
    stepper.isObserver = false → analysis.Successor s next →
    ∀ place t count, Overtakes analysis task place next t count → count = 0

end Control

theorem Task.Orderly.exists_chooseThread (accepted : task.Accepted)
    (orderly : task.Orderly threads) (none : task.chooseObserver threads = .ok none)
    (ready : ReadyInside threads place t) : ∃ other p,
      task.chooseThread threads = .ok (some other) ∧ threads[other]? = some p ∧
        p.runsProgram = true := by
  obtain ⟨choice, chosen⟩ := orderly.exists_chooseStepping accepted
  have same : task.chooseStepping threads = task.chooseThread threads := by
    rw [chooseStepping, none]
    rfl
  cases choice with
  | none =>
    have idle := orderly.idle chosen (List.mem_of_getElem? ready.found)
    have status := (Bool.and_eq_true_iff.1 ready.ready).2
    rw [eq_of_beq status] at idle
    cases idle
  | some other =>
    rw [same] at chosen
    obtain ⟨p, found, runs⟩ := chooseThread_eq_some chosen
    exact ⟨other, p, chosen, found, runs⟩

/-- A thread that is ready inside an atomic method is overtaken at most once. -/
theorem atomicGoesFirst_of_reachable {σ : Type} {a : LabeledAnalysis σ}
    {options : ControlOptions} {analysis : Analysis (ControlState σ)} {s : ControlState σ}
    (accepted : task.Accepted) (wrapped : a.withControl task options = .ok analysis)
    (reachable : analysis.Reachable s) : Control.AtomicGoesFirst analysis task s := by
  obtain rfl := LabeledAnalysis.withControl_eq_ok wrapped
  constructor
  · intro none place t ready
    obtain ⟨other, p, chosen, found, runs⟩ :=
      (Control.orderly_reachable accepted reachable).exists_chooseThread accepted none ready
    refine ⟨other, p, chosen, found, ?_⟩
    by_cases inside : p.inAtomicCall = true
    · exact Or.inl inside
    · exact Or.inr (Control.releasedBeside_of_reachable accepted reachable ready
        ⟨found, runs, by simpa using inside⟩)
  · intro place t count overtakes
    obtain ⟨_, _, rfl | ⟨rfl, _⟩⟩ := overtakes.bounded accepted reachable <;> omega
  · intro index stepper next turn program successor place t count overtakes
    have first : Task.GoesFirst next.threads place :=
      Control.goesFirst_of_program accepted reachable successor turn program
    exact ((overtakes.bounded accepted (reachable.later (.single successor))).2.1 first).1

/-! ### A program with an observer that releases -/

/-- A script sends a message from inside an atomic method and waits for the observer that receives
it, while another script is ready. -/
def releasedByObserver : Except Error Task := do
  let calls ← ControlFlow.ofTransitions [0] [(0, 1, 1)]
  let body ← ControlFlow.ofTransitions [10] [(10, 2, 11), (11, 3, 12)]
  let goes ← ControlFlow.ofTransitions [20] [(20, 3, 21)]
  let watches ← ControlFlow.ofTransitions [30] [(30, 3, 31)]
  let caller ← Actor.addScript { name := "A" } { id := 0, event := .bootstrap, flow := calls }
  let caller ← caller.addMethod { name := "m", parameters := [], atomic := true, flow := body }
  let bystander ← Actor.addScript { name := "B" } { id := 0, event := .bootstrap, flow := goes }
  let observer ← Actor.addScript { name := "O", isObserver := true }
    { id := 0, event := .message "go", flow := watches }
  Task.create "t" [caller, bystander, observer]
    [⟨1, .call "m" [] none⟩, ⟨2, .broadcastAndWait (.const (.str "go"))⟩, ⟨3, .nop⟩]

theorem accepted_releasedByObserver (created : releasedByObserver = .ok task) : task.Accepted := by
  obtain ⟨calls, first, created⟩ := bind_eq_ok_iff.1 created
  obtain ⟨body, second, created⟩ := bind_eq_ok_iff.1 created
  obtain ⟨goes, third, created⟩ := bind_eq_ok_iff.1 created
  obtain ⟨watches, fourth, created⟩ := bind_eq_ok_iff.1 created
  obtain ⟨one, fifth, created⟩ := bind_eq_ok_iff.1 created
  obtain ⟨caller, sixth, created⟩ := bind_eq_ok_iff.1 created
  obtain ⟨bystander, seventh, created⟩ := bind_eq_ok_iff.1 created
  obtain ⟨observer, eighth, created⟩ := bind_eq_ok_iff.1 created
  refine ⟨_, _, _, ?_, created⟩
  intro actor member
  rcases List.mem_cons.1 member with rfl | member
  · exact .method (.script .empty (ControlFlow.built_ofTransitions first) fifth)
      (ControlFlow.built_ofTransitions second) sixth
  rcases List.mem_cons.1 member with rfl | member
  · exact .script .empty (ControlFlow.built_ofTransitions third) seventh
  · obtain rfl := List.mem_singleton.1 member
    exact .script .empty (ControlFlow.built_ofTransitions fourth) eighth

/-- Whether no observer can step and a thread outside of atomic methods has the turn, and can step,
while the first one is ready inside. -/
def overtakesFirst (task : Task) (s : ControlState Formula) : Bool :=
  match task.chooseObserver s.threads, task.chooseThread s.threads with
  | .ok none, .ok (some other) =>
    ((symbolicMemory .sep).scheduled task .approximate).goesOn s &&
      s.threads[0]?.any (fun t => t.isReady && t.inAtomicCall) &&
      s.threads[other]?.any fun p => !p.inAtomicCall
  | _, _ => false

theorem comesTo_releasedByObserver :
    Control.comesTo releasedByObserver 3 overtakesFirst = true := by decide +kernel

theorem exists_reachable_overtaking : ∃ (task : Task) (s next : ControlState Formula) (t : Thread)
    (other : Nat) (p : Thread), releasedByObserver = .ok task ∧ task.Accepted ∧
      ((symbolicMemory .sep).scheduled task .approximate).Reachable s ∧
      task.chooseObserver s.threads = .ok none ∧ Task.ReadyInside s.threads 0 t ∧
      task.chooseThread s.threads = .ok (some other) ∧ s.threads[other]? = some p ∧
      p.inAtomicCall = false ∧
      ((symbolicMemory .sep).scheduled task .approximate).Successor s next := by
  obtain ⟨task, s, created, reachable, overtakes⟩ :=
    Control.exists_of_comesTo comesTo_releasedByObserver
  unfold overtakesFirst at overtakes
  split at overtakes
  · rename_i other none chosen
    obtain ⟨both, last⟩ := Bool.and_eq_true_iff.1 overtakes
    obtain ⟨goes, first⟩ := Bool.and_eq_true_iff.1 both
    obtain ⟨next, successor⟩ := Analysis.exists_successor goes
    obtain ⟨t, found, holds⟩ := Option.any_eq_true _ _ |>.1 first
    obtain ⟨ready, atomic⟩ := Bool.and_eq_true_iff.1 holds
    obtain ⟨p, listed, outside⟩ := Option.any_eq_true _ _ |>.1 last
    exact ⟨task, s, next, t, other, p, created, accepted_releasedByObserver created, reachable,
      none, ⟨found, ready, atomic⟩, chosen, listed, by simpa using outside, successor⟩
  · cases overtakes

/-- Not always is the chosen thread inside an atomic method while another one is ready inside. -/
theorem not_forall_chosen_inside : ¬∀ (task : Task) (s : ControlState Formula), task.Accepted →
    ((symbolicMemory .sep).scheduled task .approximate).Reachable s →
    task.chooseObserver s.threads = .ok none →
    ∀ place t other p, Task.ReadyInside s.threads place t →
      task.chooseThread s.threads = .ok (some other) → s.threads[other]? = some p →
      p.inAtomicCall = true := by
  intro always
  obtain ⟨task, s, _, t, other, p, _, accepted, reachable, none, ready, chosen, found, outside,
    _⟩ := exists_reachable_overtaking
  cases (always task s accepted reachable none 0 t other p ready chosen found).symm.trans outside

/-- In such a state the thread has been released by the observer, and is overtaken by one step. -/
theorem exists_atomicGoesFirst : ∃ (task : Task) (analysis : Analysis (ControlState Formula))
    (s next : ControlState Formula) (t : Thread) (other : Nat) (p : Thread), task.Accepted ∧
      (symbolicMemory .sep).withControl task {} = .ok analysis ∧ analysis.Reachable s ∧
      task.chooseObserver s.threads = .ok none ∧ Task.ReadyInside s.threads 0 t ∧
      task.chooseThread s.threads = .ok (some other) ∧ s.threads[other]? = some p ∧
      p.inAtomicCall = false ∧ analysis.Successor s next ∧
      Control.AtomicGoesFirst analysis task s := by
  obtain ⟨task, s, next, t, other, p, _, accepted, reachable, none, ready, chosen, found, outside,
    successor⟩ := exists_reachable_overtaking
  exact ⟨task, _, s, next, t, other, p, accepted, rfl, reachable, none, ready, chosen, found,
    outside, successor, atomicGoesFirst_of_reachable accepted
      (show (symbolicMemory .sep).withControl task {} = .ok _ from rfl) reachable⟩

end EventCheck
