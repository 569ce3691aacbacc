import EventCheck.Proofs.Broadcasts

/-!
Atomic methods run without interruption. A running thread of the program runs atomically if and
only if it is inside an atomic method. If it does so then its steps keep all others from running,
until it leaves the last atomic method, fails, or waits for threads that it has started.
-/

namespace EventCheck

variable {task : Task} {policy : WaitPolicy} {threads next : List Thread} {t u w : Thread}
variable {index place : Nat} {step : Step} {effect : Statement} {status : Status}

/-! ### Running atomically -/

namespace Thread

/-- The status agrees with the methods that the thread is in. -/
def Matches (t : Thread) : Prop := t.status = .runningAtomic ↔ t.inAtomicCall = true

theorem calls_of_inAtomicCall (atomic : t.inAtomicCall = true) : t.calls ≠ [] := by
  intro none
  rw [inAtomicCall, none] at atomic
  cases atomic

theorem inAtomicCall_pushCall {call : Call} :
    (t.pushCall call).inAtomicCall = (call.atomic || t.inAtomicCall) := List.any_cons

theorem calls_popCall_eq : t.popCall.calls = t.calls.tail := by
  unfold popCall
  split
  · rename_i none
    rw [none]
    rfl
  · rename_i calls
    rw [calls]
    rfl

theorem status_popCall : t.popCall.status = t.status := by
  unfold popCall
  split <;> rfl

theorem inAtomicCall_of_popCall (atomic : t.popCall.inAtomicCall = true) :
    t.inAtomicCall = true := by
  obtain ⟨call, member, holds⟩ := List.any_eq_true.1 atomic
  exact List.any_eq_true.2 ⟨call, calls_popCall member, holds⟩

end Thread

namespace Task

theorem matches_move (step : Step) (runs : t.status.isRunning = true) (fits : t.Matches) :
    (move step t).status.isRunning = true ∧ (move step t).Matches := by
  unfold move
  cases step.kind with
  | plain | finish => exact ⟨runs, fits⟩
  | call call =>
    dsimp only
    split
    · rename_i atomic
      refine ⟨rfl, iff_of_true rfl ?_⟩
      exact Thread.inAtomicCall_pushCall.trans (by rw [atomic, Bool.true_or])
    · rename_i plain
      refine ⟨runs, ?_⟩
      have same : ({ t with location := step.target }.pushCall call).inAtomicCall =
          (call.atomic || t.inAtomicCall) := Thread.inAtomicCall_pushCall
      rw [Bool.not_eq_true] at plain
      rw [plain, Bool.false_or] at same
      rw [Thread.Matches, same]
      exact fits
  | «return» =>
    dsimp only
    have status := Thread.status_popCall (t := { t with location := step.target })
    split
    · rename_i outside
      have left := outside.2
      rw [Bool.not_eq_true'] at left
      exact ⟨rfl, iff_of_false nofun (Bool.eq_false_iff.1 left)⟩
    · rename_i inside
      refine ⟨by rw [status]; exact runs, fun atomic => ?_, fun atomic => ?_⟩
      · by_contra left
        exact inside ⟨atomic, by rw [Bool.eq_false_iff.2 left]; rfl⟩
      · rw [status]
        exact fits.2
          (Thread.inAtomicCall_of_popCall (t := { t with location := step.target }) atomic)

/-- The threads of the program that run agree with the methods that they are in. -/
def Agrees (t : Thread) : Prop := t.runsProgram = true → t.Matches

theorem agrees_of_idle (idle : t.status.isRunning = false) : Agrees t := by
  intro runs
  cases idle.symm.trans (Bool.and_eq_true_iff.1 runs).2

theorem matches_startThread : (startThread t).Matches := by
  have same : (startThread t).inAtomicCall = t.inAtomicCall := rfl
  rw [Thread.Matches, same]
  unfold startThread
  by_cases atomic : t.inAtomicCall = true
  · exact iff_of_true (if_pos atomic) atomic
  · refine iff_of_false ?_ atomic
    dsimp only
    rw [if_neg atomic]
    nofun

theorem stable_agrees : task.Stable Agrees where
  restart t := agrees_of_idle rfl
  shifts t u shifts _ := by
    cases shifts with
    | finish _ _ => exact agrees_of_idle rfl
    | remain waits _ _ => exact agrees_of_idle (by rw [waits]; rfl)
    | release _ _ => exact agrees_of_idle rfl
  starts t _ := matches_startThread

theorem statusAfter_of_running (given : task.statusAfter step t = .ok status)
    (runs : t.status.isRunning = true) : status = .done ∨ task.hasLeaving t = .ok true ∧
      status = if t.status = .runningAtomic then .runningAtomic
        else if t.isObserver then .running else .yield := by
  unfold statusAfter at given
  split at given
  · rename_i failed
    rw [failed] at runs
    cases runs
  · rename_i waits
    rw [waits] at runs
    cases runs
  · split at given
    · exact Or.inl (pure_eq_ok_iff.1 given).symm
    · obtain ⟨leaving, known, given⟩ := bind_eq_ok_iff.1 given
      cases leaving with
      | false => exact Or.inl (pure_eq_ok_iff.1 given).symm
      | true => exact Or.inr ⟨known, (pure_eq_ok_iff.1 given).symm⟩

/-- A thread of the program goes on running after its step only inside an atomic method. -/
theorem atomic_own (program : t.isObserver = false) (runs : t.status.isRunning = true)
    (fits : t.Matches) (suffers : Suffers task threads index effect (move step t) w)
    (after : task.statusAfter step w = .ok status) (still : status.isRunning = true) :
    status = .runningAtomic ∧ w.inAtomicCall = true := by
  cases suffers with
  | nothing =>
    obtain ⟨moves, matching⟩ := matches_move step runs fits
    have observer : (move step t).isObserver = false := isObserver_move.trans program
    rcases statusAfter_of_running after moves with rfl | ⟨_, rfl⟩
    · cases still
    · by_cases atomic : (move step t).status = .runningAtomic
      · exact ⟨if_pos atomic, matching.1 atomic⟩
      · simp only [if_neg atomic, observer] at still
        cases still
  | fails _ =>
    obtain rfl := Except.ok.inj after
    cases still
  | waits _ _ _ =>
    obtain rfl := Except.ok.inj after
    cases still

theorem agrees_own (turn : t.isObserver = true ∨ t.runsProgram = true)
    (suffers : Suffers task threads index effect (move step t) w)
    (after : task.statusAfter step w = .ok status) (agrees : Agrees t) :
    Agrees { w with status } := by
  intro still
  obtain ⟨kind, goes⟩ := Bool.and_eq_true_iff.1 still
  rcases turn with observer | runs
  · have same : w.isObserver = true := suffers.isObserver.trans (isObserver_move.trans observer)
    simp [same] at kind
  · obtain ⟨program, running⟩ := Bool.and_eq_true_iff.1 runs
    obtain ⟨atomic, inside⟩ := atomic_own (by simpa using program) running (agrees runs)
      suffers after goes
    exact iff_of_true atomic inside

/-- In all states that the scheduler comes to, whoever runs does so atomically if and only if it
is inside an atomic method. -/
theorem agrees_reachable {σ : Type} {a : LabeledAnalysis σ} {s : ControlState σ}
    (reachable : (a.scheduled task policy).Reachable s) : ∀ t ∈ s.threads, Agrees t := by
  refine Control.threads_induction (motive := fun threads => ∀ t ∈ threads, Agrees t)
    (fun first threads started u member => ?_)
    (fun threads index t step next turn applied all u member => ?_) reachable
  · obtain ⟨t, inside, proceeds⟩ := exists_left_of_mem (proceeds_of_proceed started) member
    refine stable_agrees.proceeds proceeds (agrees_of_idle ?_)
    obtain ⟨actor, _, script, _, _, _, _, rfl⟩ := exists_of_mem_newThreads inside
    exact isRunning_initialStatus
  · have keeps := stable_agrees.applyStep applied turn.found fun _ _ => agrees_own turn.cases.2
    obtain ⟨before, inside, kept⟩ := exists_left_of_mem keeps member
    exact kept (all before inside)

/-! ### Steps from inside atomic methods -/

/-- A thread leaves its script only outside of all methods. -/
theorem calls_of_finish {steps : List Step} (given : task.leavingSteps t = .ok steps)
    (member : step ∈ steps) (finishes : step.kind = .finish) : t.calls = [] := by
  cases offers_of_leavingSteps given member with
  | finish _ outside => exact outside
  | enter _ _ _ _ _ | leave _ _ | pass _ _ _ | fallOff _ | plain _ => cases finishes

theorem return_of_move (atomic : t.inAtomicCall = true)
    (outside : (move step t).inAtomicCall = false) :
    step.kind = .return ∧ (move step t).calls = t.calls.tail := by
  unfold move at outside ⊢
  cases kind : step.kind with
  | plain | finish =>
    rw [kind] at outside
    cases atomic.symm.trans outside
  | call call =>
    have inside : ({ t with location := step.target }.pushCall call).inAtomicCall = true :=
      Thread.inAtomicCall_pushCall.trans (by rw [Bool.or_eq_true]; exact Or.inr atomic)
    rw [kind] at outside
    dsimp only at outside
    split at outside <;> cases inside.symm.trans outside
  | «return» =>
    refine ⟨rfl, ?_⟩
    dsimp only
    split <;> exact Thread.calls_popCall_eq

/-- What becomes of a thread of the program that steps inside an atomic method. -/
inductive StepsAtomically (task : Task) (threads next : List Thread) (index : Nat) (t : Thread)
    (step : Step) (u : Thread) : Prop
  /-- It goes on atomically and no other thread of the program runs. -/
  | continues (atomic : u.status = .runningAtomic)
    (alone : ∀ place other, next[place]? = some other → other.runsProgram = true → place = index)
  /-- It has left the last atomic method. -/
  | leaves (returns : step.kind = .return) (calls : u.calls = t.calls.tail)
    (outside : u.inAtomicCall = false)
  /-- It has failed. -/
  | fails {properties : SortedSet Property} (signals : step.effect = .signalFailure properties)
    (failed : u.status = .failure)
  /-- It waits for threads, at least one, that its message has started over. -/
  | starts {text : String} (sends : step.effect = .broadcastAndWait (.const (.str text)))
    (started : ∃ place r w, task.Triggers index text (r, place) ∧ threads[place]? = some r ∧
      next[place]? = some w ∧ r.restart.Alike w)

/-- Whom the message of the thread that steps starts over is afterwards as it starts, but for its
status. -/
theorem alike_of_triggers (given : task.applyStep policy threads index step = .ok next)
    (before : threads[index]? = some t) {text : String}
    (sends : step.effect = .broadcastAndWait (.const (.str text)))
    (triggers : task.Triggers index text (u, place)) (found : threads[place]? = some u) :
    ∃ w, next[place]? = some w ∧ u.restart.Alike w := by
  obtain ⟨prepared, first, second⟩ := applyStep_eq_ok given before
  have eligible : task.Eligible index step.effect place u :=
    (eligible_iff_triggers (Or.inr sends)).2 triggers
  have restarted : prepared[place]? = some u.restart :=
    (prepare_place first (List.getElem?_eq_some_iff.1 before).1 triggers.1 found).1 eligible
  obtain ⟨w, after, proceeds⟩ := exists_right_of_getElem? (proceeds_of_proceed second) restarted
  exact ⟨w, after, proceeds.alike⟩

theorem statusAfter_of_atomic (finishes : step.kind ≠ .finish) (atomic : t.inAtomicCall = true)
    (runs : t.status = .runningAtomic) : task.statusAfter step t = .ok .runningAtomic := by
  have leaving : task.hasLeaving t = .ok true :=
    hasLeaving_iff.2 (Or.inl (Thread.calls_of_inAtomicCall atomic))
  unfold statusAfter
  rw [runs]
  dsimp only
  rw [if_neg finishes, leaving]
  rfl

theorem stepsAtomically_of_applyStep
    (given : task.applyStep policy threads index step = .ok next)
    (before : threads[index]? = some t) (orderly : task.Orderly next)
    {steps : List Step} (leaving : task.leavingSteps t = .ok steps) (member : step ∈ steps)
    (program : t.isObserver = false) (runs : t.status = .runningAtomic) (fits : t.Matches) :
    ∃ u, next[index]? = some u ∧ task.StepsAtomically threads next index t step u := by
  have atomic := fits.1 runs
  have finishes : step.kind ≠ .finish := fun finishes =>
    Thread.calls_of_inAtomicCall atomic (calls_of_finish leaving member finishes)
  obtain ⟨moves, matching⟩ := matches_move step (by rw [runs]; rfl) fits
  obtain ⟨w, status, u, suffers, after, proceeds, found⟩ := applyStep_own given before
  refine ⟨u, found, ?_⟩
  generalize effected : step.effect = effect at suffers
  cases suffers with
  | nothing =>
    -- inside an atomic method it can move, so that it neither is done nor gives way
    cases inside : (move step t).inAtomicCall with
    | true =>
      rw [statusAfter_of_atomic finishes inside (matching.2 inside)] at after
      obtain rfl := Except.ok.inj after
      obtain rfl := proceeds.eq_of_ne nofun nofun
      refine .continues rfl fun place other here runs => ?_
      refine orderly.eq_of_runsProgram found ?_ here runs
      exact Bool.and_eq_true_iff.2 ⟨by simp [isObserver_move, program], rfl⟩
    | false =>
      obtain ⟨returns, calls⟩ := return_of_move atomic inside
      obtain ⟨_, _, rfl⟩ := proceeds.alike
      exact .leaves returns calls inside
  | fails signals =>
    obtain rfl := Except.ok.inj after
    obtain rfl := proceeds.eq_of_ne nofun nofun
    exact .fails (effected.trans signals) rfl
  | waits sends anyone triggered =>
    obtain ⟨place, r, listed, triggers⟩ := triggered
    obtain ⟨w, last, alike⟩ :=
      alike_of_triggers given before (effected.trans sends) triggers listed
    exact .starts (effected.trans sends) ⟨place, r, w, triggers, listed, last, alike⟩

end Task

/-! ### Reachable states -/

/-- Who runs does so atomically if and only if it is inside an atomic method, and then it is not
interrupted by others: each successor comes about by a step such that, if it is one of a thread
that runs atomically, the thread goes on so and alone, leaves its last atomic method, fails, or
waits for threads that it has started over. -/
structure Control.KeepsAtomic {σ : Type} (a : LabeledAnalysis σ) (task : Task)
    (policy : WaitPolicy) (s : ControlState σ) : Prop where
  running : ∀ t ∈ s.threads, t.runsProgram = true →
    (t.status = .runningAtomic ↔ ∃ call ∈ t.calls, call.atomic = true)
  stepping : ∀ next, (a.scheduled task policy).Successor s next →
    ∃ index t step, Control.Succeeds task policy a s next index t step ∧
      (t.isObserver = false → t.status = .runningAtomic →
        ∃ u, next.threads[index]? = some u ∧
          task.StepsAtomically s.threads next.threads index t step u)

/-- Atomic methods are not interrupted. -/
theorem keepsAtomic_of_reachable {σ : Type} {a : LabeledAnalysis σ} {options : ControlOptions}
    {analysis : Analysis (ControlState σ)} {s : ControlState σ} (accepted : task.Accepted)
    (wrapped : a.withControl task options = .ok analysis) (reachable : analysis.Reachable s) :
    Control.KeepsAtomic a task options.waitPolicy s := by
  obtain rfl := LabeledAnalysis.withControl_eq_ok wrapped
  have agrees := Task.agrees_reachable reachable
  refine ⟨fun t member runs => (agrees t member runs).trans List.any_eq_true, ?_⟩
  intro next successor
  obtain ⟨index, t, step, succeeds⟩ := Control.exists_succeeds_of_successor successor
  refine ⟨index, t, step, succeeds, fun program runs => ?_⟩
  obtain ⟨steps, leaving, member⟩ := succeeds.offered
  have fits : t.Matches := agrees t (List.mem_of_getElem? succeeds.found)
    (by simp [Thread.runsProgram, program, runs, Status.isRunning])
  exact Task.stepsAtomically_of_applyStep succeeds.applied succeeds.found
    (Control.orderly_reachable accepted (reachable.later (.single successor))) leaving member
    program runs fits

/-- A script calls an atomic method of two statements while another script is ready. -/
def callsAtomic : Except Error Task := do
  let calls ← ControlFlow.ofTransitions [0] [(0, 1, 1)]
  let goes ← ControlFlow.ofTransitions [2] [(2, 2, 3)]
  let body ← ControlFlow.ofTransitions [10] [(10, 2, 11), (11, 2, 12)]
  let actor ← Actor.addScript { name := "A" } { id := 0, event := .bootstrap, flow := calls }
  let actor ← actor.addScript { id := 1, event := .bootstrap, flow := goes }
  let actor ← actor.addMethod { name := "m", parameters := [], atomic := true, flow := body }
  Task.create "t" [actor] [⟨1, .call "m" [] none⟩, ⟨2, .nop⟩]

theorem accepted_callsAtomic (created : callsAtomic = .ok task) : task.Accepted := by
  obtain ⟨calls, first, created⟩ := bind_eq_ok_iff.1 created
  obtain ⟨goes, second, created⟩ := bind_eq_ok_iff.1 created
  obtain ⟨body, third, created⟩ := bind_eq_ok_iff.1 created
  obtain ⟨one, fourth, created⟩ := bind_eq_ok_iff.1 created
  obtain ⟨two, fifth, created⟩ := bind_eq_ok_iff.1 created
  obtain ⟨whole, sixth, created⟩ := bind_eq_ok_iff.1 created
  refine ⟨_, _, _, ?_, created⟩
  intro actor member
  obtain rfl := List.mem_singleton.1 member
  exact .method (.script (.script .empty (ControlFlow.built_ofTransitions first) fourth)
    (ControlFlow.built_ofTransitions second) fifth) (ControlFlow.built_ofTransitions third) sixth

/-- Whether a thread of the program is to step that runs atomically, and can. -/
def stepsInside (task : Task) (s : ControlState Formula) : Bool :=
  match task.chooseStepping s.threads with
  | .ok (some index) => ((symbolicMemory .sep).scheduled task .approximate).goesOn s &&
      s.threads[index]?.any fun t => !t.isObserver && t.status == .runningAtomic
  | _ => false

theorem comesTo_callsAtomic : Control.comesTo callsAtomic 1 stepsInside = true := by decide +kernel

/-- After the call a thread steps that runs atomically. -/
theorem exists_keepsAtomic : ∃ (task : Task) (analysis : Analysis (ControlState Formula))
    (s next : ControlState Formula) (index : Nat) (t : Thread) (step : Step), task.Accepted ∧
      (symbolicMemory .sep).withControl task {} = .ok analysis ∧ analysis.Reachable s ∧
      Control.Succeeds task .approximate (symbolicMemory .sep) s next index t step ∧
      t.isObserver = false ∧ t.status = .runningAtomic ∧
      Control.KeepsAtomic (symbolicMemory .sep) task .approximate s := by
  obtain ⟨task, s, created, reachable, inside⟩ := Control.exists_of_comesTo comesTo_callsAtomic
  have accepted := accepted_callsAtomic created
  have keeps := keepsAtomic_of_reachable accepted
    (show (symbolicMemory .sep).withControl task {} = .ok _ from rfl) reachable
  unfold stepsInside at inside
  split at inside
  · rename_i index chosen
    obtain ⟨goes, someone⟩ := Bool.and_eq_true_iff.1 inside
    obtain ⟨next, successor⟩ := Analysis.exists_successor goes
    obtain ⟨place, t, step, succeeds, _⟩ := keeps.stepping next successor
    obtain rfl := Option.some.inj (Except.ok.inj (chosen.symm.trans succeeds.chosen))
    rw [succeeds.found] at someone
    obtain ⟨program, atomic⟩ := Bool.and_eq_true_iff.1 someone
    exact ⟨task, _, s, next, index, t, step, accepted, rfl, reachable, succeeds,
      by simpa using program, eq_of_beq atomic, keeps⟩
  · cases inside

end EventCheck
