import EventCheck.Proofs.Calls
import EventCheck.Proofs.Overtaking

/-!
Round robin among threads that give way. Without observers and atomic methods nobody runs once the
thread that has stepped has given way, and the next one to run is the first ready one after it. So
whoever stays ready comes nearer to its turn with every step, and there are at most as many steps
until then as there are other threads.
-/

namespace EventCheck

variable {task : Task} {policy : WaitPolicy} {threads next settled : List Thread}
variable {t u w : Thread} {index place distance : Nat} {step : Step} {effect : Statement}

/-! ### Threads that give way -/

/-- The program has neither observers nor atomic methods. -/
structure Task.Interruptible (task : Task) : Prop where
  program : ∀ actor ∈ task.actors, actor.isObserver = false
  plain : ∀ actor ∈ task.actors, ∀ name method, actor.methods.get? name = some method →
    method.atomic = false

/-- Whether the program has neither observers nor atomic methods. -/
def Task.isInterruptible (task : Task) : Bool :=
  task.actors.all fun actor =>
    !actor.isObserver && actor.methods.toList.all fun entry => !entry.2.atomic

theorem Task.isInterruptible_iff : task.isInterruptible = true ↔ task.Interruptible := by
  simp only [isInterruptible, List.all_eq_true, Bool.and_eq_true, Bool.not_eq_true']
  constructor
  · intro all
    refine ⟨fun actor member => (all actor member).1, fun actor member name method found => ?_⟩
    exact (all actor member).2 (name, method) (SortedMap.get?_eq_some_iff.1 found)
  · rintro ⟨program, plain⟩ actor member
    refine ⟨program actor member, fun entry listed => ?_⟩
    exact plain actor member entry.1 entry.2 (SortedMap.get?_eq_some_iff.2 listed)

/-- The thread is one of the program and outside of all atomic methods. -/
structure Thread.GivesWay (t : Thread) : Prop where
  program : t.isObserver = false
  outside : t.inAtomicCall = false

namespace Task

theorem Interruptible.not_atomic {steps : List Step} {call : Call}
    (interruptible : task.Interruptible) (given : task.leavingSteps t = .ok steps)
    (member : step ∈ steps) (calls : step.kind = .call call) : call.atomic = false := by
  obtain ⟨method, arguments, enters, _, same, _⟩ := exists_enters given member calls
  obtain ⟨actor, found, named⟩ := enters.method
  exact same.trans (interruptible.plain actor (mem_of_actor found) _ method (get?_of_method named))

end Task

namespace Thread.GivesWay

theorem alike (gives : t.GivesWay) (alike : t.Alike u) : u.GivesWay := by
  obtain ⟨_, _, rfl⟩ := alike
  exact ⟨gives.program, gives.outside⟩

theorem move (gives : t.GivesWay) (plain : ∀ call, step.kind = .call call → call.atomic = false) :
    (Task.move step t).GivesWay := by
  refine ⟨Task.isObserver_move.trans gives.program, ?_⟩
  unfold Task.move
  cases kind : step.kind with
  | plain | finish => exact gives.outside
  | call call =>
    have plain := plain call kind
    dsimp only
    rw [if_neg (by simp [plain])]
    exact inAtomicCall_pushCall.trans (by rw [plain, Bool.false_or]; exact gives.outside)
  | «return» =>
    have outside : ({ t with location := step.target } : Thread).popCall.inAtomicCall = false :=
      eq_false_of_ne_true fun atomic =>
        Bool.false_ne_true (gives.outside.symm.trans
          (inAtomicCall_of_popCall (t := { t with location := step.target }) atomic))
    dsimp only
    split <;> exact outside

theorem suffers (gives : t.GivesWay) (suffers : Task.Suffers task threads index effect t u) :
    u.GivesWay := by
  cases suffers <;> exact ⟨gives.program, gives.outside⟩

theorem receives (gives : t.GivesWay) (receives : task.Receives index place t u) :
    u.GivesWay := by
  rcases receives with rfl | ⟨_, rfl⟩
  · exact gives
  · exact ⟨gives.program, rfl⟩

theorem isReady (gives : t.GivesWay) (ready : t.status = .yield) : t.isReady = true := by
  rw [Thread.isReady, gives.program, ready]
  rfl

/-- Observing starts over observers only. -/
theorem eq_of_observes {stepper : Thread} (gives : t.GivesWay)
    (observes : task.Observes stepper t u) : u = t := by
  rcases observes.cases with same | ⟨_, observer, _⟩
  · exact same
  · cases gives.program.symm.trans observer

end Thread.GivesWay

theorem Task.givesWay_applyStep (given : task.applyStep policy threads index step = .ok next)
    (found : threads[index]? = some t)
    (plain : ∀ call, step.kind = .call call → call.atomic = false) :
    List.Forall₂ (fun t u : Thread => t.GivesWay → u.GivesWay) threads next := by
  refine forall₂_applyStep given found ?_ ?_
  · intro w status u suffers _ proceeds gives
    have affected : w.GivesWay := (gives.move plain).suffers suffers
    exact Thread.GivesWay.alike ⟨affected.program, affected.outside⟩ proceeds.alike
  · intro place s w v u _ receives observes proceeds gives
    have received := gives.receives receives
    obtain rfl := received.eq_of_observes observes
    exact received.alike proceeds.alike

/-- All threads of such a program give way. -/
theorem Control.givesWay_reachable {σ : Type} {a : LabeledAnalysis σ} {s : ControlState σ}
    (interruptible : task.Interruptible) (reachable : (a.scheduled task policy).Reachable s) :
    ∀ t ∈ s.threads, t.GivesWay := by
  induction reachable with
  | initial given member =>
    obtain ⟨threads, started, rfl⟩ := yields_initial given
    obtain ⟨inner, _, rfl⟩ := List.mem_map.1 member
    intro t inside
    obtain ⟨first, listed, proceeds⟩ := exists_left_of_mem (Task.proceeds_of_proceed started) inside
    obtain ⟨actor, known, script, _, _, _, _, rfl⟩ := Task.exists_of_mem_newThreads listed
    exact Thread.GivesWay.alike ⟨interruptible.program actor known, rfl⟩ proceeds.alike
  | step _ given member ih =>
    obtain ⟨index, stepper, step, succeeds⟩ := exists_succeeds given member
    obtain ⟨steps, leaving, offered⟩ := succeeds.offered
    intro t inside
    obtain ⟨before, listed, keeps⟩ := exists_left_of_mem
      (Task.givesWay_applyStep succeeds.applied succeeds.found fun call calls =>
        interruptible.not_atomic leaving offered calls) inside
    exact keeps (ih before listed)

/-! ### Whose turn it is -/

theorem Thread.ne_of_runs (runs : t.status.isRunning = true) (ready : u.status = .yield) :
    t ≠ u := by
  rintro rfl
  rw [ready] at runs
  cases runs

namespace Task

/-- The turn goes to a ready thread that is not further away than any other ready one. -/
theorem exists_nextReady (outside : ∀ t ∈ threads, t.inAtomicCall = false)
    (positive : 0 < distance) (bounded : distance ≤ threads.length)
    (found : threads[(index + distance) % threads.length]? = some t) (ready : t.isReady = true) :
    ∃ count, 0 < count ∧ count ≤ distance ∧
      nextReady threads index = some ((index + count) % threads.length) := by
  have nobody : (turns index threads.length).find? (fun i =>
      threads[i]?.any fun t => t.isReady && t.inAtomicCall) = none := by
    refine List.find?_eq_none.2 fun i _ inside => ?_
    obtain ⟨u, listed, both⟩ := Option.any_eq_true _ _ |>.1 inside
    rw [outside u (List.mem_of_getElem? listed), Bool.and_false] at both
    cases both
  let waits : Nat → Bool := fun k => threads[(index + k + 1) % threads.length]?.any (·.isReady)
  have own : waits (distance - 1) = true := by
    have same : index + (distance - 1) + 1 = index + distance := by omega
    simp only [waits, same, found, Option.any_some, ready]
  obtain ⟨k, chosen⟩ : ∃ k, (List.range threads.length).find? waits = some k := by
    refine Option.isSome_iff_exists.1 (List.find?_isSome.2 ⟨distance - 1, ?_, own⟩)
    exact List.mem_range.2 (by omega)
  obtain ⟨_, _, first⟩ := List.find?_range_eq_some.1 chosen
  have least : k ≤ distance - 1 := by
    by_contra later
    have missed := first (distance - 1) (by omega)
    rw [own] at missed
    cases missed
  refine ⟨k + 1, by omega, by omega, ?_⟩
  rw [nextReady_eq, nobody, Option.none_or, turns, List.find?_map]
  exact congrArg (Option.map _) chosen

theorem schedule_eq {picked : Nat} (nobody : ∀ t ∈ threads, t.runsProgram = false)
    (chosen : nextReady threads index = some picked) :
    schedule threads index = threads.modify picked startThread := by
  have none : threads.any (·.runsProgram) = false := List.any_eq_false.2 fun t member => by
    rw [nobody t member]
    exact Bool.false_ne_true
  unfold schedule
  rw [none, chosen]
  rfl

/-- Whoever is ready after the pick has been so before. -/
theorem getElem?_of_schedule (found : (schedule threads index)[place]? = some u)
    (ready : u.status = .yield) : threads[place]? = some u := by
  rcases schedule_cases threads index with ⟨same, _⟩ | ⟨_, picked, t, _, _, same, _⟩
  · rw [same] at found
    exact found
  · rw [same, List.getElem?_modify] at found
    obtain ⟨w, before, changed⟩ := Option.map_eq_some_iff.1 found
    split at changed
    · exact absurd changed (Thread.ne_of_runs isRunning_startThread ready)
    · rw [before, ← changed]

/-- A thread of the program is running, and the place has its turn so many turns later. -/
structure RunsBefore (threads : List Thread) (place distance : Nat) : Prop where
  positive : 0 < distance
  bounded : distance < threads.length
  runs : ∃ index t, threads[index]? = some t ∧ t.runsProgram = true ∧
    (index + distance) % threads.length = place

theorem Orderly.exists_runsBefore (orderly : task.Orderly threads)
    (found : threads[place]? = some t) (ready : t.isReady = true) :
    ∃ distance, RunsBefore threads place distance := by
  have one := orderly.running t (List.mem_of_getElem? found) ready
  obtain ⟨runner, member, runs⟩ := List.countP_pos_iff.1 (one ▸ Nat.one_pos)
  obtain ⟨index, listed⟩ := List.mem_iff_getElem?.1 member
  have first := (List.getElem?_eq_some_iff.1 listed).1
  have second := (List.getElem?_eq_some_iff.1 found).1
  have away : index ≠ place := by
    rintro rfl
    exact Thread.ne_of_runs (Bool.and_eq_true_iff.1 runs).2
      (eq_of_beq (Bool.and_eq_true_iff.1 ready).2) (Option.some.inj (listed.symm.trans found))
  rcases Nat.lt_or_gt_of_ne away with before | after
  · refine ⟨place - index, by omega, by omega, index, runner, listed, runs, ?_⟩
    rw [Nat.add_sub_cancel' (Nat.le_of_lt before)]
    exact Nat.mod_eq_of_lt second
  · have around : index + (place + threads.length - index) = place + threads.length := by omega
    refine ⟨place + threads.length - index, by omega, by omega, index, runner, listed, runs, ?_⟩
    rw [around, Nat.add_mod_right]
    exact Nat.mod_eq_of_lt second

variable (orderly : task.Orderly threads) (turn : task.HasTurn threads index t)
variable (given : task.applyStep policy threads index step = .ok next)
include orderly turn given

/-- A step that leaves a thread ready brings it nearer to its turn. -/
theorem RunsBefore.of_applyStep (before : RunsBefore threads place distance) (agrees : Agrees t)
    (program : t.isObserver = false) (gives : ∀ u ∈ next, u.GivesWay)
    (found : next[place]? = some u) (ready : u.status = .yield) :
    ∃ closer < distance, RunsBefore next place closer := by
  obtain ⟨positive, bounded, other, runner, listed, runs, ahead⟩ := before
  obtain rfl := orderly.eq_of_runsProgram turn.found
    (turn.cases.2.resolve_left (by simp [program])) listed runs
  have length := length_applyStep given turn.found
  obtain ⟨prepared, first, second⟩ := applyStep_eq_ok given turn.found
  obtain ⟨settled, settles, rest⟩ := bind_eq_ok_iff.1 second
  obtain ⟨_, _, built⟩ := bind_eq_ok_iff.1 rest
  obtain rfl := pure_eq_ok_iff.1 built
  have same : settled.length = (schedule settled other).length := alike_schedule.length_eq
  have outside : ∀ v ∈ settled, v.inAtomicCall = false := by
    intro v member
    obtain ⟨w, inside, _, _, rfl⟩ := exists_right_of_mem alike_schedule member
    exact (gives _ inside).outside
  -- the stepper has given way, and settling lets nobody run
  have nobody : ∀ v ∈ settled, v.runsProgram = false := by
    intro v member
    refine eq_false_of_ne_true fun running => ?_
    obtain ⟨k, here⟩ := List.mem_iff_getElem?.1 member
    obtain ⟨observer, _⟩ := (RunsOutside.mk here running (outside v member)).of_settled orderly turn
      agrees first settles
    cases program.symm.trans observer
  have waited := getElem?_of_schedule found ready
  have isReady := (gives u (List.mem_of_getElem? found)).isReady ready
  have count : settled.length = threads.length := same.trans length
  rw [← count] at bounded ahead
  rw [← ahead] at waited
  obtain ⟨passed, some, near, chosen⟩ :=
    exists_nextReady outside positive (Nat.le_of_lt bounded) waited isReady
  obtain ⟨r, listed, waits, _⟩ := nextReady_eq_some chosen
  have scheduled := schedule_eq nobody chosen
  have started : (schedule settled other)[(other + passed) % settled.length]? =
      Option.some (startThread r) := by
    rw [scheduled, List.getElem?_modify_eq, listed]
    rfl
  -- the place itself has not been picked, as it is ready still
  have short : passed ≠ distance := by
    rintro rfl
    rw [ahead] at started
    exact Thread.ne_of_runs isRunning_startThread ready
      (Option.some.inj (started.symm.trans found))
  refine ⟨distance - passed, by omega, by omega, by omega, _, _, started, ?_, ?_⟩
  · exact Bool.and_eq_true_iff.2 ⟨(Bool.and_eq_true_iff.1 waits).1, isRunning_startThread⟩
  · have whole : other + passed + (distance - passed) = other + distance := by omega
    rw [← same, Nat.mod_add_mod, whole, ahead]

/-- A step of another thread leaves a ready one so or lets it run, unless a message has started it
over at an entry that it cannot leave, where it is done. -/
theorem ready_applyStep (program : t.isObserver = false) (gives : w.GivesWay)
    (found : threads[place]? = some w) (ready : w.status = .yield) :
    ∃ u, next[place]? = some u ∧ (u.status = .yield ∨ u.runsProgram = true ∨
      u = { w.restart with status := .done } ∧ task.hasLeaving w.restart = .ok false) := by
  have runs : t.runsProgram = true := turn.cases.2.resolve_left (by simp [program])
  have away : place ≠ index := by
    rintro rfl
    exact Thread.ne_of_runs (Bool.and_eq_true_iff.1 runs).2 ready
      (Option.some.inj (turn.found.symm.trans found))
  obtain ⟨x, v, u, receives, observes, ⟨y, settles, picked⟩, there⟩ :=
    applyStep_other given turn.found away found
  have received := gives.receives receives
  obtain rfl := received.eq_of_observes observes
  have waits : v.status = .yield := by
    rcases receives with rfl | ⟨_, rfl⟩
    · exact ready
    · rfl
  refine ⟨u, there, ?_⟩
  rcases settles.of_ready waits with rfl | ⟨stuck, rfl⟩
  · rcases picked with rfl | ⟨_, rfl⟩
    · exact Or.inl waits
    · refine Or.inr (Or.inl (Bool.and_eq_true_iff.2 ⟨?_, isRunning_startThread⟩))
      exact (congrArg (!·) received.program : (!y.isObserver) = true)
  · rcases picked with rfl | ⟨again, _⟩
    · rcases receives with rfl | ⟨_, rfl⟩
      · have active : v.status.isActive = true := by
          rw [ready]
          rfl
        cases (orderly.hasLeaving (List.mem_of_getElem? found) active).symm.trans stuck
      · exact Or.inr (Or.inr ⟨rfl, stuck⟩)
    · simp [Thread.isReady] at again

end Task

/-! ### Runs -/

namespace Control

variable {σ : Type} {a : LabeledAnalysis σ} {analysis : Analysis (ControlState σ)}
variable {s t : ControlState σ} {count : Nat}

/-- So many steps lead from the first state to the second one, and the thread at the place is ready
in all states on the way. -/
inductive StaysReady (analysis : Analysis (ControlState σ)) (place : Nat) (s : ControlState σ) :
    ControlState σ → Nat → Prop
  | start {thread : Thread} (found : s.threads[place]? = some thread)
    (ready : thread.status = .yield) : StaysReady analysis place s s 0
  | step {t next : ControlState σ} {thread : Thread} {count : Nat}
    (earlier : StaysReady analysis place s t count) (successor : analysis.Successor t next)
    (found : next.threads[place]? = some thread) (ready : thread.status = .yield) :
    StaysReady analysis place s next (count + 1)

theorem StaysReady.exists_ready (stays : StaysReady analysis place s t count) :
    ∃ thread, t.threads[place]? = some thread ∧ thread.status = .yield := by
  cases stays with
  | start found ready => exact ⟨_, found, ready⟩
  | step _ _ found ready => exact ⟨_, found, ready⟩

/-- With every step the turn of the place comes nearer. -/
theorem StaysReady.exists_runsBefore (accepted : task.Accepted)
    (interruptible : task.Interruptible) (reachable : (a.scheduled task policy).Reachable s)
    (stays : StaysReady (a.scheduled task policy) place s t count) :
    (a.scheduled task policy).Reachable t ∧ ∃ distance,
      Task.RunsBefore t.threads place distance ∧ distance + count < s.threads.length := by
  -- the distance at the start is less than the number of threads, which stays the same
  suffices (a.scheduled task policy).Reachable t ∧ t.threads.length = s.threads.length ∧
      ∃ distance, Task.RunsBefore t.threads place distance ∧
        distance + count < s.threads.length from ⟨this.1, this.2.2⟩
  induction stays with
  | start found ready =>
    have gives := givesWay_reachable interruptible reachable _ (List.mem_of_getElem? found)
    obtain ⟨distance, before⟩ :=
      (orderly_reachable accepted reachable).exists_runsBefore found (gives.isReady ready)
    exact ⟨reachable, rfl, distance, before, before.bounded⟩
  | @step t next thread count _ successor found ready ih =>
    obtain ⟨later, length, distance, before, bound⟩ := ih
    have reached := later.later (.single successor)
    obtain ⟨index, stepper, turn⟩ := exists_hasTurn successor
    obtain ⟨step, applied⟩ := exists_applyStep successor turn
    have member := List.mem_of_getElem? turn.found
    obtain ⟨closer, less, nearer⟩ := before.of_applyStep (orderly_reachable accepted later) turn
      applied (Task.agrees_reachable later _ member)
      (givesWay_reachable interruptible later _ member).program
      (givesWay_reachable interruptible reached) found ready
    exact ⟨reached, (Task.length_applyStep applied turn.found).trans length, closer, nearer,
      by omega⟩

/-- A thread that is ready stays so for fewer steps than there are other threads. Then it runs,
unless a message has started it over at an entry that it cannot leave. -/
structure TakesTurns (analysis : Analysis (ControlState σ)) (task : Task)
    (s : ControlState σ) : Prop where
  bounded : ∀ place t count, StaysReady analysis place s t count → count + 2 ≤ s.threads.length
  follows : ∀ place t count next, StaysReady analysis place s t count →
    analysis.Successor t next →
    StaysReady analysis place s next (count + 1) ∨
      ∃ w u, t.threads[place]? = some w ∧ next.threads[place]? = some u ∧
        (u.runsProgram = true ∨
          u = { w.restart with status := .done } ∧ task.hasLeaving w.restart = .ok false)

end Control

/-- Round robin overtakes nobody. -/
theorem takesTurns_of_reachable {σ : Type} {a : LabeledAnalysis σ} {options : ControlOptions}
    {analysis : Analysis (ControlState σ)} {s : ControlState σ} (accepted : task.Accepted)
    (interruptible : task.Interruptible) (wrapped : a.withControl task options = .ok analysis)
    (reachable : analysis.Reachable s) : Control.TakesTurns analysis task s := by
  obtain rfl := LabeledAnalysis.withControl_eq_ok wrapped
  constructor
  · intro place t count stays
    obtain ⟨_, distance, before, bound⟩ := stays.exists_runsBefore accepted interruptible reachable
    have positive := before.positive
    omega
  · intro place t count next stays successor
    obtain ⟨later, _⟩ := stays.exists_runsBefore accepted interruptible reachable
    obtain ⟨w, found, ready⟩ := stays.exists_ready
    obtain ⟨index, stepper, turn⟩ := Control.exists_hasTurn successor
    obtain ⟨step, applied⟩ := Control.exists_applyStep successor turn
    have gives := Control.givesWay_reachable interruptible later
    obtain ⟨u, there, still | goesOn⟩ :=
      Task.ready_applyStep (Control.orderly_reachable accepted later) turn applied
        (gives _ (List.mem_of_getElem? turn.found)).program
        (gives w (List.mem_of_getElem? found)) found ready
    · exact Or.inl (.step stays successor there still)
    · exact Or.inr ⟨w, u, found, there, goesOn⟩

/-! ### Three scripts in turn -/

def threeScripts : Except Error Task := do
  let first ← ControlFlow.ofTransitions [0] [(0, 1, 1), (1, 1, 2)]
  let second ← ControlFlow.ofTransitions [10] [(10, 1, 11), (11, 1, 12)]
  let third ← ControlFlow.ofTransitions [20] [(20, 1, 21), (21, 1, 22)]
  let actor ← Actor.addScript { name := "A" } { id := 0, event := .bootstrap, flow := first }
  let actor ← actor.addScript { id := 1, event := .bootstrap, flow := second }
  let actor ← actor.addScript { id := 2, event := .bootstrap, flow := third }
  Task.create "t" [actor] [⟨1, .nop⟩]

theorem accepted_threeScripts (created : threeScripts = .ok task) : task.Accepted := by
  obtain ⟨first, flow, created⟩ := bind_eq_ok_iff.1 created
  obtain ⟨second, flow', created⟩ := bind_eq_ok_iff.1 created
  obtain ⟨third, flow'', created⟩ := bind_eq_ok_iff.1 created
  obtain ⟨one, added, created⟩ := bind_eq_ok_iff.1 created
  obtain ⟨two, added', created⟩ := bind_eq_ok_iff.1 created
  obtain ⟨actor, added'', created⟩ := bind_eq_ok_iff.1 created
  refine ⟨_, _, _, ?_, created⟩
  intro other member
  obtain rfl := List.mem_singleton.1 member
  exact .script (.script (.script .empty (ControlFlow.built_ofTransitions flow) added)
    (ControlFlow.built_ofTransitions flow') added') (ControlFlow.built_ofTransitions flow'') added''

/-- Whether the program has three threads and no observers or atomic methods, and a step leaves
the last thread ready. -/
def leavesThirdReady (task : Task) (s : ControlState Formula) : Bool :=
  task.isInterruptible && s.threads.length == 3 && s.threads[2]?.any (·.status == .yield) &&
    match (((symbolicMemory .sep).scheduled task .approximate).successors s).outcome {} with
    | (.ok (next :: _), _) => next.threads[2]?.any (·.status == .yield)
    | _ => false

theorem comesTo_threeScripts : Control.comesTo threeScripts 0 leavesThirdReady = true := by
  decide +kernel

/-- Two threads go before the third one, which thus stays ready for one step. -/
theorem exists_takesTurns : ∃ (task : Task) (analysis : Analysis (ControlState Formula))
    (s t : ControlState Formula), task.Accepted ∧ task.Interruptible ∧
      (symbolicMemory .sep).withControl task {} = .ok analysis ∧ analysis.Reachable s ∧
      s.threads.length = 3 ∧ Control.StaysReady analysis 2 s t 1 ∧
      Control.TakesTurns analysis task s := by
  obtain ⟨task, s, created, reachable, holds⟩ := Control.exists_of_comesTo comesTo_threeScripts
  obtain ⟨holds, follows⟩ := Bool.and_eq_true_iff.1 holds
  obtain ⟨holds, first⟩ := Bool.and_eq_true_iff.1 holds
  obtain ⟨plain, three⟩ := Bool.and_eq_true_iff.1 holds
  have accepted := accepted_threeScripts created
  have interruptible := Task.isInterruptible_iff.1 plain
  obtain ⟨thread, found, ready⟩ := Option.any_eq_true _ _ |>.1 first
  split at follows
  · rename_i next rest after stepped
    obtain ⟨later, there, still⟩ := Option.any_eq_true _ _ |>.1 follows
    refine ⟨task, _, s, next, accepted, interruptible, rfl, reachable, eq_of_beq three,
      .step (.start found (eq_of_beq ready)) ⟨{}, next :: rest, after, stepped, by simp⟩ there
        (eq_of_beq still), takesTurns_of_reachable accepted interruptible
      (show (symbolicMemory .sep).withControl task {} = .ok _ from rfl) reachable⟩
  · cases follows

end EventCheck
