import EventCheck.Proofs.Execution
import EventCheck.Proofs.Runs

/-!
Threads along the steps of the scheduler. The variables for the results of the methods that a
thread is in come from the calls of the task, so what a step executes is made of what the task is
made of.
-/

namespace EventCheck

/-- The results of the methods that the thread is in go to such variables. -/
def Thread.Returns (target : Variable → Prop) (t : Thread) : Prop :=
  ∀ call ∈ t.calls, ∀ v, call.result = some v → target v

/-- The results of all methods that threads are in go to such variables. -/
def AllReturn (target : Variable → Prop) (threads : List Thread) : Prop :=
  ∀ t ∈ threads, t.Returns target

variable {target : Variable → Prop} {source : Expression → Prop} {task : Task}
variable {t u : Thread} {threads next : List Thread}

namespace Thread

theorem Returns.of_subset (subset : u.calls ⊆ t.calls) (returns : t.Returns target) :
    u.Returns target := fun call member => returns call (subset member)

@[simp] theorem calls_fail {properties : SortedSet Property} :
    (t.fail properties).calls = t.calls := rfl

@[simp] theorem calls_waitFor {ids : SortedSet Nat} : (t.waitFor ids).calls = t.calls := rfl

@[simp] theorem calls_restart : t.restart.calls = [] := rfl

theorem calls_popCall : t.popCall.calls ⊆ t.calls := by
  unfold popCall
  split
  · exact List.Subset.refl _
  · rename_i same
    rw [same]
    exact List.subset_cons_self _ _

/-- The second thread differs from the first in nothing but its status and what it waits for. -/
def Alike (t u : Thread) : Prop := ∃ status waitingFor, u = { t with status, waitingFor }

theorem Alike.refl (t : Thread) : t.Alike t := ⟨_, _, rfl⟩

theorem Alike.trans {w : Thread} (first : t.Alike u) (second : u.Alike w) : t.Alike w := by
  obtain ⟨_, _, rfl⟩ := first
  obtain ⟨_, _, rfl⟩ := second
  exact ⟨_, _, rfl⟩

theorem alike_release {finished : SortedSet Nat} : t.Alike (t.release finished) := by
  unfold release
  split
  · exact .refl t
  · dsimp only
    split <;> exact ⟨_, _, rfl⟩

theorem forall₂_alike_refl : List.Forall₂ Alike threads threads :=
  List.forall₂_same.2 fun t _ => .refl t

theorem forall₂_alike_trans {last : List Thread} (first : List.Forall₂ Alike threads next)
    (second : List.Forall₂ Alike next last) : List.Forall₂ Alike threads last :=
  forall₂_comp (fun _ _ _ one two => one.trans two) first second

end Thread

namespace AllReturn

theorem imp {target' : Variable → Prop} (weaker : ∀ v, target v → target' v)
    (all : AllReturn target threads) : AllReturn target' threads :=
  fun t member call inside v same => weaker v (all t member call inside v same)

theorem alike (same : List.Forall₂ Thread.Alike threads next) (all : AllReturn target threads) :
    AllReturn target next := by
  intro u member
  obtain ⟨t, inside, _, _, rfl⟩ := exists_left_of_mem same member
  exact all t inside

theorem modify {f : Thread → Thread} {index : Nat} (all : AllReturn target threads)
    (keeps : ∀ t, threads[index]? = some t → (f t).Returns target) :
    AllReturn target (threads.modify index f) := by
  intro u member
  obtain ⟨i, found⟩ := List.mem_iff_getElem?.1 member
  rw [List.getElem?_modify] at found
  obtain ⟨t, before, same⟩ := Option.map_eq_some_iff.1 found
  split at same
  · rename_i here
    subst same
    exact keeps t (here ▸ before)
  · subst same
    exact all _ (List.mem_of_getElem? before)

theorem set {index : Nat} (all : AllReturn target threads) (returns : u.Returns target) :
    AllReturn target (threads.set index u) := by
  intro w member
  rcases List.mem_or_eq_of_mem_set member with member | rfl
  · exact all w member
  · exact returns

end AllReturn

namespace Task

theorem mapThreads_eq_ok_iff {f : Thread → Except Error Thread} :
    mapThreads f threads = .ok next ↔ List.Forall₂ (fun t u => f t = .ok u) threads next := by
  induction threads generalizing next with
  | nil =>
    cases next <;> simp [mapThreads]
  | cons t rest ih =>
    simp only [mapThreads, bind_eq_ok_iff, pure_eq_ok_iff, ih]
    constructor
    · rintro ⟨u, first, others, later, rfl⟩
      exact .cons first later
    · rintro (_ | ⟨first, later⟩)
      exact ⟨_, first, _, later, rfl⟩

theorem allReturn_mapThreads {f : Thread → Except Error Thread}
    (keeps : ∀ t u, f t = .ok u → u.calls ⊆ t.calls) (given : mapThreads f threads = .ok next)
    (all : AllReturn target threads) : AllReturn target next := by
  intro u member
  obtain ⟨t, inside, changed⟩ := exists_left_of_mem (mapThreads_eq_ok_iff.1 given) member
  exact (all t inside).of_subset (keeps t u changed)

/-! ### Settling and scheduling -/

theorem alike_finishStuck (finished : task.finishStuck t = .ok u) : t.Alike u := by
  unfold finishStuck at finished
  split at finished
  · obtain ⟨b, _, rest⟩ := bind_eq_ok_iff.1 finished
    obtain rfl := pure_eq_ok_iff.1 rest
    split
    · exact .refl t
    · exact ⟨_, _, rfl⟩
  · obtain rfl := Except.ok.inj finished
    exact .refl t

theorem alike_settleRound (round : task.settleRound threads = .ok next) :
    List.Forall₂ Thread.Alike threads next := by
  obtain ⟨middle, finished, rest⟩ := bind_eq_ok_iff.1 round
  obtain rfl := pure_eq_ok_iff.1 rest
  rw [List.forall₂_map_right_iff]
  exact (mapThreads_eq_ok_iff.1 finished).imp
    fun _ _ changed => (alike_finishStuck changed).trans Thread.alike_release

/-- Settling changes nothing but who is ready and who waits. -/
theorem alike_settle (settled : task.settle threads = .ok next) :
    List.Forall₂ Thread.Alike threads next := by
  fun_induction Task.settle task threads with
  | case1 => cases settled
  | case2 threads round =>
    obtain rfl := Except.ok.inj settled
    exact Thread.forall₂_alike_refl
  | case3 threads middle round _ ih =>
    exact Thread.forall₂_alike_trans (alike_settleRound round) (ih settled)

theorem alike_schedule {index : Nat} :
    List.Forall₂ Thread.Alike threads (schedule threads index) := by
  unfold schedule
  split
  · exact Thread.forall₂_alike_refl
  · split
    · exact forall₂_modify Thread.Alike.refl fun t _ => ⟨_, _, rfl⟩
    · exact Thread.forall₂_alike_refl

theorem alike_startThreads (given : task.startThreads threads = .ok next) :
    List.Forall₂ Thread.Alike threads next := by
  unfold startThreads at given
  obtain ⟨settled, settles, given⟩ := bind_eq_ok_iff.1 given
  obtain ⟨_, _, built⟩ := bind_eq_ok_iff.1 given
  obtain rfl := pure_eq_ok_iff.1 built
  exact Thread.forall₂_alike_trans (alike_settle settles) alike_schedule

/-! ### Steps -/

/-- The step executes such statements only, and enters no other methods. -/
structure Follows (target : Variable → Prop) (source : Expression → Prop) (step : Step) : Prop where
  operations : ∀ operation ∈ step.operations, operation.2.Uses target source
  kind : ∀ call, step.kind = .call call → ∀ v, call.result = some v → target v

theorem mem_of_actor {name : String} {actor : Actor} (found : task.actor name = .ok actor) :
    actor ∈ task.actors := by
  unfold Task.actor at found
  split at found
  · rename_i other same
    obtain rfl := Except.ok.inj found
    exact List.mem_of_find?_eq_some same
  · cases found

theorem get?_of_method {actor : Actor} {name : String} {method : Method}
    (found : actor.method name = .ok method) : actor.methods.get? name = some method := by
  unfold Actor.method at found
  split at found
  · rename_i other same
    obtain rfl := Except.ok.inj found
    exact same
  · cases found

theorem get?_of_operation {id : Nat} {operation : Operation}
    (found : task.operation id = .ok operation) : task.operations.get? id = some operation := by
  unfold Task.operation at found
  split at found
  · rename_i other same
    obtain rfl := Except.ok.inj found
    exact same
  · cases found

/-- The exit leaves the thread's location over an operation with the statement. -/
structure LeavesOver (task : Task) (t : Thread) (exit : Exit) (statement : Statement) : Prop where
  among : ∃ flow exits, task.flowOf t = .ok flow ∧ flow.exits t.location = .ok exits ∧ exit ∈ exits
  operation : ∃ operation, task.operation exit.operation = .ok operation ∧
    operation.statement = statement

/-- How a step that the thread can take comes about. -/
inductive Offers (task : Task) (t : Thread) : Step → Prop
  /-- A call enters the method that it names. -/
  | enter {exit : Exit} {method : String} {arguments : List Expression} {result : Option Variable}
    {actor : Actor} {callee : Method} {entry : Location}
    (leaves : LeavesOver task t exit (.call method arguments result))
    (found : task.actor (calleeName t.actor method).1 = .ok actor)
    (named : actor.method (calleeName t.actor method).2 = .ok callee)
    (arity : callee.parameters.length = arguments.length)
    (entered : entry ∈ callee.flow.entries) :
    Offers task t
      { operations := (some exit.operation, .call method arguments result) ::
          (callee.parameters.zip arguments).map fun (v, e) => (none, .assign v e)
        target := entry
        kind := .call { callFrom := t.location, returnTo := exit.target,
                        actor := (calleeName t.actor method).1,
                        method := (calleeName t.actor method).2, result, atomic := callee.atomic }
        effect := .call method arguments result }
  /-- Outside of all methods a return leaves the script. -/
  | finish {exit : Exit} {value : Option Expression}
    (leaves : LeavesOver task t exit (.return value)) (outside : t.calls = []) :
    Offers task t { operations := [(some exit.operation, .return value)], target := exit.target,
                    kind := .finish, effect := .return value }
  /-- A return out of a method whose result is not wanted. -/
  | leave {exit : Exit} {value : Option Expression} {call : Call} {calls : List Call}
    (leaves : LeavesOver task t exit (.return value)) (inside : t.calls = call :: calls) :
    Offers task t { operations := [(some exit.operation, .return value)], target := call.returnTo,
                    kind := .return, effect := .return value }
  /-- A return assigns the result. -/
  | pass {exit : Exit} {v : Variable} {e : Expression} {call : Call} {calls : List Call}
    (leaves : LeavesOver task t exit (.return (some e))) (inside : t.calls = call :: calls)
    (result : call.result = some v) :
    Offers task t
      { operations := [(some exit.operation, .return (some e)), (none, .assign v e)]
        target := call.returnTo, kind := .return, effect := .return (some e) }
  /-- At its end a method returns without a value. -/
  | fallOff {call : Call} {calls : List Call} (inside : t.calls = call :: calls) :
    Offers task t { operations := [(none, .nop)], target := call.returnTo, kind := .return,
                    effect := .nop }
  | plain {exit : Exit} {statement : Statement} (leaves : LeavesOver task t exit statement) :
    Offers task t (.plain exit.operation statement exit.target)

theorem offers_of_callSteps {exit : Exit} {method : String} {arguments : List Expression}
    {result : Option Variable} {steps : List Step} {step : Step}
    (leaves : task.LeavesOver t exit (.call method arguments result))
    (given : task.callSteps t exit (.call method arguments result) method arguments result =
      .ok steps) (member : step ∈ steps) : task.Offers t step := by
  unfold callSteps at given
  dsimp only at given
  obtain ⟨actor, found, given⟩ := bind_eq_ok_iff.1 given
  obtain ⟨callee, named, given⟩ := bind_eq_ok_iff.1 given
  split at given
  · cases given
  · rename_i arity
    split at given
    · cases given
    · obtain rfl := pure_eq_ok_iff.1 given
      obtain ⟨entry, entered, rfl⟩ := List.mem_map.1 member
      exact .enter leaves found named (not_not.1 arity) entered

theorem offers_of_returnStep {exit : Exit} {value : Option Expression} {step : Step}
    (leaves : task.LeavesOver t exit (.return value))
    (given : returnStep t exit (.return value) value = .ok step) : task.Offers t step := by
  unfold returnStep at given
  split at given
  · rename_i outside
    obtain rfl := Except.ok.inj given
    exact .finish leaves outside
  · rename_i call calls inside
    dsimp only at given
    split at given
    · rename_i v e result
      obtain ⟨assignment, same, built⟩ := bind_eq_ok_iff.1 given
      obtain rfl := pure_eq_ok_iff.1 same
      obtain rfl := pure_eq_ok_iff.1 built
      exact .pass leaves inside result
    · obtain ⟨assignment, thrown, _⟩ := bind_eq_ok_iff.1 given
      cases thrown
    · obtain ⟨assignment, same, built⟩ := bind_eq_ok_iff.1 given
      obtain rfl := pure_eq_ok_iff.1 same
      obtain rfl := pure_eq_ok_iff.1 built
      exact .leave leaves inside

theorem offers_of_leavingSteps {steps : List Step} {step : Step}
    (given : task.leavingSteps t = .ok steps) (member : step ∈ steps) : task.Offers t step := by
  unfold leavingSteps at given
  obtain ⟨flow, flows, given⟩ := bind_eq_ok_iff.1 given
  obtain ⟨exits, known, given⟩ := bind_eq_ok_iff.1 given
  split at given
  · split at given
    · rename_i inside
      obtain rfl := pure_eq_ok_iff.1 given
      obtain rfl := List.mem_singleton.1 member
      exact .fallOff inside
    · obtain rfl := pure_eq_ok_iff.1 given
      simp at member
  · obtain ⟨lists, built, rest⟩ := bind_eq_ok_iff.1 given
    obtain rfl := pure_eq_ok_iff.1 rest
    obtain ⟨list, inside, listed⟩ := List.mem_flatten.1 member
    obtain ⟨exit, among, offered⟩ := exists_left_of_mem (mapM_eq_ok_iff.1 built) inside
    unfold exitSteps at offered
    obtain ⟨operation, found, offered⟩ := bind_eq_ok_iff.1 offered
    have leaves : task.LeavesOver t exit operation.statement :=
      ⟨⟨flow, exits, flows, known, among⟩, operation, found, rfl⟩
    dsimp only at offered
    split at offered
    · rename_i same
      rw [same] at offered leaves
      exact offers_of_callSteps leaves offered listed
    · rename_i same
      rw [same] at offered leaves
      obtain ⟨only, returns, rest⟩ := bind_eq_ok_iff.1 offered
      obtain rfl := pure_eq_ok_iff.1 rest
      obtain rfl := List.mem_singleton.1 listed
      exact offers_of_returnStep leaves returns
    · obtain rfl := pure_eq_ok_iff.1 offered
      obtain rfl := List.mem_singleton.1 listed
      exact .plain leaves

theorem LeavesOver.uses {exit : Exit} {statement : Statement} (uses : task.Uses target source)
    (leaves : task.LeavesOver t exit statement) : statement.Uses target source := by
  obtain ⟨_, operation, found, rfl⟩ := leaves
  exact uses.operations _ operation (get?_of_operation found)

/-- What a thread can do is made of what the task is made of. -/
theorem follows_of_leavingSteps {steps : List Step} {step : Step} (uses : task.Uses target source)
    (returns : t.Returns target) (given : task.leavingSteps t = .ok steps)
    (member : step ∈ steps) : Follows target source step := by
  cases offers_of_leavingSteps given member with
  | @enter exit method arguments result actor callee entry leaves found named _ _ =>
    have calls := leaves.uses uses
    have parameters := uses.parameters actor (mem_of_actor found) _ callee (get?_of_method named)
    constructor
    · intro operation inside
      rcases List.mem_cons.1 inside with rfl | inside
      · exact calls
      · obtain ⟨⟨v, e⟩, zipped, rfl⟩ := List.mem_map.1 inside
        exact ⟨parameters v (List.of_mem_zip zipped).1, calls.1 e (List.of_mem_zip zipped).2⟩
    · rintro call ⟨⟩
      exact calls.2
  | finish leaves _ | leave leaves _ =>
    exact ⟨by simpa using leaves.uses uses, nofun⟩
  | @pass exit v e call calls leaves inside result =>
    have statement := leaves.uses uses
    have value : source e := statement e rfl
    have written : target v := returns call (inside ▸ List.mem_cons_self) v result
    exact ⟨by simp [Statement.Uses, value, written], nofun⟩
  | fallOff _ => exact ⟨by simp [Statement.Uses], nofun⟩
  | plain leaves => exact ⟨by simpa [Step.plain] using leaves.uses uses, nofun⟩

theorem returns_move {step : Step} (follows : Follows target source step)
    (returns : t.Returns target) : (move step t).Returns target := by
  unfold move
  dsimp only
  split
  · exact returns
  · exact returns
  · rename_i call kind
    have entered : ({ t with location := step.target }.pushCall call).Returns target := by
      intro other member
      rcases List.mem_cons.1 member with rfl | member
      · exact follows.kind _ kind
      · exact returns other member
    split <;> exact entered
  · have left : ({ t with location := step.target }.popCall).Returns target :=
      Thread.Returns.of_subset Thread.calls_popCall returns
    split <;> exact left

/-! ### Effects -/

theorem allReturn_trigger {sender : Nat} {message : String} {entries : List (Thread × Nat)}
    {result : List Thread × SortedSet Nat} (given : task.trigger sender message entries = .ok result)
    (all : ∀ entry ∈ entries, entry.1.Returns target) : AllReturn target result.1 := by
  induction entries generalizing result with
  | nil =>
    obtain rfl := Except.ok.inj given
    simp [AllReturn]
  | cons entry rest ih =>
    obtain ⟨t, index⟩ := entry
    have later := fun entry member => all entry (List.mem_cons_of_mem _ member)
    have here : t.Returns target := all (t, index) (by simp)
    have added : ∀ {u : Thread} {threads}, u.Returns target → AllReturn target threads →
        AllReturn target (u :: threads) := fun first others w member => by
      rcases List.mem_cons.1 member with rfl | member
      · exact first
      · exact others w member
    unfold trigger at given
    split at given
    · obtain ⟨⟨threads, started⟩, found, built⟩ := bind_eq_ok_iff.1 given
      obtain rfl := pure_eq_ok_iff.1 built
      exact added here (ih found later)
    · obtain ⟨script, _, given⟩ := bind_eq_ok_iff.1 given
      obtain ⟨⟨threads, started⟩, found, built⟩ := bind_eq_ok_iff.1 given
      obtain rfl := pure_eq_ok_iff.1 built
      split
      · exact added (by simp [Thread.Returns]) (ih found later)
      · exact added here (ih found later)

theorem messageOf_eq_ok {e : Expression} {text : String} (given : messageOf e = .ok text) :
    e = .const (.str text) := by
  unfold messageOf at given
  split at given
  · rw [Except.ok.inj given]
  · cases given

/-- The effect of a statement makes the thread that steps fail, or sends a message for whose
receivers the sender may wait, or does nothing. -/
theorem applyEffect_cases {policy : WaitPolicy} {index : Nat} {effect : Statement}
    (given : task.applyEffect policy threads index effect = .ok next) :
    next = threads ∨
      (∃ properties, effect = .signalFailure properties ∧
        next = threads.modify index (·.fail properties)) ∨
      ∃ text result, task.trigger index text threads.zipIdx = .ok result ∧
        (next = result.1 ∨ effect = .broadcastAndWait (.const (.str text)) ∧ result.2 ≠ ∅ ∧
          next = result.1.modify index (·.waitFor result.2)) := by
  cases effect with
  | signalFailure properties =>
    exact Or.inr (Or.inl ⟨properties, rfl, (Except.ok.inj given).symm⟩)
  | broadcast message =>
    obtain ⟨text, _, given⟩ := bind_eq_ok_iff.1 given
    obtain ⟨result, sent, built⟩ := bind_eq_ok_iff.1 given
    exact Or.inr (Or.inr ⟨text, result, sent, Or.inl (pure_eq_ok_iff.1 built).symm⟩)
  | broadcastAndWait message =>
    obtain ⟨text, constant, given⟩ := bind_eq_ok_iff.1 given
    obtain ⟨⟨changed, started⟩, sent, built⟩ := bind_eq_ok_iff.1 given
    obtain rfl := pure_eq_ok_iff.1 built
    obtain rfl := messageOf_eq_ok constant
    refine Or.inr (Or.inr ⟨text, (changed, started), sent, ?_⟩)
    by_cases nobody : started = ∅
    · exact Or.inl (if_pos (SortedSet.isEmpty_iff.2 nobody))
    · exact Or.inr ⟨rfl, nobody, if_neg (mt SortedSet.isEmpty_iff.1 nobody)⟩
  | waitUntil _ | waitSecs _ =>
    cases policy with
    | approximate => exact Or.inl (Except.ok.inj given).symm
    | reject => cases given
  | declare _ | assign _ _ | assume _ | call _ _ _ | «return» _ | nop =>
    exact Or.inl (Except.ok.inj given).symm

theorem allReturn_applyEffect {policy : WaitPolicy} {index : Nat} {effect : Statement}
    (given : task.applyEffect policy threads index effect = .ok next)
    (all : AllReturn target threads) : AllReturn target next := by
  have entries : ∀ entry ∈ threads.zipIdx, entry.1.Returns target := fun entry member =>
    all _ (List.fst_mem_of_mem_zipIdx member)
  have same : ∀ {f : Thread → Thread} {threads}, AllReturn target threads →
      (∀ t, (f t).calls = t.calls) → AllReturn target (threads.modify index f) :=
    fun all keeps => all.modify fun t found =>
      (all t (List.mem_of_getElem? found)).of_subset (by rw [keeps]; exact List.Subset.refl _)
  rcases applyEffect_cases given with rfl | ⟨_, _, rfl⟩ | ⟨text, result, sent, rfl | ⟨_, _, rfl⟩⟩
  · exact all
  · exact same all fun _ => rfl
  · exact allReturn_trigger sent entries
  · exact same (allReturn_trigger sent entries) fun _ => rfl

theorem calls_restartObserver (restarted : task.restartObserver t = .ok u) :
    u.calls ⊆ t.calls := by
  unfold restartObserver at restarted
  split at restarted
  · obtain ⟨script, _, rest⟩ := bind_eq_ok_iff.1 restarted
    obtain rfl := pure_eq_ok_iff.1 rest
    split
    · exact List.nil_subset _
    · exact List.Subset.refl _
  · obtain rfl := Except.ok.inj restarted
    exact List.Subset.refl _

/-- After a step the results of methods still go to such variables. -/
theorem allReturn_applyStep {policy : WaitPolicy} {index : Nat} {step : Step}
    (follows : Follows target source step)
    (given : task.applyStep policy threads index step = .ok next)
    (all : AllReturn target threads) : AllReturn target next := by
  unfold applyStep at given
  obtain ⟨changed, effect, given⟩ := bind_eq_ok_iff.1 given
  have after : AllReturn target changed := allReturn_applyEffect effect
    (all.modify fun t found => returns_move follows (all t (List.mem_of_getElem? found)))
  split at given
  · obtain rfl := pure_eq_ok_iff.1 given
    exact after
  · rename_i stepped found
    obtain ⟨status, _, given⟩ := bind_eq_ok_iff.1 given
    have here : AllReturn target (changed.set index { stepped with status }) :=
      after.set (after stepped (List.mem_of_getElem? found))
    -- the threads settle whether or not observers have been started over
    have resumed : ∀ restarted, AllReturn target restarted →
        (do let settled ← task.settle restarted
            task.checkSchedule (schedule settled index)
            pure (schedule settled index)) = .ok next → AllReturn target next := by
      intro restarted all given
      obtain ⟨settled, settles, given⟩ := bind_eq_ok_iff.1 given
      obtain ⟨_, _, built⟩ := bind_eq_ok_iff.1 given
      obtain rfl := pure_eq_ok_iff.1 built
      exact AllReturn.alike (Thread.forall₂_alike_trans (alike_settle settles) alike_schedule) all
    dsimp only at given
    split at given
    · exact resumed _ here given
    · obtain ⟨restarted, observers, given⟩ := bind_eq_ok_iff.1 given
      exact resumed _ (allReturn_mapThreads (fun _ _ => calls_restartObserver) observers here) given

theorem allReturn_startThreads {first : Nat}
    (given : task.startThreads (task.newThreads first) = .ok next) : AllReturn target next := by
  refine AllReturn.alike (alike_startThreads given) fun t member => ?_
  obtain ⟨entry, _, rfl⟩ := List.mem_map.1 member
  simp [Thread.Returns]

/-- At the start no thread has reported a violation. -/
theorem failedFor_startThreads {first : Nat}
    (given : task.startThreads (task.newThreads first) = .ok next) :
    ∀ t ∈ next, t.failedFor = ∅ := by
  intro t member
  obtain ⟨u, inside, _, _, rfl⟩ := exists_left_of_mem (alike_startThreads given) member
  obtain ⟨entry, _, rfl⟩ := List.mem_map.1 inside
  rfl

end Task

end EventCheck
