import EventCheck.Proofs.Building
import EventCheck.Proofs.Stages

/-!
Where threads are. A thread stands at a location of the control flow that it is in, and each
method that it is in returns to a location of what it was called from. Names and locations that
threads hold are therefore found in the task, so that no lookup of the scheduler fails.
-/

namespace EventCheck

/-! ### Errors -/

/-- All errors of the computation are such errors. -/
def FailsWith {α : Type} (allowed : Error → Prop) (x : Except Error α) : Prop :=
  ∀ e, x = .error e → allowed e

namespace FailsWith

variable {α β : Type} {allowed : Error → Prop} {x : Except Error α} {f : α → Except Error β}

theorem ok {a : α} : FailsWith allowed (.ok a : Except Error α) := nofun

theorem of_ok {a : α} (given : x = .ok a) : FailsWith allowed x := given ▸ ok

theorem error {e : Error} (fine : allowed e) : FailsWith allowed (.error e : Except Error α) := by
  rintro _ ⟨⟩
  exact fine

theorem bind (first : FailsWith allowed x) (later : ∀ a, x = .ok a → FailsWith allowed (f a)) :
    FailsWith allowed (x >>= f) := by
  intro e raised
  cases run : x with
  | error other =>
    rw [run] at raised
    cases raised
    exact first _ run
  | ok a =>
    rw [run] at raised
    exact later a run e raised

theorem mapM {elements : List α} (each : ∀ a ∈ elements, FailsWith allowed (f a)) :
    FailsWith allowed (elements.mapM f) := by
  induction elements with
  | nil => exact ok
  | cons a rest ih =>
    rw [List.mapM_cons]
    refine (each a (by simp)).bind fun b _ => ?_
    refine (ih fun c member => each c (by simp [member])).bind fun _ _ => ok

theorem mapThreads {change : Thread → Except Error Thread} {threads : List Thread}
    (each : ∀ t ∈ threads, FailsWith allowed (change t)) :
    FailsWith allowed (Task.mapThreads change threads) := by
  induction threads with
  | nil => exact ok
  | cons t rest ih =>
    refine (each t (by simp)).bind fun b _ => ?_
    exact (ih fun u member => each u (by simp [member])).bind fun _ _ => ok

end FailsWith

/-- The error says that the scheduler does not keep its own rules: threads run that must not, or
something that threads refer to is not in the task. -/
def Error.Internal (e : Error) : Prop :=
  e.kind = .invariantViolation ∨ e.kind = .vertexNotFound ∨ e.kind = .scriptNotFound ∨
    e.kind = .operationNotFound

instance : DecidablePred Error.Internal := fun e => by unfold Error.Internal; infer_instance

namespace Task

variable {task : Task} {policy : WaitPolicy} {threads next : List Thread} {t u : Thread}
variable {index : Nat} {step : Step} {location : Location} {flow : ControlFlow}

/-! ### Locations -/

/-- The control flow that the thread is in has the location. -/
def Inside (task : Task) (t : Thread) (location : Location) : Prop :=
  ∃ flow, task.flowOf t = .ok flow ∧ flow.hasLocation location = true

/-- Within these calls the thread could be at the location, and each call returns to a location
where the thread can be then. -/
def Within (task : Task) (t : Thread) : List Call → Location → Prop
  | [], location => task.Inside { t with calls := [] } location
  | call :: calls, location =>
    task.Inside { t with calls := call :: calls } location ∧ task.Within t calls call.returnTo

/-- The scopes of a thread of the actor within the calls. -/
def scopesOf (actor : String) (calls : List Call) : List String :=
  calls.map (fun call => call.actor ++ "." ++ call.method) ++ [actor]

/-- The thread starts and stands where its control flows have locations. -/
structure Placed (task : Task) (t : Thread) : Prop where
  entry : task.Within t [] t.entry
  location : task.Within t t.calls t.location
  scopes : t.scopes = scopesOf t.actor t.calls

theorem flowOf_congr (actor : u.actor = t.actor) (script : u.script = t.script)
    (calls : u.calls = t.calls) : task.flowOf u = task.flowOf t := by
  unfold flowOf
  rw [actor, script, calls]

theorem within_congr (actor : u.actor = t.actor) (script : u.script = t.script)
    {calls : List Call} : task.Within u calls location ↔ task.Within t calls location := by
  induction calls generalizing location with
  | nil =>
    unfold Within Inside
    rw [flowOf_congr (u := { u with calls := [] }) (t := { t with calls := [] }) actor script rfl]
  | cons call calls ih =>
    unfold Within Inside
    rw [ih, flowOf_congr (u := { u with calls := call :: calls })
      (t := { t with calls := call :: calls }) actor script rfl]

theorem Within.inside {calls : List Call} (within : task.Within t calls location) :
    task.Inside { t with calls } location := by
  cases calls with
  | nil => exact within
  | cons call calls => exact within.1

/-- Within the same calls the thread can be at any location of the control flow. -/
theorem Within.relocate {calls : List Call} {other : Location}
    (within : task.Within t calls location) (inside : task.Inside { t with calls } other) :
    task.Within t calls other := by
  cases calls with
  | nil => exact inside
  | cons call calls => exact ⟨inside, within.2⟩

namespace Placed

theorem inside (placed : task.Placed t) : task.Inside t t.location := placed.location.inside

theorem congr (placed : task.Placed t) (actor : u.actor = t.actor) (script : u.script = t.script)
    (entry : u.entry = t.entry) (location : task.Within t u.calls u.location)
    (scopes : u.scopes = scopesOf u.actor u.calls) : task.Placed u where
  entry := by
    rw [within_congr actor script, entry]
    exact placed.entry
  location := (within_congr actor script).2 location
  scopes := scopes

theorem alike (alike : t.Alike u) (placed : task.Placed t) : task.Placed u := by
  obtain ⟨status, waitingFor, rfl⟩ := alike
  exact placed.congr rfl rfl rfl placed.location placed.scopes

theorem fail {properties : SortedSet Property} (placed : task.Placed t) :
    task.Placed (t.fail properties) := placed.congr rfl rfl rfl placed.location placed.scopes

theorem restart (placed : task.Placed t) : task.Placed t.restart :=
  placed.congr rfl rfl rfl placed.entry rfl

end Placed

/-! ### What is found -/

theorem Placed.exists_script (placed : task.Placed t) :
    ∃ script, task.scriptOf t = .ok script := by
  obtain ⟨flow, found, _⟩ := placed.entry
  obtain ⟨actor, known, found⟩ := bind_eq_ok_iff.1 found
  obtain ⟨script, listed, _⟩ := bind_eq_ok_iff.1 found
  exact ⟨script, by rw [scriptOf, known]; exact listed⟩

theorem mem_of_script {actor : Actor} {id : Nat} {script : Script}
    (found : actor.script id = .ok script) : script ∈ actor.scripts := by
  unfold Actor.script at found
  split at found
  · rename_i other same
    obtain rfl := Except.ok.inj found
    exact List.mem_of_find?_eq_some same
  · cases found

/-- The control flow of a thread is one of the task's. -/
theorem exists_mem_flows (found : task.flowOf t = .ok flow) :
    ∃ actor ∈ task.actors, ∃ owner, (owner, flow) ∈ actor.flows := by
  unfold flowOf at found
  split at found
  · obtain ⟨actor, known, found⟩ := bind_eq_ok_iff.1 found
    obtain ⟨method, listed, built⟩ := bind_eq_ok_iff.1 found
    obtain rfl := pure_eq_ok_iff.1 built
    exact ⟨actor, mem_of_actor known, Actor.mem_flows_of_method (get?_of_method listed)⟩
  · obtain ⟨actor, known, found⟩ := bind_eq_ok_iff.1 found
    obtain ⟨script, listed, built⟩ := bind_eq_ok_iff.1 found
    obtain rfl := pure_eq_ok_iff.1 built
    exact ⟨actor, mem_of_actor known, Actor.mem_flows_of_script (mem_of_script listed)⟩

variable (accepted : task.Accepted)
include accepted

theorem Accepted.closed (found : task.flowOf t = .ok flow) : flow.Closed := by
  obtain ⟨actor, member, owner, listed⟩ := exists_mem_flows found
  rcases List.mem_append.1 listed with script | method
  · obtain ⟨script, inside, same⟩ := List.mem_map.1 script
    cases same
    exact (accepted.built member).scriptFlow inside
  · obtain ⟨method, inside, same⟩ := List.mem_map.1 method
    cases same
    obtain ⟨⟨name, _⟩, entry, rfl⟩ := List.mem_map.1 inside
    exact (accepted.built member).methodFlow (SortedMap.get?_eq_some_iff.2 entry)

theorem Placed.exists_hasLeaving (placed : task.Placed t) :
    ∃ leaving, task.hasLeaving t = .ok leaving := by
  obtain ⟨flow, found, present⟩ := placed.inside
  unfold hasLeaving
  split
  · obtain ⟨leaves, known⟩ := (accepted.closed found).exists_hasExits present
    exact ⟨leaves, by rw [found]; exact known⟩
  · exact ⟨true, rfl⟩

/-- An exit leads to a location of the same control flow over an operation of the task. -/
theorem Accepted.exit (found : task.flowOf t = .ok flow) {exits : List Exit} {exit : Exit}
    (given : flow.exits location = .ok exits) (member : exit ∈ exits) :
    task.Inside t exit.target ∧ ∃ operation, task.operation exit.operation = .ok operation := by
  obtain ⟨actor, inside, owner, listed⟩ := exists_mem_flows found
  obtain ⟨used, target⟩ := (accepted.closed found).exit given member
  exact ⟨⟨flow, found, target⟩, accepted.operation inside listed used⟩

/-! ### Steps -/

omit accepted in
/-- The step takes the thread to a location of the control flow that it is in afterwards. -/
def Lands (task : Task) (t : Thread) (step : Step) : Prop :=
  match step.kind with
  | .plain | .finish => task.Within t t.calls step.target
  | .call call => task.Within t (call :: t.calls) step.target
  | .return => ∃ call calls, t.calls = call :: calls ∧ task.Within t calls step.target

theorem LeavesOver.inside {exit : Exit} {statement : Statement}
    (leaves : task.LeavesOver t exit statement) : task.Inside t exit.target := by
  obtain ⟨⟨flow, exits, found, known, among⟩, _⟩ := leaves
  exact (accepted.exit found known among).1

omit accepted in
/-- Beneath the innermost method the thread goes on where the method was called. -/
theorem Placed.beneath {call : Call} {calls : List Call} (placed : task.Placed t)
    (inside : t.calls = call :: calls) : task.Within t calls call.returnTo := by
  have whole := placed.location
  rw [inside] at whole
  exact whole.2

theorem lands_leavingSteps (placed : task.Placed t) {steps : List Step}
    (given : task.leavingSteps t = .ok steps) (member : step ∈ steps) : task.Lands t step := by
  cases offers_of_leavingSteps given member with
  | @enter exit method arguments result actor callee entry leaves found named _ entered =>
    have flow : ∀ call calls, call.actor = (calleeName t.actor method).1 →
        call.method = (calleeName t.actor method).2 →
        task.flowOf { t with calls := call :: calls } = .ok callee.flow := by
      intro call calls owner name
      unfold flowOf
      dsimp only
      rw [owner, found]
      show (do let m ← actor.method call.method; pure m.flow) = _
      rw [name, named]
      rfl
    have closed := (accepted.built (mem_of_actor found)).methodFlow (get?_of_method named)
    exact ⟨⟨callee.flow, flow _ _ rfl rfl, closed.entries entry entered⟩,
      placed.location.relocate (leaves.inside accepted)⟩
  | finish leaves _ | plain leaves => exact placed.location.relocate (leaves.inside accepted)
  | leave _ inside | pass _ inside _ | fallOff inside =>
    exact ⟨_, _, inside, placed.beneath inside⟩

omit accepted in
/-- Apart from its status a moved thread changes as the step says. -/
theorem Placed.move (placed : task.Placed t) (lands : task.Lands t step) :
    task.Placed (move step t) := by
  unfold Lands at lands
  cases kind : step.kind with
  | plain =>
    rw [kind] at lands
    simp only [Task.move, kind]
    exact placed.congr rfl rfl rfl lands placed.scopes
  | finish =>
    rw [kind] at lands
    simp only [Task.move, kind]
    exact placed.congr rfl rfl rfl lands placed.scopes
  | call call =>
    rw [kind] at lands
    have scopes : (call.actor ++ "." ++ call.method) :: t.scopes =
        scopesOf t.actor (call :: t.calls) := by
      rw [placed.scopes]
      rfl
    simp only [Task.move, kind, Thread.pushCall]
    split <;> exact placed.congr rfl rfl rfl lands scopes
  | «return» =>
    rw [kind] at lands
    obtain ⟨call, calls, same, within⟩ := lands
    have scopes : t.scopes.drop 1 = scopesOf t.actor calls := by
      rw [placed.scopes, same]
      rfl
    simp only [Task.move, kind, Thread.popCall, same]
    split <;> exact placed.congr rfl rfl rfl within scopes

/-! ### All threads -/

omit accepted in
theorem Affects.placed (affects : Affects next index t u) (placed : task.Placed t) :
    task.Placed u := by
  cases affects with
  | nothing => exact placed
  | fails => exact placed.fail
  | waits => exact placed.alike ⟨_, _, rfl⟩

omit accepted in
theorem placed_modify (lands : ∀ t, threads[index]? = some t → task.Lands t step)
    (all : ∀ t ∈ threads, task.Placed t) :
    ∀ t ∈ threads.modify index (Task.move step), task.Placed t := by
  have changes : Changes (fun _ t u => u = Task.move step t) index threads
      (threads.modify index (Task.move step)) := changes_refl.modify rfl fun _ _ => rfl
  refine changes.all (fun _ => .restart) ?_ all
  rintro t _ found rfl
  exact (all t (List.mem_of_getElem? found)).move (lands t found)

omit accepted in
theorem placed_applyEffect {effect : Statement}
    (given : task.applyEffect policy threads index effect = .ok next)
    (all : ∀ t ∈ threads, task.Placed t) : ∀ t ∈ next, task.Placed t :=
  (changes_applyEffect given).all (fun _ => .restart)
    (fun t _ found affects => affects.placed (all t (List.mem_of_getElem? found))) all

omit accepted in
theorem placed_prepare (given : task.prepare policy threads index step = .ok next)
    (inside : index < threads.length)
    (lands : ∀ t, threads[index]? = some t → task.Lands t step)
    (all : ∀ t ∈ threads, task.Placed t) : ∀ t ∈ next, task.Placed t := by
  refine (changes_prepare given inside).all (fun _ => .restart) ?_ all
  rintro t _ found ⟨stepped, status, affects, _, rfl⟩
  have moved := (all t (List.mem_of_getElem? found)).move (lands t found)
  exact (affects.placed moved).alike ⟨_, _, rfl⟩

omit accepted in
theorem placed_alike (same : List.Forall₂ Thread.Alike threads next)
    (all : ∀ t ∈ threads, task.Placed t) : ∀ t ∈ next, task.Placed t := by
  intro u member
  obtain ⟨t, inside, alike⟩ := exists_left_of_mem same member
  exact (all t inside).alike alike

omit accepted in
/-- A new thread runs a script of an actor from one of its entries. -/
theorem exists_of_mem_newThreads {first : Nat} (member : t ∈ task.newThreads first) :
    ∃ actor ∈ task.actors, ∃ script ∈ actor.scripts, ∃ id, ∃ entry ∈ script.flow.entries,
      t = { id, actor := actor.name, script := script.id, entry, isObserver := actor.isObserver,
            status := initialStatus actor script } := by
  obtain ⟨⟨⟨actor, script, entry⟩, place⟩, listed, rfl⟩ := List.mem_map.1 member
  have chosen := List.fst_mem_of_mem_zipIdx listed
  obtain ⟨owner, known, chosen⟩ := List.mem_flatMap.1 chosen
  obtain ⟨piece, inside, chosen⟩ := List.mem_flatMap.1 chosen
  obtain ⟨location, starts, same⟩ := List.mem_map.1 chosen
  obtain ⟨rfl, rfl, rfl⟩ : owner = actor ∧ piece = script ∧ location = entry := by
    simpa using same
  exact ⟨owner, known, piece, inside, _, location, starts, rfl⟩

theorem placed_newThreads {first : Nat} : ∀ t ∈ task.newThreads first, task.Placed t := by
  intro t member
  obtain ⟨owner, known, piece, inside, id, location, starts, rfl⟩ := exists_of_mem_newThreads member
  have closed := (accepted.built known).scriptFlow inside
  have entered : ∀ t : Thread, t.actor = owner.name → t.script = piece.id →
      task.Within t [] location := by
    intro t actor script
    refine ⟨piece.flow, ?_, closed.entries location starts⟩
    show (do return (← (← task.actor t.actor).script t.script).flow) = _
    rw [actor, script, accepted.actor_name known]
    show (do return (← owner.script piece.id).flow) = _
    rw [(accepted.built known).script_id inside]
    rfl
  exact ⟨entered _ rfl rfl, entered _ rfl rfl, rfl⟩

/-! ### Lookups succeed -/

omit accepted in
theorem exists_mapThreads {f : Thread → Except Error Thread}
    (each : ∀ t ∈ threads, ∃ u, f t = .ok u) : ∃ next, mapThreads f threads = .ok next := by
  induction threads with
  | nil => exact ⟨[], rfl⟩
  | cons t rest ih =>
    obtain ⟨u, here⟩ := each t (by simp)
    obtain ⟨later, others⟩ := ih fun u member => each u (by simp [member])
    exact ⟨u :: later, by rw [mapThreads, here]; simp only [bind, Except.bind, others]; rfl⟩

theorem exists_settleRound (all : ∀ t ∈ threads, task.Placed t) :
    ∃ next, task.settleRound threads = .ok next := by
  have finished : ∃ middle, mapThreads task.finishStuck threads = .ok middle := by
    refine exists_mapThreads fun t member => ?_
    obtain ⟨leaving, known⟩ := (all t member).exists_hasLeaving accepted
    unfold finishStuck
    split
    · exact ⟨_, by rw [known]; rfl⟩
    · exact ⟨t, rfl⟩
  obtain ⟨middle, finished⟩ := finished
  exact ⟨_, by rw [settleRound, finished]; rfl⟩

theorem exists_settle (all : ∀ t ∈ threads, task.Placed t) :
    ∃ next, task.settle threads = .ok next := by
  fun_induction Task.settle task threads with
  | case1 threads e failed =>
    obtain ⟨next, settled⟩ := exists_settleRound accepted all
    cases failed.symm.trans settled
  | case2 threads => exact ⟨threads, rfl⟩
  | case3 threads middle round _ ih => exact ih (placed_alike (alike_settleRound round) all)

omit accepted in
theorem failsWith_messageOf {e : Expression} : FailsWith (¬·.Internal) (messageOf e) := by
  unfold messageOf
  split
  · exact .ok
  · exact .error (by simp [Error.Internal, Error.kind])

omit accepted in
theorem failsWith_trigger {sender : Nat} {message : String} {entries : List (Thread × Nat)}
    (all : ∀ entry ∈ entries, task.Placed entry.1) :
    FailsWith (¬·.Internal) (task.trigger sender message entries) := by
  induction entries with
  | nil => exact .ok
  | cons entry rest ih =>
    have later := ih fun other member => all other (by simp [member])
    unfold trigger
    split
    · exact later.bind fun _ _ => .ok
    · obtain ⟨script, known⟩ := (all entry (by simp)).exists_script
      exact (FailsWith.of_ok known).bind fun _ _ => later.bind fun _ _ => .ok

omit accepted in
theorem failsWith_applyEffect {effect : Statement} (all : ∀ t ∈ threads, task.Placed t) :
    FailsWith (¬·.Internal) (task.applyEffect policy threads index effect) := by
  have trigger : ∀ message, FailsWith (¬·.Internal) (task.trigger index message threads.zipIdx) :=
    fun message => failsWith_trigger fun entry member => all _ (List.fst_mem_of_mem_zipIdx member)
  unfold applyEffect
  split
  · exact .ok
  · exact failsWith_messageOf.bind fun message _ => (trigger message).bind fun _ _ => .ok
  · exact failsWith_messageOf.bind fun message _ => (trigger message).bind fun _ _ => .ok
  · cases policy with
    | approximate => exact .ok
    | reject => exact .error (by simp [Error.Internal, Error.kind])
  · cases policy with
    | approximate => exact .ok
    | reject => exact .error (by simp [Error.Internal, Error.kind])
  · exact .ok

theorem failsWith_statusAfter (placed : task.Placed t) :
    FailsWith (¬·.Internal) (task.statusAfter step t) := by
  obtain ⟨leaving, known⟩ := placed.exists_hasLeaving accepted
  unfold statusAfter
  split
  · exact .ok
  · exact .ok
  · split
    · exact .ok
    · refine (FailsWith.of_ok known).bind fun _ _ => ?_
      split
      · exact .ok
      · exact .ok

omit accepted in
theorem failsWith_restartObserver (placed : task.Placed t) :
    FailsWith (¬·.Internal) (task.restartObserver t) := by
  obtain ⟨script, known⟩ := placed.exists_script
  unfold restartObserver
  split
  · exact (FailsWith.of_ok known).bind fun _ _ => .ok
  · exact .ok

theorem failsWith_prepare (lands : ∀ t, threads[index]? = some t → task.Lands t step)
    (all : ∀ t ∈ threads, task.Placed t) :
    FailsWith (¬·.Internal) (task.prepare policy threads index step) := by
  have moved := placed_modify lands all
  refine (failsWith_applyEffect moved).bind fun effected effect => ?_
  have placed := placed_applyEffect effect moved
  split
  · exact .ok
  · rename_i stepped found
    have here := placed stepped (List.mem_of_getElem? found)
    refine (failsWith_statusAfter accepted here).bind fun status _ => ?_
    dsimp only
    split
    · exact .ok
    · refine .mapThreads fun t member => failsWith_restartObserver ?_
      rcases List.mem_or_eq_of_mem_set member with member | rfl
      · exact placed t member
      · exact here.alike ⟨_, _, rfl⟩

/-! ### What a thread can do -/

omit accepted in
theorem failsWith_callSteps {exit : Exit} {statement : Statement} {method : String}
    {arguments : List Expression} {result : Option Variable} :
    FailsWith (¬·.Internal) (task.callSteps t exit statement method arguments result) := by
  unfold callSteps
  dsimp only
  have actor : ∀ name, FailsWith (¬·.Internal) (task.actor name) := by
    intro name
    unfold Task.actor
    split
    · exact .ok
    · exact .error (by simp [Error.Internal, Error.kind])
  refine (actor _).bind fun actor _ => FailsWith.bind ?_ fun callee _ => ?_
  · unfold Actor.method
    split
    · exact .ok
    · exact .error (by simp [Error.Internal, Error.kind])
  · split
    · exact .error (by simp [Error.Internal, Error.kind])
    · split
      · exact .error (by simp [Error.Internal, Error.kind])
      · exact .ok

omit accepted in
theorem failsWith_returnStep {exit : Exit} {statement : Statement} {value : Option Expression} :
    FailsWith (¬·.Internal) (returnStep t exit statement value) := by
  unfold returnStep
  split
  · exact .ok
  · dsimp only
    split
    · exact .ok
    · exact .error (by simp [Error.Internal, Error.kind])
    · exact .ok

theorem failsWith_leavingSteps (placed : task.Placed t) :
    FailsWith (¬·.Internal) (task.leavingSteps t) := by
  obtain ⟨flow, found, present⟩ := placed.inside
  obtain ⟨exits, known⟩ := (accepted.closed found).exists_exits present
  refine (FailsWith.of_ok found).bind fun other same => ?_
  obtain rfl := Except.ok.inj (found.symm.trans same)
  refine (FailsWith.of_ok known).bind fun other same => ?_
  obtain rfl := Except.ok.inj (known.symm.trans same)
  split
  · split
    · exact .ok
    · exact .ok
  · refine (FailsWith.mapM fun exit member => ?_).bind fun _ _ => .ok
    obtain ⟨_, operation, listed⟩ := accepted.exit found known member
    refine (FailsWith.of_ok listed).bind fun operation _ => ?_
    dsimp only
    split
    · exact failsWith_callSteps
    · exact failsWith_returnStep.bind fun _ _ => .ok
    · exact .ok

end Task

end EventCheck
