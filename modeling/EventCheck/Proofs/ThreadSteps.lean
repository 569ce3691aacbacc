import EventCheck.Proofs.Scheduling
import Mathlib.Logic.Relation

/-!
What a step of the scheduler does to each single thread. The thread that steps moves, suffers the
effect of its statement and takes a new status; every other thread is left alone or starts over.
Then the threads settle, which only concerns those that are ready or wait for others, and one that
is ready may be picked to run.
-/

namespace EventCheck

theorem SortedSet.exists_mem {α : Type} [Ord α] [Std.TransOrd α] [Std.LawfulEqOrd α]
    {s : SortedSet α} (some : s ≠ ∅) : ∃ a, a ∈ s := by
  by_contra none
  push Not at none
  exact some (ext_mem fun a => iff_of_false (none a) (not_mem_empty a))

namespace Task

variable {task : Task} {policy : WaitPolicy} {threads next : List Thread} {t u v : Thread}
variable {index place : Nat} {step : Step} {effect : Statement}

/-! ### Effects -/

/-- What the effect of its statement does to the thread that steps. -/
inductive Suffers (task : Task) (threads : List Thread) (index : Nat) (effect : Statement)
    (t : Thread) : Thread → Prop
  | nothing : Suffers task threads index effect t t
  | fails {properties : SortedSet Property} (signals : effect = .signalFailure properties) :
    Suffers task threads index effect t (t.fail properties)
  | waits {text : String} {started : SortedSet Nat}
    (sends : effect = .broadcastAndWait (.const (.str text))) (anyone : started ≠ ∅)
    (triggered : ∃ place u, threads[place]? = some u ∧ task.Triggers index text (u, place)) :
    Suffers task threads index effect t (t.waitFor started)

/-- Another thread is left alone or started over by a message. -/
def Receives (task : Task) (index place : Nat) (t u : Thread) : Prop :=
  u = t ∨ (∃ text, task.Triggers index text (t, place)) ∧ u = t.restart

theorem suffers_of_applyEffect (given : task.applyEffect policy threads index effect = .ok next)
    (before : threads[index]? = some t) (after : next[index]? = some u) :
    Suffers task threads index effect t u := by
  -- a message leaves its sender alone
  have sender : ∀ {text result}, task.trigger index text threads.zipIdx = .ok result →
      ∀ w, result.1[index]? = some w → w = t := by
    intro text result sent w found
    obtain ⟨same, here, ⟨triggers, _⟩ | ⟨_, rfl⟩⟩ := getElem?_trigger sent found
    · exact absurd rfl triggers.1
    · exact Option.some.inj (here.symm.trans before)
  rcases applyEffect_cases given with rfl | ⟨properties, signals, rfl⟩ |
    ⟨text, result, sent, rfl | ⟨sends, anyone, rfl⟩⟩
  · obtain rfl := Option.some.inj (before.symm.trans after)
    exact .nothing
  · rw [List.getElem?_modify_eq, before] at after
    obtain rfl := Option.some.inj after
    exact .fails signals
  · obtain rfl := sender sent u after
    exact .nothing
  · rw [List.getElem?_modify_eq] at after
    obtain ⟨w, found, rfl⟩ := Option.map_eq_some_iff.1 after
    obtain rfl := sender sent w found
    refine .waits sends anyone ?_
    obtain ⟨id, member⟩ := SortedSet.exists_mem anyone
    obtain ⟨⟨receiver, place⟩, listed, triggers, _⟩ := ((trigger_eq_ok sent).2 id).1 member
    exact ⟨place, receiver, List.mem_zipIdx_iff_getElem?.1 listed, triggers⟩

theorem receives_of_applyEffect (given : task.applyEffect policy threads index effect = .ok next)
    (away : place ≠ index) (before : threads[place]? = some t) (after : next[place]? = some u) :
    Receives task index place t u := by
  have receiver : ∀ {text result}, task.trigger index text threads.zipIdx = .ok result →
      result.1[place]? = some u → Receives task index place t u := by
    intro text result sent found
    obtain ⟨same, here, change⟩ := getElem?_trigger sent found
    obtain rfl := Option.some.inj (before.symm.trans here)
    rcases change with ⟨triggers, restarted⟩ | ⟨_, unchanged⟩
    · exact Or.inr ⟨⟨text, triggers⟩, restarted⟩
    · exact Or.inl unchanged
  rcases applyEffect_cases given with rfl | ⟨properties, _, rfl⟩ |
    ⟨text, result, sent, rfl | ⟨_, _, rfl⟩⟩
  · exact Or.inl (Option.some.inj (after.symm.trans before))
  · rw [List.getElem?_modify_ne _ _ (Ne.symm away)] at after
    exact Or.inl (Option.some.inj (after.symm.trans before))
  · exact receiver sent after
  · rw [List.getElem?_modify_ne _ _ (Ne.symm away)] at after
    exact receiver sent after

theorem Receives.eq_of_running (receives : task.Receives index place t u)
    (runs : u.status.isRunning = true) : u = t := by
  rcases receives with same | ⟨_, rfl⟩
  · exact same
  · cases runs

theorem Suffers.isObserver (suffers : Suffers task threads index effect t u) :
    u.isObserver = t.isObserver := by
  cases suffers <;> rfl

/-! ### The first stage -/

theorem Observes.eq_of_running {stepper : Thread} (observes : task.Observes stepper t u)
    (runs : u.status.isRunning = true) : u = t := by
  rcases observes.cases with same | ⟨_, _, _, rfl⟩
  · exact same
  · cases runs

theorem prepare_own (given : task.prepare policy threads index step = .ok next)
    (before : threads[index]? = some t) : ∃ w status,
      Suffers task threads index step.effect (move step t) w ∧
      task.statusAfter step w = .ok status ∧ next[index]? = some { w with status } := by
  obtain ⟨effected, w, status, effect, found, after, observers⟩ :=
    prepare_eq_ok given (List.getElem?_eq_some_iff.1 before).1
  have moved : (threads.modify index (move step))[index]? = some (move step t) := by
    rw [List.getElem?_modify_eq, before]
    rfl
  refine ⟨w, status, ?_, after, ?_⟩
  · cases suffers_of_applyEffect effect moved found with
    | nothing => exact .nothing
    | fails signals => exact .fails signals
    | waits sends anyone triggered =>
      obtain ⟨place, receiver, listed, triggers⟩ := triggered
      rw [List.getElem?_modify_ne _ _ (Ne.symm triggers.1)] at listed
      exact .waits sends anyone ⟨place, receiver, listed, triggers⟩
  · have own : (effected.set index { w with status })[index]? = some { w with status } :=
      List.getElem?_set_self (List.getElem?_eq_some_iff.1 found).1
    obtain ⟨u, last, observes⟩ := exists_right_of_getElem? observers own
    rw [last]
    rcases observes.cases with same | ⟨program, observer, _⟩
    · rw [same]
    · cases program.symm.trans observer

/-- Another thread may be started over by a message, and if it observes statements once it is
done. -/
theorem prepare_other (given : task.prepare policy threads index step = .ok next)
    {stepper : Thread} (stepping : threads[index]? = some stepper) (away : place ≠ index)
    (before : threads[place]? = some t) : ∃ w u, Receives task index place t w ∧
      Observes task stepper w u ∧ next[place]? = some u := by
  obtain ⟨effected, own, status, effect, found, _, observers⟩ :=
    prepare_eq_ok given (List.getElem?_eq_some_iff.1 stepping).1
  have kind : own.isObserver = stepper.isObserver := by
    have moved : (threads.modify index (move step))[index]? = some (move step stepper) := by
      rw [List.getElem?_modify_eq, stepping]
      rfl
    exact (suffers_of_applyEffect effect moved found).isObserver.trans isObserver_move
  have moved : (threads.modify index (move step))[place]? = some t := by
    rw [List.getElem?_modify_ne _ _ (Ne.symm away)]
    exact before
  obtain ⟨w, listed⟩ : ∃ w, effected[place]? = some w := by
    refine ⟨_, List.getElem?_eq_getElem ?_⟩
    rw [(changes_applyEffect effect).length]
    exact (List.getElem?_eq_some_iff.1 moved).1
  have kept : (effected.set index { own with status })[place]? = some w := by
    rw [List.getElem?_set_ne (Ne.symm away)]
    exact listed
  obtain ⟨u, last, observes⟩ := exists_right_of_getElem? observers kept
  rw [observes_congr kind] at observes
  exact ⟨w, u, receives_of_applyEffect effect away moved listed, observes, last⟩

theorem prepare_back (given : task.prepare policy threads index step = .ok next)
    {stepper : Thread} (stepping : threads[index]? = some stepper) (away : place ≠ index)
    (after : next[place]? = some u) : ∃ t w, threads[place]? = some t ∧
      Receives task index place t w ∧ Observes task stepper w u := by
  have length := (changes_prepare given (List.getElem?_eq_some_iff.1 stepping).1).length
  have inside : place < threads.length := by
    have bound := (List.getElem?_eq_some_iff.1 after).1
    omega
  have before : threads[place]? = some threads[place] := List.getElem?_eq_getElem inside
  obtain ⟨w, v, receives, observes, found⟩ := prepare_other given stepping away before
  obtain rfl := Option.some.inj (after.symm.trans found)
  exact ⟨_, w, before, receives, observes⟩

/-! ### The second stage -/

/-- What a round of settling does to a thread: one that is ready is done if it cannot move, and
one that waits for others goes on waiting for some of them or is ready. -/
inductive Shifts (task : Task) : Thread → Thread → Prop
  | finish {t : Thread} (ready : t.status = .yield) (stuck : task.hasLeaving t = .ok false) :
    Shifts task t { t with status := .done }
  | remain {t : Thread} {ids : SortedSet Nat} (waits : t.status = .wait)
    (anyone : t.waitingFor ≠ ∅) (some : ids ≠ ∅) : Shifts task t { t with waitingFor := ids }
  | release {t : Thread} (waits : t.status = .wait) (anyone : t.waitingFor ≠ ∅) :
    Shifts task t { t with waitingFor := ∅, status := .yield }

/-- What settling does to a thread. -/
abbrev Settles (task : Task) : Thread → Thread → Prop := Relation.ReflTransGen task.Shifts

/-- What settling and picking the next thread do to a thread. -/
def Proceeds (task : Task) (t u : Thread) : Prop :=
  ∃ v, task.Settles t v ∧ (u = v ∨ v.isReady = true ∧ u = startThread v)

theorem settles_finishStuck (given : task.finishStuck t = .ok u) : task.Settles t u := by
  unfold finishStuck at given
  split at given
  · rename_i ready
    obtain ⟨leaving, known, built⟩ := bind_eq_ok_iff.1 given
    obtain rfl := pure_eq_ok_iff.1 built
    cases leaving with
    | true => exact .refl
    | false => exact .single (.finish ready known)
  · obtain rfl := Except.ok.inj given
    exact .refl

theorem settles_release {finished : SortedSet Nat} : task.Settles t (t.release finished) := by
  rcases release_cases finished t with
    ⟨same, _⟩ | ⟨waits, anyone, ⟨_, same⟩ | ⟨some, same⟩⟩
  · rw [same]
  · rw [same]
    exact .single (.release waits anyone)
  · rw [same]
    exact .single (.remain waits anyone some)

theorem settles_of_settle (settled : task.settle threads = .ok next) :
    List.Forall₂ task.Settles threads next := by
  refine (settle_induction settled (List.forall₂_same.2 fun _ _ => .refl) ?_).1
  intro before after round all
  obtain ⟨middle, finished, built⟩ := bind_eq_ok_iff.1 round
  obtain rfl := pure_eq_ok_iff.1 built
  refine forall₂_comp (fun _ _ _ first second => first.trans second) all ?_
  rw [List.forall₂_map_right_iff]
  exact (mapThreads_eq_ok_iff.1 finished).imp
    fun _ _ changed => (settles_finishStuck changed).trans settles_release

theorem proceeds_of_proceed (given : task.proceed threads index = .ok next) :
    List.Forall₂ task.Proceeds threads next := by
  obtain ⟨settled, settles, given⟩ := bind_eq_ok_iff.1 given
  obtain ⟨_, _, built⟩ := bind_eq_ok_iff.1 given
  obtain rfl := pure_eq_ok_iff.1 built
  have each := settles_of_settle settles
  rcases schedule_cases settled index with ⟨same, _⟩ | ⟨_, place, t, found, ready, same, _⟩
  · rw [same]
    exact each.imp fun t u settles => ⟨u, settles, Or.inl rfl⟩
  · rw [same]
    refine forall₂_comp (s := fun t u => u = t ∨ t.isReady = true ∧ u = startThread t)
      (fun t v u settles picked => ⟨v, settles, picked⟩) each ?_
    refine forall₂_modify (fun t => Or.inl rfl) fun other here => ?_
    obtain rfl := Option.some.inj (here.symm.trans found)
    exact Or.inr ⟨ready, rfl⟩

namespace Settles

theorem alike (settles : task.Settles t u) : t.Alike u := by
  induction settles with
  | refl => exact .refl t
  | tail _ shifts ih =>
    refine ih.trans ?_
    cases shifts <;> exact ⟨_, _, rfl⟩

theorem eq_of_ne (settles : task.Settles t u) (idle : t.status ≠ .yield)
    (stays : t.status ≠ .wait) : u = t := by
  rcases settles.cases_head with same | ⟨_, shifts, _⟩
  · exact same.symm
  · cases shifts with
    | finish ready _ => exact absurd ready idle
    | remain waits _ _ => exact absurd waits stays
    | release waits _ => exact absurd waits stays

/-- Whoever is ready stays so or is done, the latter if it cannot move. -/
theorem of_ready (settles : task.Settles t u) (ready : t.status = .yield) :
    u = t ∨ task.hasLeaving t = .ok false ∧ u = { t with status := .done } := by
  rcases settles.cases_head with same | ⟨_, shifts, later⟩
  · exact Or.inl same.symm
  · cases shifts with
    | finish _ stuck => exact Or.inr ⟨stuck, eq_of_ne later nofun nofun⟩
    | remain waits _ _ => cases ready.symm.trans waits
    | release waits _ => cases ready.symm.trans waits

/-- Whoever is ready after settling has been so, or has waited for others. -/
theorem to_ready (settles : task.Settles t u) (ready : u.status = .yield) :
    u = t ∨ t.status = .wait ∧ t.waitingFor ≠ ∅ := by
  rcases settles.cases_head with same | ⟨_, shifts, later⟩
  · exact Or.inl same.symm
  · cases shifts with
    | finish _ _ =>
      rw [eq_of_ne later nofun nofun] at ready
      cases ready
    | remain waits anyone _ => exact Or.inr ⟨waits, anyone⟩
    | release waits anyone => exact Or.inr ⟨waits, anyone⟩

theorem eq_of_running (settles : task.Settles t u) (runs : u.status.isRunning = true) : u = t := by
  rcases settles.cases_tail with same | ⟨v, _, shifts⟩
  · exact same
  · cases shifts with
    | finish _ _ => cases runs
    | remain waits _ _ =>
      rw [waits] at runs
      cases runs
    | release _ _ => cases runs

end Settles

theorem Proceeds.alike (proceeds : task.Proceeds t u) : t.Alike u := by
  obtain ⟨v, settles, rfl | ⟨_, rfl⟩⟩ := proceeds
  · exact settles.alike
  · exact settles.alike.trans ⟨_, _, rfl⟩

theorem Proceeds.eq_of_ne (proceeds : task.Proceeds t u) (idle : t.status ≠ .yield)
    (stays : t.status ≠ .wait) : u = t := by
  obtain ⟨v, settles, picked⟩ := proceeds
  obtain rfl := settles.eq_of_ne idle stays
  rcases picked with same | ⟨ready, _⟩
  · exact same
  · exact absurd (by simpa using (Bool.and_eq_true_iff.1 ready).2) idle

/-! ### The whole step -/

/-- The thread at the place is the one to step. -/
structure HasTurn (task : Task) (threads : List Thread) (place : Nat) (t : Thread) : Prop where
  chosen : task.chooseStepping threads = .ok (some place)
  found : threads[place]? = some t

theorem HasTurn.cases (turn : task.HasTurn threads place t) :
    t.status.isActive = true ∧ (t.isObserver = true ∨ t.runsProgram = true) := by
  obtain ⟨same, found, active, kind⟩ := chooseStepping_eq_some turn.chosen
  obtain rfl := Option.some.inj (found.symm.trans turn.found)
  exact ⟨active, kind⟩

theorem applyStep_eq_ok (given : task.applyStep policy threads index step = .ok next)
    (before : threads[index]? = some t) : ∃ prepared,
      task.prepare policy threads index step = .ok prepared ∧
      task.proceed prepared index = .ok next := by
  rw [applyStep_eq (List.getElem?_eq_some_iff.1 before).1] at given
  exact bind_eq_ok_iff.1 given

/-- What a step makes of the thread that takes it. -/
theorem applyStep_own (given : task.applyStep policy threads index step = .ok next)
    (before : threads[index]? = some t) : ∃ w status u,
      Suffers task threads index step.effect (move step t) w ∧
      task.statusAfter step w = .ok status ∧ task.Proceeds { w with status } u ∧
      next[index]? = some u := by
  obtain ⟨prepared, first, second⟩ := applyStep_eq_ok given before
  obtain ⟨w, status, suffers, after, found⟩ := prepare_own first before
  obtain ⟨u, last, proceeds⟩ := exists_right_of_getElem? (proceeds_of_proceed second) found
  exact ⟨w, status, u, suffers, after, proceeds, last⟩

/-- What a step makes of a thread that does not take it. -/
theorem applyStep_other (given : task.applyStep policy threads index step = .ok next)
    {stepper : Thread} (stepping : threads[index]? = some stepper) (away : place ≠ index)
    (before : threads[place]? = some t) : ∃ w v u, Receives task index place t w ∧
      Observes task stepper w v ∧ task.Proceeds v u ∧ next[place]? = some u := by
  obtain ⟨prepared, first, second⟩ := applyStep_eq_ok given stepping
  obtain ⟨w, v, receives, observes, found⟩ := prepare_other first stepping away before
  obtain ⟨u, last, proceeds⟩ := exists_right_of_getElem? (proceeds_of_proceed second) found
  exact ⟨w, v, u, receives, observes, proceeds, last⟩

theorem length_applyStep (given : task.applyStep policy threads index step = .ok next)
    (before : threads[index]? = some t) : next.length = threads.length := by
  obtain ⟨prepared, first, second⟩ := applyStep_eq_ok given before
  rw [← (proceeds_of_proceed second).length_eq]
  exact (changes_prepare first (List.getElem?_eq_some_iff.1 before).1).length

/-- A relation between threads before and after a step holds if it holds of the thread that takes
the step and of the others. -/
theorem forall₂_applyStep {r : Thread → Thread → Prop}
    (given : task.applyStep policy threads index step = .ok next)
    (before : threads[index]? = some t)
    (own : ∀ w status u, Suffers task threads index step.effect (move step t) w →
      task.statusAfter step w = .ok status → task.Proceeds { w with status } u → r t u)
    (other : ∀ place s w v u, threads[place]? = some s → Receives task index place s w →
      Observes task t w v → task.Proceeds v u → r s u) : List.Forall₂ r threads next := by
  refine List.forall₂_iff_get.2 ⟨(length_applyStep given before).symm, fun place here there => ?_⟩
  have first : threads[place]? = some (threads.get ⟨place, here⟩) := List.getElem?_eq_getElem here
  have second : next[place]? = some (next.get ⟨place, there⟩) := List.getElem?_eq_getElem there
  by_cases same : place = index
  · subst same
    obtain ⟨w, status, u, suffers, after, proceeds, last⟩ := applyStep_own given before
    obtain rfl := Option.some.inj (first.symm.trans before)
    obtain rfl := Option.some.inj (second.symm.trans last)
    exact own w status _ suffers after proceeds
  · obtain ⟨w, v, u, receives, observes, proceeds, last⟩ := applyStep_other given before same first
    obtain rfl := Option.some.inj (second.symm.trans last)
    exact other place _ w v _ first receives observes proceeds

/-- A property that a thread has once it is started over or picked, and keeps when it settles. -/
structure Stable (task : Task) (motive : Thread → Prop) : Prop where
  restart : ∀ t : Thread, motive t.restart
  shifts : ∀ t u, task.Shifts t u → motive t → motive u
  starts : ∀ t, motive (startThread t)

namespace Stable

variable {motive : Thread → Prop} (stable : task.Stable motive)
include stable

theorem proceeds (proceeds : task.Proceeds t u) (holds : motive t) : motive u := by
  obtain ⟨v, settles, rfl | ⟨_, rfl⟩⟩ := proceeds
  · induction settles with
    | refl => exact holds
    | tail _ shifts ih => exact stable.shifts _ _ shifts ih
  · exact stable.starts v

/-- Only the thread that steps may lose such a property. -/
theorem applyStep (given : task.applyStep policy threads index step = .ok next)
    (before : threads[index]? = some t)
    (own : ∀ w status, Suffers task threads index step.effect (move step t) w →
      task.statusAfter step w = .ok status → motive t → motive { w with status }) :
    List.Forall₂ (fun t u => motive t → motive u) threads next := by
  refine forall₂_applyStep given before ?_ ?_
  · intro w status u suffers after proceeds holds
    exact stable.proceeds proceeds (own w status suffers after holds)
  · intro place s w v u _ receives observes proceeds holds
    refine stable.proceeds proceeds ?_
    rcases observes.cases with rfl | ⟨_, _, _, rfl⟩
    · rcases receives with rfl | ⟨_, rfl⟩
      · exact holds
      · exact stable.restart s
    · exact stable.restart w

end Stable

end Task

/-! ### Steps of the analysis -/

namespace Analysis

variable {σ : Type} {a : Analysis σ} {s t : σ}

/-- The second state is a successor of the first one. -/
def Successor (a : Analysis σ) (s t : σ) : Prop :=
  ∃ before states after, (a.successors s).Yields before states after ∧ t ∈ states

/-- Steps lead from the first state to the second one. -/
abbrev Later (a : Analysis σ) : σ → σ → Prop := Relation.ReflTransGen a.Successor

theorem Reachable.later (reachable : a.Reachable s) (later : a.Later s t) : a.Reachable t := by
  induction later with
  | refl => exact reachable
  | tail _ last ih =>
    obtain ⟨before, states, after, given, member⟩ := last
    exact .step ih given member

/-- The state that so many steps lead to, each to the first successor, and the context then. -/
def walk (a : Analysis σ) : Nat → Option (σ × Context)
  | 0 =>
    match a.initial.outcome {} with
    | (.ok (s :: _), after) => some (s, after)
    | _ => none
  | count + 1 =>
    match a.walk count with
    | some (s, before) =>
      match (a.successors s).outcome before with
      | (.ok (t :: _), after) => some (t, after)
      | _ => none
    | none => none

theorem reachable_of_walk {count : Nat} {context : Context}
    (walked : a.walk count = some (s, context)) : a.Reachable s := by
  induction count generalizing s context with
  | zero =>
    unfold walk at walked
    split at walked
    · rename_i t rest after begun
      cases walked
      exact .initial begun (by simp)
    · cases walked
  | succ count ih =>
    unfold walk at walked
    split at walked
    · rename_i t before earlier
      split at walked
      · rename_i u rest after stepped
        cases walked
        exact .step (ih earlier) stepped (by simp)
      · cases walked
    · cases walked

/-- Whether the state has a successor. -/
def goesOn (a : Analysis σ) (s : σ) : Bool :=
  match (a.successors s).outcome {} with
  | (.ok (_ :: _), _) => true
  | _ => false

theorem exists_successor (goes : a.goesOn s = true) : ∃ t, a.Successor s t := by
  unfold goesOn at goes
  split at goes
  · rename_i t rest after stepped
    exact ⟨t, {}, t :: rest, after, stepped, by simp⟩
  · cases goes

end Analysis

namespace Control

variable {σ : Type} {a : LabeledAnalysis σ} {task : Task} {policy : WaitPolicy}

theorem Succeeds.hasTurn {s t : ControlState σ} {index : Nat} {thread : Thread} {step : Step}
    (succeeds : Succeeds task policy a s t index thread step) :
    task.HasTurn s.threads index thread := ⟨succeeds.chosen, succeeds.found⟩

/-- What holds of the threads at the start and is kept by each step of one whose turn it is, holds
in all states that the scheduler comes to. -/
theorem threads_induction {motive : List Thread → Prop} {s : ControlState σ}
    (start : ∀ first threads, task.startThreads (task.newThreads first) = .ok threads →
      motive threads)
    (step : ∀ threads index t step next, task.HasTurn threads index t →
      task.applyStep policy threads index step = .ok next → motive threads → motive next)
    (reachable : (a.scheduled task policy).Reachable s) : motive s.threads := by
  induction reachable with
  | initial given member =>
    obtain ⟨threads, started, rfl⟩ := yields_initial given
    obtain ⟨inner, _, rfl⟩ := List.mem_map.1 member
    exact start _ threads started
  | step _ given member ih =>
    obtain ⟨index, thread, taken, succeeds⟩ := exists_succeeds given member
    exact step _ index thread taken _ succeeds.hasTurn succeeds.applied ih

theorem exists_succeeds_of_successor {s t : ControlState σ}
    (successor : (a.scheduled task policy).Successor s t) :
    ∃ index thread step, Succeeds task policy a s t index thread step := by
  obtain ⟨before, states, after, given, member⟩ := successor
  exact exists_succeeds given member

/-- Whether the program is accepted and passes the test after so many steps, each to the first
successor. -/
def comesTo (program : Except Error Task) (count : Nat)
    (test : Task → ControlState Formula → Bool) : Bool :=
  match program with
  | .ok task =>
    match ((symbolicMemory .sep).scheduled task .approximate).walk count with
    | some (s, _) => test task s
    | none => false
  | .error _ => false

theorem exists_of_comesTo {program : Except Error Task} {count : Nat}
    {test : Task → ControlState Formula → Bool} (checked : comesTo program count test = true) :
    ∃ task s, program = .ok task ∧
      ((symbolicMemory .sep).scheduled task .approximate).Reachable s ∧ test task s = true := by
  unfold comesTo at checked
  split at checked
  · rename_i task
    split at checked
    · rename_i s context walked
      exact ⟨task, s, rfl, Analysis.reachable_of_walk walked, checked⟩
    · cases checked
  · cases checked

end Control

end EventCheck
