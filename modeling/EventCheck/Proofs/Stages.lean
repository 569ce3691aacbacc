import EventCheck.Proofs.Threads

/-!
A step of the scheduler in two stages. First the thread that steps is moved, its effect changes
other threads, and observers may start over; then all threads settle and the next one is picked,
which is also what happens at the start. What the first stage does to each thread is stated here
once.
-/

namespace EventCheck

namespace Task

variable {task : Task} {policy : WaitPolicy} {threads next : List Thread} {t u : Thread}
variable {index sender : Nat} {step : Step} {message : String}

/-! ### Messages -/

/-- The message of the sender starts the thread at this place over. -/
def Triggers (task : Task) (sender : Nat) (message : String) (entry : Thread × Nat) : Prop :=
  entry.2 ≠ sender ∧
    ∃ script, task.scriptOf entry.1 = .ok script ∧ isEligible script message entry.1 = true

theorem trigger_eq_ok {entries : List (Thread × Nat)} {result : List Thread × SortedSet Nat}
    (given : task.trigger sender message entries = .ok result) :
    List.Forall₂ (fun entry u => (task.Triggers sender message entry ∧ u = entry.1.restart) ∨
        (¬task.Triggers sender message entry ∧ u = entry.1)) entries result.1 ∧
      ∀ id, id ∈ result.2 ↔
        ∃ entry ∈ entries, task.Triggers sender message entry ∧ entry.1.id = id := by
  induction entries generalizing result with
  | nil =>
    obtain rfl := Except.ok.inj given
    exact ⟨.nil, by simp⟩
  | cons entry rest ih =>
    obtain ⟨t, place⟩ := entry
    unfold trigger at given
    by_cases own : place = sender
    · rw [if_pos own] at given
      obtain ⟨⟨threads, started⟩, found, built⟩ := bind_eq_ok_iff.1 given
      obtain rfl := pure_eq_ok_iff.1 built
      obtain ⟨each, ids⟩ := ih found
      have untouched : ¬task.Triggers sender message (t, place) := fun triggers => triggers.1 own
      refine ⟨.cons (Or.inr ⟨untouched, rfl⟩) each, fun id => ?_⟩
      simp [ids, untouched]
    · rw [if_neg own] at given
      obtain ⟨script, known, given⟩ := bind_eq_ok_iff.1 given
      obtain ⟨⟨threads, started⟩, found, built⟩ := bind_eq_ok_iff.1 given
      obtain rfl := pure_eq_ok_iff.1 built
      obtain ⟨each, ids⟩ := ih found
      by_cases eligible : isEligible script message t = true
      · have triggers : task.Triggers sender message (t, place) := ⟨own, script, known, eligible⟩
        rw [if_pos eligible]
        refine ⟨.cons (Or.inl ⟨triggers, rfl⟩) each, fun id => ?_⟩
        simp [ids, triggers, eq_comm]
      · have untouched : ¬task.Triggers sender message (t, place) := by
          rintro ⟨_, other, found, holds⟩
          obtain rfl := Except.ok.inj (known.symm.trans found)
          exact eligible holds
        rw [if_neg eligible]
        refine ⟨.cons (Or.inr ⟨untouched, rfl⟩) each, fun id => ?_⟩
        simp [ids, untouched]

theorem length_trigger {result : List Thread × SortedSet Nat}
    (given : task.trigger sender message threads.zipIdx = .ok result) :
    result.1.length = threads.length := by
  rw [← (trigger_eq_ok given).1.length_eq, List.length_zipIdx]

/-- What a message does to the thread at a place. -/
theorem getElem?_trigger {result : List Thread × SortedSet Nat}
    (given : task.trigger sender message threads.zipIdx = .ok result)
    (found : result.1[index]? = some u) : ∃ t, threads[index]? = some t ∧
      (task.Triggers sender message (t, index) ∧ u = t.restart ∨
        ¬task.Triggers sender message (t, index) ∧ u = t) := by
  obtain ⟨⟨t, place⟩, listed, change⟩ :=
    exists_left_of_getElem? (trigger_eq_ok given).1 found
  rw [List.getElem?_zipIdx] at listed
  obtain ⟨same, here, places⟩ := Option.map_eq_some_iff.1 listed
  obtain ⟨rfl, rfl⟩ := Prod.mk.inj places
  rw [Nat.zero_add] at change
  exact ⟨same, here, change⟩

/-- Whoever is started is the thread at another place. -/
theorem exists_of_started {result : List Thread × SortedSet Nat}
    (given : task.trigger sender message threads.zipIdx = .ok result) {id : Nat}
    (started : id ∈ result.2) : ∃ place t, place ≠ sender ∧ threads[place]? = some t ∧
      result.1[place]? = some t.restart ∧ t.id = id := by
  obtain ⟨each, ids⟩ := trigger_eq_ok given
  obtain ⟨⟨t, place⟩, member, triggers, same⟩ := (ids id).1 started
  have found : threads[place]? = some t := List.mem_zipIdx_iff_getElem?.1 member
  have listed : threads.zipIdx[place]? = some (t, place) := by
    rw [List.getElem?_zipIdx, found, Option.map_some, Nat.zero_add]
  obtain ⟨u, after, change⟩ := exists_right_of_getElem? each listed
  rcases change with ⟨_, rfl⟩ | ⟨untouched, _⟩
  · exact ⟨place, t, triggers.1, found, after, same⟩
  · exact absurd triggers untouched

/-! ### Effects -/

/-- What its effect can do to a thread that steps. -/
inductive Affects (changed : List Thread) (index : Nat) (t : Thread) : Thread → Prop
  | nothing : Affects changed index t t
  | fails {properties : SortedSet Property} : Affects changed index t (t.fail properties)
  | waits {started : SortedSet Nat} (anyone : started ≠ ∅)
    (others : ∀ id ∈ started, ∃ place u, place ≠ index ∧
      changed[place]? = some (Thread.restart u) ∧ u.id = id) :
    Affects changed index t (t.waitFor started)

/-- What a step does before the threads settle: it changes the thread that steps, and others may
start over. -/
structure Changes (affected : List Thread → Thread → Thread → Prop) (index : Nat)
    (threads changed : List Thread) : Prop where
  length : changed.length = threads.length
  others : ∀ place t u, place ≠ index → threads[place]? = some t → changed[place]? = some u →
    u = t ∨ u = t.restart
  stepped : ∀ t u, threads[index]? = some t → changed[index]? = some u → affected changed t u

theorem Changes.forall₂ {affected : List Thread → Thread → Thread → Prop}
    {r : Thread → Thread → Prop} (changes : Changes affected index threads next)
    (same : ∀ t, r t t) (restart : ∀ t, r t t.restart)
    (stepped : ∀ t u, threads[index]? = some t → affected next t u → r t u) :
    List.Forall₂ r threads next := by
  refine List.forall₂_iff_get.2 ⟨changes.length.symm, fun place before after => ?_⟩
  have first : threads[place]? = some (threads.get ⟨place, before⟩) :=
    List.getElem?_eq_getElem before
  have second : next[place]? = some (next.get ⟨place, after⟩) := List.getElem?_eq_getElem after
  by_cases own : place = index
  · subst own
    exact stepped _ _ first (changes.stepped _ _ first second)
  · rcases changes.others place _ _ own first second with unchanged | restarted
    · rw [unchanged]
      exact same _
    · rw [restarted]
      exact restart _

theorem Changes.all {affected : List Thread → Thread → Thread → Prop} {motive : Thread → Prop}
    (changes : Changes affected index threads next) (restart : ∀ t, motive t → motive t.restart)
    (stepped : ∀ t u, threads[index]? = some t → affected next t u → motive u)
    (all : ∀ t ∈ threads, motive t) : ∀ t ∈ next, motive t := by
  intro u member
  obtain ⟨t, inside, keeps⟩ := exists_left_of_mem
    (changes.forall₂ (r := fun t u => motive t → motive u) (fun _ => id) restart
      fun t u found affects _ => stepped t u found affects) member
  exact keeps (all t inside)

theorem changes_refl : Changes (Affects · index) index threads threads where
  length := rfl
  others place t u _ before after := by
    obtain rfl := Option.some.inj (before.symm.trans after)
    exact Or.inl rfl
  stepped t u before after := by
    obtain rfl := Option.some.inj (before.symm.trans after)
    exact .nothing

theorem changes_trigger {result : List Thread × SortedSet Nat}
    (given : task.trigger index message threads.zipIdx = .ok result) :
    Changes (Affects · index) index threads result.1 where
  length := length_trigger given
  others place t u _ before after := by
    obtain ⟨same, here, change⟩ := getElem?_trigger given after
    obtain rfl := Option.some.inj (before.symm.trans here)
    exact (change.imp And.right And.right).symm
  stepped t u before after := by
    obtain ⟨same, here, ⟨triggers, _⟩ | ⟨_, rfl⟩⟩ := getElem?_trigger given after
    · exact absurd rfl triggers.1
    · obtain rfl := Option.some.inj (before.symm.trans here)
      exact .nothing

/-- A change of the thread that steps on top of changes that leave it alone. -/
theorem Changes.modify {f : Thread → Thread} {affected : List Thread → Thread → Thread → Prop}
    (changes : Changes (Affects · index) index threads next)
    (same : next[index]? = threads[index]?)
    (affects : ∀ t, threads[index]? = some t → affected (next.modify index f) t (f t)) :
    Changes affected index threads (next.modify index f) where
  length := by rw [List.length_modify, changes.length]
  others place t u away before after := by
    rw [List.getElem?_modify_ne _ _ (Ne.symm away)] at after
    exact changes.others place t u away before after
  stepped t u before after := by
    rw [List.getElem?_modify_eq, same, before] at after
    obtain rfl := Option.some.inj after
    exact affects t before

theorem changes_applyEffect {effect : Statement}
    (given : task.applyEffect policy threads index effect = .ok next) :
    Changes (Affects · index) index threads next := by
  rcases applyEffect_cases given with rfl | ⟨_, _, rfl⟩ |
    ⟨text, ⟨changed, started⟩, sent, rfl | ⟨_, anyone, rfl⟩⟩
  · exact changes_refl
  · exact changes_refl.modify rfl fun _ _ => .fails
  · exact changes_trigger sent
  · have changes := changes_trigger sent
    have same : changed[index]? = threads[index]? := by
      cases after : changed[index]? with
      | some u =>
        obtain ⟨t, before, ⟨triggers, _⟩ | ⟨_, rfl⟩⟩ := getElem?_trigger sent after
        · exact absurd rfl triggers.1
        · exact before.symm
      | none =>
        have outside := List.getElem?_eq_none_iff.1 after
        rw [changes.length] at outside
        exact (List.getElem?_eq_none_iff.2 outside).symm
    refine changes.modify same fun t _ => .waits anyone fun id member => ?_
    obtain ⟨place, u, away, _, after, same⟩ := exists_of_started sent member
    refine ⟨place, u, away, ?_, same⟩
    rw [List.getElem?_modify_ne _ _ (Ne.symm away)]
    exact after

/-! ### The two stages -/

/-- The first stage of a step: the thread that steps and what it does to others. -/
def prepare (task : Task) (policy : WaitPolicy) (threads : List Thread) (index : Nat)
    (step : Step) : Except Error (List Thread) := do
  let threads ← task.applyEffect policy (threads.modify index (move step)) index step.effect
  match threads[index]? with
  | none => return threads
  | some stepped =>
    let status ← task.statusAfter step stepped
    let threads := threads.set index { stepped with status }
    if stepped.isObserver then return threads else mapThreads task.restartObserver threads

/-- The second stage: the threads settle and the next one is picked. -/
def proceed (task : Task) (threads : List Thread) (index : Nat) : Except Error (List Thread) := do
  let threads := schedule (← task.settle threads) index
  task.checkSchedule threads
  return threads

theorem applyStep_eq (inside : index < threads.length) :
    task.applyStep policy threads index step =
      (task.prepare policy threads index step >>= fun prepared => task.proceed prepared index) := by
  unfold applyStep prepare proceed
  cases effect : task.applyEffect policy (threads.modify index (move step)) index step.effect with
  | error e => rfl
  | ok changed =>
    have length : changed.length = threads.length := by
      rw [(changes_applyEffect effect).length, List.length_modify]
    obtain ⟨stepped, found⟩ : ∃ stepped, changed[index]? = some stepped :=
      ⟨_, List.getElem?_eq_getElem (by omega)⟩
    simp only [bind, Except.bind, found]
    cases task.statusAfter step stepped with
    | error e => rfl
    | ok status =>
      dsimp only
      split <;> rfl

/-- The thread after its own step: moved, affected, and with its new status. -/
def Stepped (task : Task) (step : Step) (index : Nat) (prepared : List Thread) (t u : Thread) :
    Prop :=
  ∃ stepped status, Affects prepared index (move step t) stepped ∧
    task.statusAfter step stepped = .ok status ∧ u = { stepped with status }

theorem restartObserver_cases (given : task.restartObserver t = .ok u) :
    u = t ∨ t.isObserver = true ∧ t.status = .done ∧ u = t.restart := by
  unfold restartObserver at given
  split at given
  · rename_i done
    obtain ⟨script, _, built⟩ := bind_eq_ok_iff.1 given
    obtain rfl := pure_eq_ok_iff.1 built
    split
    · exact Or.inr (by simpa using done)
    · exact Or.inl rfl
  · obtain rfl := Except.ok.inj given
    exact Or.inl rfl

/-- What the step of a thread of the program does to an observer that is done, and otherwise
nothing. -/
def Observes (task : Task) (stepper t u : Thread) : Prop :=
  if stepper.isObserver then u = t else task.restartObserver t = .ok u

theorem Observes.cases {stepper : Thread} (observes : task.Observes stepper t u) :
    u = t ∨ stepper.isObserver = false ∧ t.isObserver = true ∧ t.status = .done ∧
      u = t.restart := by
  unfold Observes at observes
  split at observes
  · exact Or.inl observes
  · rename_i program
    exact (restartObserver_cases observes).imp_right fun done => ⟨by simpa using program, done⟩

theorem observes_congr {v w : Thread} (kind : v.isObserver = w.isObserver) :
    task.Observes v = task.Observes w := by
  unfold Observes
  rw [kind]

/-- Moving a thread leaves it inactive or active as it was. -/
theorem move_cases (step : Step) (t : Thread) : ∃ location status calls scopes,
    (status = t.status ∨ status.isRunning = true) ∧
      move step t = { t with location, status, calls, scopes } := by
  unfold move Thread.pushCall Thread.popCall
  cases step.kind with
  | plain | finish => exact ⟨_, _, _, _, Or.inl rfl, rfl⟩
  | call call =>
    dsimp only
    split
    · exact ⟨_, _, _, _, Or.inr rfl, rfl⟩
    · exact ⟨_, _, _, _, Or.inl rfl, rfl⟩
  | «return» =>
    dsimp only
    cases t.calls <;> dsimp only <;> split
    · exact ⟨_, _, _, _, Or.inr rfl, rfl⟩
    · exact ⟨_, _, _, _, Or.inl rfl, rfl⟩
    · exact ⟨_, _, _, _, Or.inr rfl, rfl⟩
    · exact ⟨_, _, _, _, Or.inl rfl, rfl⟩

theorem isObserver_move : (move step t).isObserver = t.isObserver := by
  obtain ⟨_, _, _, _, _, moved⟩ := move_cases step t
  rw [moved]

theorem Affects.isObserver (affects : Affects next index t u) : u.isObserver = t.isObserver := by
  cases affects <;> rfl

theorem prepare_eq_ok (given : task.prepare policy threads index step = .ok next)
    (inside : index < threads.length) : ∃ effected stepped status,
      task.applyEffect policy (threads.modify index (move step)) index step.effect =
        .ok effected ∧
      effected[index]? = some stepped ∧ task.statusAfter step stepped = .ok status ∧
      List.Forall₂ (task.Observes stepped) (effected.set index { stepped with status }) next := by
  unfold prepare at given
  obtain ⟨effected, effect, given⟩ := bind_eq_ok_iff.1 given
  obtain ⟨stepped, found⟩ : ∃ stepped, effected[index]? = some stepped := by
    refine ⟨_, List.getElem?_eq_getElem ?_⟩
    rw [(changes_applyEffect effect).length, List.length_modify]
    exact inside
  simp only [found] at given
  obtain ⟨status, after, given⟩ := bind_eq_ok_iff.1 given
  refine ⟨effected, stepped, status, effect, found, after, ?_⟩
  unfold Observes
  split at given
  · rename_i observer
    obtain rfl := pure_eq_ok_iff.1 given
    exact List.forall₂_same.2 fun t _ => by rw [if_pos observer]
  · rename_i program
    refine (mapThreads_eq_ok_iff.1 given).imp fun t u restarted => ?_
    rw [if_neg program]
    exact restarted

/-- What the first stage of a step does to every thread. -/
theorem changes_prepare (given : task.prepare policy threads index step = .ok next)
    (inside : index < threads.length) : Changes (task.Stepped step index) index threads next := by
  obtain ⟨effected, stepped, status, effect, found, after, observers⟩ := prepare_eq_ok given inside
  have changes := changes_applyEffect effect
  have length := changes.length
  rw [List.length_modify] at length
  have kept : ∀ place u, place ≠ index → effected[place]? = some (Thread.restart u) →
      next[place]? = some u.restart := by
    intro place u away before
    rw [← List.getElem?_set_ne (Ne.symm away)] at before
    obtain ⟨w, last, observes⟩ := exists_right_of_getElem? observers before
    rcases observes.cases with rfl | ⟨_, _, done, _⟩
    · exact last
    · cases done
  constructor
  · rw [← observers.length_eq, List.length_set, length]
  · intro place t u away before last
    obtain ⟨w, middle, observes⟩ := exists_left_of_getElem? observers last
    rw [List.getElem?_set_ne (Ne.symm away)] at middle
    have moved : (threads.modify index (move step))[place]? = some t := by
      rw [List.getElem?_modify_ne _ _ (Ne.symm away)]
      exact before
    rcases changes.others place t w away moved middle with rfl | rfl
    · exact observes.cases.imp_right fun restarted => restarted.2.2.2
    · exact Or.inr (observes.cases.elim id fun restarted => restarted.2.2.2)
  · intro t u before last
    obtain ⟨w, middle, observes⟩ := exists_left_of_getElem? observers last
    rw [List.getElem?_set_self (by omega)] at middle
    obtain rfl := Option.some.inj middle
    have moved : (threads.modify index (move step))[index]? = some (move step t) := by
      rw [List.getElem?_modify_eq, before]
      rfl
    have affects := changes.stepped _ stepped moved found
    refine ⟨stepped, status, ?_, after, ?_⟩
    · cases affects with
      | nothing => exact .nothing
      | fails => exact .fails
      | waits anyone others =>
        refine .waits anyone fun id member => ?_
        obtain ⟨place, u, away, restarted, same⟩ := others id member
        exact ⟨place, u, away, kept place u away restarted, same⟩
    · rcases observes.cases with rfl | ⟨program, observer, _⟩
      · rfl
      · cases program.symm.trans observer

/-! ### Settling -/

/-- What rounds keep, settling keeps; it ends where a round changes nothing. -/
theorem settle_induction {motive : List Thread → Prop} (given : task.settle threads = .ok next)
    (start : motive threads)
    (round : ∀ before after, task.settleRound before = .ok after → motive before → motive after) :
    motive next ∧ task.settleRound next = .ok next := by
  fun_induction Task.settle task threads with
  | case1 => cases given
  | case2 threads last =>
    obtain rfl := Except.ok.inj given
    exact ⟨start, last⟩
  | case3 threads middle first _ ih => exact ih given (round threads middle first start)

end Task

end EventCheck
