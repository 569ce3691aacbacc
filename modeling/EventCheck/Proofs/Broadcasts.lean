import EventCheck.Proofs.Observation
import EventCheck.Proofs.Waiting

/-!
Whom a message starts over. Of the threads other than the sender these are those that its message
is for, that have not failed and that are not in the middle of a script that must not be
interrupted. No other thread moves, and a sender that waits does so for just those that it has
started and that are not finished at once.
-/

namespace EventCheck

variable {task : Task} {policy : WaitPolicy} {threads next : List Thread} {t u w : Thread}
variable {index place : Nat} {step : Step} {effect : Statement} {message : Expression}

namespace Task

/-- The statement sends the message. -/
def Sends (effect : Statement) (text : String) : Prop :=
  effect = .broadcast (.const (.str text)) ∨ effect = .broadcastAndWait (.const (.str text))

/-- The thread at the place is another one than that at the index, it has not failed, the message
that the statement sends is for it, and it is not in the middle of a script that must not be
interrupted. -/
structure Eligible (task : Task) (index : Nat) (effect : Statement) (place : Nat) (t : Thread) :
    Prop where
  away : place ≠ index
  alive : t.status ≠ .failure
  receives : ∃ text script, Sends effect text ∧ task.scriptOf t = .ok script ∧
    script.event = .message text ∧ (t.isInProgress = true → script.restartOnTrigger = true)

theorem isEligible_iff {script : Script} {text : String} : isEligible script text t = true ↔
    script.event = .message text ∧ t.status ≠ .failure ∧
      (t.isInProgress = true → script.restartOnTrigger = true) := by
  unfold isEligible Script.isTriggeredBy
  cases t.isInProgress <;> cases script.restartOnTrigger <;> simp

theorem eligible_iff : task.Eligible index effect place t ↔
    ∃ text, Sends effect text ∧ task.Triggers index text (t, place) := by
  constructor
  · rintro ⟨away, alive, text, script, sends, found, event, restarts⟩
    exact ⟨text, sends, away, script, found, isEligible_iff.2 ⟨event, alive, restarts⟩⟩
  · rintro ⟨text, sends, away, script, found, eligible⟩
    obtain ⟨event, alive, restarts⟩ := isEligible_iff.1 eligible
    exact ⟨away, alive, text, script, sends, found, event, restarts⟩

/-- A statement sends one message only. -/
theorem Sends.unique {text other : String} (first : Sends effect text)
    (second : Sends effect other) : other = text := by
  rcases first with rfl | rfl <;> rcases second with same | same <;> cases same <;> rfl

theorem eligible_iff_triggers {text : String} (sends : Sends effect text) :
    task.Eligible index effect place t ↔ task.Triggers index text (t, place) := by
  rw [eligible_iff]
  constructor
  · rintro ⟨other, same, triggers⟩
    exact sends.unique same ▸ triggers
  · exact fun triggers => ⟨text, sends, triggers⟩

/-! ### Effects -/

/-- What a message makes of the thread at a place. -/
theorem getElem?_of_trigger {text : String} {result : List Thread × SortedSet Nat}
    (given : task.trigger index text threads.zipIdx = .ok result)
    (before : threads[place]? = some t) :
    (task.Triggers index text (t, place) → result.1[place]? = some t.restart) ∧
      (¬task.Triggers index text (t, place) → result.1[place]? = some t) := by
  obtain ⟨u, after⟩ : ∃ u, result.1[place]? = some u := by
    refine ⟨_, List.getElem?_eq_getElem ?_⟩
    rw [length_trigger given]
    exact (List.getElem?_eq_some_iff.1 before).1
  obtain ⟨same, here, change⟩ := getElem?_trigger given after
  obtain rfl := Option.some.inj (before.symm.trans here)
  rcases change with ⟨triggers, rfl⟩ | ⟨misses, rfl⟩
  · exact ⟨fun _ => after, fun misses => absurd triggers misses⟩
  · exact ⟨fun triggers => absurd triggers misses, fun _ => after⟩

/-- The effect of a statement on another thread than the one that steps. -/
theorem applyEffect_place (given : task.applyEffect policy threads index effect = .ok next)
    (away : place ≠ index) (before : threads[place]? = some t) :
    (task.Eligible index effect place t → next[place]? = some t.restart) ∧
      (¬task.Eligible index effect place t → next[place]? = some t) := by
  have silent : (∀ text, ¬Sends effect text) → next[place]? = some t →
      (task.Eligible index effect place t → next[place]? = some t.restart) ∧
        (¬task.Eligible index effect place t → next[place]? = some t) := by
    intro silent kept
    refine ⟨fun eligible => ?_, fun _ => kept⟩
    obtain ⟨text, sends, _⟩ := eligible_iff.1 eligible
    exact absurd sends (silent text)
  cases effect with
  | broadcast e =>
    obtain ⟨text, constant, rest⟩ := bind_eq_ok_iff.1 given
    obtain rfl := messageOf_eq_ok constant
    obtain ⟨result, sent, built⟩ := bind_eq_ok_iff.1 rest
    obtain rfl := pure_eq_ok_iff.1 built
    rw [eligible_iff_triggers (Or.inl rfl)]
    exact getElem?_of_trigger sent before
  | broadcastAndWait e =>
    obtain ⟨text, constant, rest⟩ := bind_eq_ok_iff.1 given
    obtain rfl := messageOf_eq_ok constant
    obtain ⟨result, sent, built⟩ := bind_eq_ok_iff.1 rest
    obtain rfl := pure_eq_ok_iff.1 built
    rw [eligible_iff_triggers (Or.inr rfl)]
    split
    · exact getElem?_of_trigger sent before
    · rw [List.getElem?_modify_ne _ _ (Ne.symm away)]
      exact getElem?_of_trigger sent before
  | signalFailure properties =>
    obtain rfl := Except.ok.inj given
    refine silent (fun text sends => ?_) ?_
    · rcases sends with same | same <;> cases same
    · rw [List.getElem?_modify_ne _ _ (Ne.symm away)]
      exact before
  | waitUntil e | waitSecs e =>
    unfold applyEffect at given
    cases policy with
    | approximate =>
      obtain rfl := Except.ok.inj given
      exact silent (fun text sends => by rcases sends with same | same <;> cases same) before
    | reject => cases given
  | _ =>
    obtain rfl := Except.ok.inj given
    exact silent (fun text sends => by rcases sends with same | same <;> cases same) before

/-- A sender waits for those that its message starts over. -/
theorem applyEffect_sender
    (given : task.applyEffect policy threads index (.broadcastAndWait message) = .ok next)
    (before : threads[index]? = some t) : ∃ started : SortedSet Nat,
      (∀ id, id ∈ started ↔ ∃ place u, threads[place]? = some u ∧
        task.Eligible index (.broadcastAndWait message) place u ∧ u.id = id) ∧
      (started = ∅ ∧ next[index]? = some t ∨
        started ≠ ∅ ∧ next[index]? = some (t.waitFor started)) := by
  obtain ⟨text, constant, rest⟩ := bind_eq_ok_iff.1 given
  obtain rfl := messageOf_eq_ok constant
  obtain ⟨⟨changed, started⟩, sent, built⟩ := bind_eq_ok_iff.1 rest
  obtain rfl := pure_eq_ok_iff.1 built
  have own : changed[index]? = some t :=
    (getElem?_of_trigger sent before).2 fun triggers => triggers.1 rfl
  refine ⟨started, fun id => ?_, ?_⟩
  · rw [(trigger_eq_ok sent).2 id]
    constructor
    · rintro ⟨⟨u, place⟩, listed, triggers, same⟩
      exact ⟨place, u, List.mem_zipIdx_iff_getElem?.1 listed,
        (eligible_iff_triggers (Or.inr rfl)).2 triggers, same⟩
    · rintro ⟨place, u, found, eligible, same⟩
      exact ⟨(u, place), List.mem_zipIdx_iff_getElem?.2 found,
        (eligible_iff_triggers (Or.inr rfl)).1 eligible, same⟩
  · by_cases none : started = ∅
    · rw [if_pos (SortedSet.isEmpty_iff.2 none)]
      exact Or.inl ⟨none, own⟩
    · rw [if_neg (mt SortedSet.isEmpty_iff.1 none), List.getElem?_modify_eq, own]
      exact Or.inr ⟨none, rfl⟩

/-! ### The first stage -/

/-- The thread observes statements and is done, so that the next one starts it over. -/
structure AwaitsStatement (task : Task) (t : Thread) : Prop where
  observer : t.isObserver = true
  done : t.status = .done
  event : ∃ script, task.scriptOf t = .ok script ∧ script.event = .afterStatement

theorem eq_of_observes {stepper : Thread} (observes : task.Observes stepper t u)
    (idle : ¬task.AwaitsStatement t) : u = t := by
  unfold Observes restartObserver at observes
  split at observes
  · exact observes
  · split at observes
    · rename_i done
      obtain ⟨script, found, built⟩ := bind_eq_ok_iff.1 observes
      obtain rfl := pure_eq_ok_iff.1 built
      split
      · rename_i event
        obtain ⟨observer, done⟩ := Bool.and_eq_true_iff.1 done
        exact absurd ⟨observer, eq_of_beq done, script, found, event⟩ idle
      · rfl
    · exact (Except.ok.inj observes).symm

theorem prepare_place (given : task.prepare policy threads index step = .ok next)
    (inside : index < threads.length) (away : place ≠ index) (before : threads[place]? = some t) :
    (task.Eligible index step.effect place t → next[place]? = some t.restart) ∧
      (¬task.Eligible index step.effect place t → ¬task.AwaitsStatement t →
        next[place]? = some t) := by
  obtain ⟨effected, stepped, status, effect, _, _, observers⟩ := prepare_eq_ok given inside
  have moved : (threads.modify index (move step))[place]? = some t := by
    rw [List.getElem?_modify_ne _ _ (Ne.symm away)]
    exact before
  have kept : ∀ u, effected[place]? = some u → ¬task.AwaitsStatement u → next[place]? = some u := by
    intro u found idle
    rw [← List.getElem?_set_ne (Ne.symm away)] at found
    obtain ⟨v, last, observes⟩ := exists_right_of_getElem? observers found
    rw [last, eq_of_observes observes idle]
  obtain ⟨restarts, leaves⟩ := applyEffect_place effect away moved
  refine ⟨fun eligible => kept _ (restarts eligible) ?_,
    fun misses idle => kept _ (leaves misses) idle⟩
  rintro ⟨_, ⟨⟩, _⟩

theorem prepare_sender (given : task.prepare policy threads index step = .ok next)
    (before : threads[index]? = some t) (sends : step.effect = .broadcastAndWait message)
    (nobody : t.waitingFor = ∅) : ∃ u, next[index]? = some u ∧
      ∀ id, id ∈ u.waitingFor ↔ ∃ place r, threads[place]? = some r ∧
        task.Eligible index step.effect place r ∧ r.id = id := by
  obtain ⟨effected, w, status, effect, found, _, observers⟩ :=
    prepare_eq_ok given (List.getElem?_eq_some_iff.1 before).1
  have moved : (threads.modify index (move step))[index]? = some (move step t) := by
    rw [List.getElem?_modify_eq, before]
    rfl
  rw [sends] at effect
  obtain ⟨started, listed, form⟩ := applyEffect_sender effect moved
  have own : (effected.set index { w with status })[index]? = some { w with status } :=
    List.getElem?_set_self (List.getElem?_eq_some_iff.1 found).1
  obtain ⟨u, last, observes⟩ := exists_right_of_getElem? observers own
  have same : u = { w with status } := by
    rcases observes.cases with same | ⟨program, observer, _⟩
    · exact same
    · cases program.symm.trans observer
  have waits : u.waitingFor = started := by
    obtain ⟨_, _, _, _, _, change⟩ := move_cases step t
    rw [same]
    rcases form with ⟨none, after⟩ | ⟨_, after⟩
    · obtain rfl := Option.some.inj (found.symm.trans after)
      rw [none, change]
      exact nobody
    · obtain rfl := Option.some.inj (found.symm.trans after)
      rfl
  refine ⟨u, last, fun id => ?_⟩
  rw [waits, listed id, sends]
  -- moving the sender changes none of the others
  constructor
  · rintro ⟨place, r, there, eligible, number⟩
    rw [List.getElem?_modify_ne _ _ (Ne.symm eligible.away)] at there
    exact ⟨place, r, there, eligible, number⟩
  · rintro ⟨place, r, there, eligible, number⟩
    rw [← List.getElem?_modify_ne (move step) threads (Ne.symm eligible.away)] at there
    exact ⟨place, r, there, eligible, number⟩

/-! ### The second stage -/

theorem mem_finishedIds {id : Nat} : id ∈ finishedIds threads ↔
    ∃ t ∈ threads, t.status.isFinished = true ∧ t.id = id := by
  rw [finishedIds, SortedSet.mem_ofList, List.mem_map]
  simp only [List.mem_filter, and_assoc]

/-- Whoever is finished stays so. -/
theorem finishedIds_subset (each : List.Forall₂ (fun t u : Thread => u.id = t.id ∧
    (t.status.isFinished = true → u.status.isFinished = true)) threads next) :
    finishedIds threads ⊆ finishedIds next := by
  intro id member
  obtain ⟨t, inside, finished, same⟩ := mem_finishedIds.1 member
  obtain ⟨u, after, number, still⟩ := exists_right_of_mem each inside
  exact mem_finishedIds.2 ⟨u, after, still finished, number.trans same⟩

/-- The second thread waits for all that the first one waits for, but for some that are
finished. -/
structure KeepsWaiting (finished : SortedSet Nat) (t u : Thread) : Prop where
  fewer : u.waitingFor ⊆ t.waitingFor
  others : ∀ id ∈ t.waitingFor, id ∈ u.waitingFor ∨ id ∈ finished

theorem KeepsWaiting.of_eq {finished : SortedSet Nat} (same : u.waitingFor = t.waitingFor) :
    KeepsWaiting finished t u := by
  constructor
  · rw [same]
    exact fun _ member => member
  · rw [same]
    exact fun _ member => Or.inl member

theorem KeepsWaiting.trans {earlier later : SortedSet Nat} (grows : earlier ⊆ later)
    (first : KeepsWaiting earlier t u) (second : KeepsWaiting later u w) :
    KeepsWaiting later t w where
  fewer id member := first.fewer id (second.fewer id member)
  others id member := by
    rcases first.others id member with still | finished
    · exact second.others id still
    · exact Or.inr (grows id finished)

/-- Whoever is released goes on waiting for those that are not finished. -/
theorem keepsWaiting_release {finished : SortedSet Nat} :
    KeepsWaiting finished t (t.release finished) := by
  have remains : ∀ id ∈ t.waitingFor, id ∈ remaining finished t ∨ id ∈ finished := by
    intro id member
    by_cases done : id ∈ finished
    · exact Or.inr done
    · refine Or.inl (SortedSet.mem_filter.2 ⟨member, ?_⟩)
      rw [Bool.not_eq_true', ← Bool.not_eq_true, SortedSet.contains_iff]
      exact done
  rcases release_cases finished t with ⟨same, _⟩ | ⟨_, _, ⟨none, same⟩ | ⟨_, same⟩⟩
  · rw [same]
    exact .of_eq rfl
  · rw [same]
    refine ⟨fun id member => absurd member (SortedSet.not_mem_empty id), fun id member => ?_⟩
    have left := remains id member
    rw [none] at left
    exact left
  · rw [same]
    exact ⟨fun id member => (SortedSet.mem_filter.1 member).1, remains⟩

theorem keepsWaiting_settleRound (round : task.settleRound threads = .ok next) :
    finishedIds threads ⊆ finishedIds next ∧
      List.Forall₂ (KeepsWaiting (finishedIds next)) threads next := by
  obtain ⟨middle, finishes, built⟩ := bind_eq_ok_iff.1 round
  obtain rfl := pure_eq_ok_iff.1 built
  have stuck : List.Forall₂ (fun t u : Thread => u.id = t.id ∧ u.waitingFor = t.waitingFor ∧
      (t.status.isFinished = true → u.status.isFinished = true)) threads middle := by
    refine (mapThreads_eq_ok_iff.1 finishes).imp fun t u changed => ?_
    rcases finishStuck_cases changed with ⟨rfl, _⟩ | ⟨_, rfl⟩
    · exact ⟨rfl, rfl, id⟩
    · exact ⟨rfl, rfl, fun _ => rfl⟩
  have released : List.Forall₂ (fun t u : Thread => u = t.release (finishedIds middle)) middle
      (middle.map (Thread.release (finishedIds middle))) := by
    rw [List.forall₂_map_right_iff]
    exact List.forall₂_same.2 fun _ _ => rfl
  have first : finishedIds threads ⊆ finishedIds middle :=
    finishedIds_subset (stuck.imp fun _ _ change => ⟨change.1, change.2.2⟩)
  have second : finishedIds middle ⊆
      finishedIds (middle.map (Thread.release (finishedIds middle))) := by
    refine finishedIds_subset (released.imp ?_)
    rintro t _ rfl
    rcases release_cases (finishedIds middle) t with ⟨same, _⟩ | ⟨waits, _⟩
    · rw [same]
      exact ⟨rfl, id⟩
    · obtain ⟨_, _, alike⟩ : t.Alike (t.release (finishedIds middle)) := Thread.alike_release
      refine ⟨by rw [alike], fun finished => ?_⟩
      rw [waits] at finished
      cases finished
  refine ⟨fun id member => second id (first id member), forall₂_comp ?_ stuck released⟩
  rintro t u _ ⟨_, same, _⟩ rfl
  have waits : KeepsWaiting (finishedIds middle) t u := .of_eq same
  exact (waits.trans (fun _ member => member) keepsWaiting_release).trans second (.of_eq rfl)

theorem keepsWaiting_settle (settled : task.settle threads = .ok next) :
    List.Forall₂ (KeepsWaiting (finishedIds next)) threads next := by
  refine (settle_induction (motive := fun middle =>
    List.Forall₂ (KeepsWaiting (finishedIds middle)) threads middle) settled
    (List.forall₂_same.2 fun _ _ => .of_eq rfl) ?_).1
  intro before after round all
  obtain ⟨grows, later⟩ := keepsWaiting_settleRound round
  exact forall₂_comp (fun _ _ _ first second => first.trans grows second) all later

theorem keepsWaiting_proceed (given : task.proceed threads index = .ok next) :
    List.Forall₂ (KeepsWaiting (finishedIds next)) threads next := by
  obtain ⟨settled, settles, given⟩ := bind_eq_ok_iff.1 given
  obtain ⟨_, _, built⟩ := bind_eq_ok_iff.1 given
  obtain rfl := pure_eq_ok_iff.1 built
  have each := keepsWaiting_settle settles
  rcases schedule_cases settled index with ⟨same, _⟩ | ⟨_, place, t, found, ready, same, _⟩
  · rw [same]
    exact each
  · rw [same]
    have yields : t.status = .yield := by
      simpa using (Bool.and_eq_true_iff.1 ready).2
    have kept : finishedIds settled ⊆ finishedIds (settled.modify place startThread) := by
      refine finishedIds_subset (forall₂_modify (fun _ => ⟨rfl, id⟩) fun other here => ?_)
      obtain rfl := Option.some.inj (here.symm.trans found)
      refine ⟨rfl, fun finished => ?_⟩
      rw [yields] at finished
      cases finished
    exact forall₂_comp (s := fun t u : Thread => u.waitingFor = t.waitingFor)
      (fun _ _ _ first same => first.trans kept (.of_eq same)) each
      (forall₂_modify (fun _ => rfl) fun _ _ => rfl)

end Task

/-! ### The whole step -/

theorem Thread.IsUnfinished.isFinished (unfinished : t.IsUnfinished) :
    t.status.isFinished = false := by
  obtain ⟨done, failed, _⟩ := unfinished
  cases status : t.status with
  | done => exact absurd status done
  | failure => exact absurd status failed
  | _ => rfl

/-- The second thread is what the first one is after starting over: it runs, is ready to, or could
not move from its entry. -/
structure Thread.StartsOver (t u : Thread) : Prop where
  location : u.location = t.entry
  calls : u.calls = []
  waitingFor : u.waitingFor = ∅
  scopes : u.scopes = [t.actor]
  status : u.status.isActive = true ∨ u.status = .done

/-- What the statement of a step does to the threads. It starts over just those that are eligible;
whoever is not, and does not wait for statements either, stays where it is; and a sender that waits
does so for those that it has started over and that are not finished. -/
structure Task.Restarts (task : Task) (threads next : List Thread) (index : Nat)
    (effect : Statement) : Prop where
  eligible : ∀ place t, threads[place]? = some t → task.Eligible index effect place t →
    ∃ u, next[place]? = some u ∧ t.StartsOver u
  others : ∀ place t, threads[place]? = some t → place ≠ index →
    ¬task.Eligible index effect place t → ¬task.AwaitsStatement t →
    ∃ u, next[place]? = some u ∧ u.location = t.location ∧ u.calls = t.calls ∧
      u.scopes = t.scopes ∧ u.failedFor = t.failedFor
  sender : ∀ message, effect = .broadcastAndWait message → ∃ u, next[index]? = some u ∧
    (∀ id, id ∈ u.waitingFor ↔ ∃ place t w, threads[place]? = some t ∧
      task.Eligible index effect place t ∧ t.id = id ∧ next[place]? = some w ∧
      w.status.isFinished = false) ∧
    (u.status = .wait ↔ u.waitingFor ≠ ∅)

namespace Task

theorem Proceeds.startsOver (proceeds : task.Proceeds t.restart u) : t.StartsOver u := by
  obtain ⟨v, settles, picked⟩ := proceeds
  rcases settles.of_ready rfl with rfl | ⟨_, rfl⟩
  · rcases picked with rfl | ⟨_, rfl⟩
    · exact ⟨rfl, rfl, rfl, rfl, Or.inl rfl⟩
    · exact ⟨rfl, rfl, rfl, rfl, Or.inl (isActive_of_isRunning isRunning_startThread)⟩
  · rcases picked with rfl | ⟨ready, _⟩
    · exact ⟨rfl, rfl, rfl, rfl, Or.inr rfl⟩
    · simp [Thread.isReady] at ready

/-- A step restarts whom it should, given that threads wait as they should before and after it. -/
theorem restarts_of_applyStep (turn : task.HasTurn threads index t)
    (given : task.applyStep policy threads index step = .ok next)
    (before : Waiting Thread.IsUnfinished threads) (after : Waiting Thread.IsUnfinished next) :
    task.Restarts threads next index step.effect := by
  obtain ⟨prepared, first, second⟩ := applyStep_eq_ok given turn.found
  have inside := (List.getElem?_eq_some_iff.1 turn.found).1
  have last : ∀ {place v}, prepared[place]? = some v →
      ∃ u, next[place]? = some u ∧ task.Proceeds v u :=
    fun found => exists_right_of_getElem? (proceeds_of_proceed second) found
  constructor
  · intro place r found eligible
    have restarted := (prepare_place first inside eligible.away found).1 eligible
    obtain ⟨u, there, proceeds⟩ := last restarted
    exact ⟨u, there, proceeds.startsOver⟩
  · intro place r found away misses idle
    obtain ⟨u, there, proceeds⟩ := last ((prepare_place first inside away found).2 misses idle)
    obtain ⟨_, _, rfl⟩ := proceeds.alike
    exact ⟨_, there, rfl, rfl, rfl, rfl⟩
  · intro message sends
    have nobody : t.waitingFor = ∅ :=
      Thread.eq_empty_of_isActive (before.status t (List.mem_of_getElem? turn.found)) turn.cases.1
    obtain ⟨v, there, listed⟩ := prepare_sender first turn.found sends nobody
    obtain ⟨u, here, keeps⟩ := exists_right_of_getElem? (keepsWaiting_proceed second) there
    refine ⟨u, here, fun id => ?_, ?_⟩
    · -- numbers are those of one thread each
      have own : ∀ {place r}, threads[place]? = some r →
          task.Eligible index step.effect place r → r.id = id →
          ∃ w, next[place]? = some w ∧ ∀ x ∈ next, x.id = id → x = w := by
        intro place r found eligible number
        obtain ⟨w, place', proceeds⟩ := last
          ((prepare_place first inside eligible.away found).1 eligible)
        obtain ⟨_, _, rfl⟩ := proceeds.alike
        exact ⟨_, place', fun x member same => List.inj_on_of_nodup_map after.distinct member
          (List.mem_of_getElem? place') (same.trans number.symm)⟩
      constructor
      · intro waits
        obtain ⟨place, r, found, eligible, number⟩ := (listed id).1 (keeps.fewer id waits)
        obtain ⟨w, found', only⟩ := own found eligible number
        obtain ⟨_, x, member, same, unfinished⟩ :=
          after.others u (List.mem_of_getElem? here) id waits
        obtain rfl := only x member same
        exact ⟨place, r, x, found, eligible, number, found', unfinished.isFinished⟩
      · rintro ⟨place, r, w, found, eligible, number, found', unfinished⟩
        rcases keeps.others id ((listed id).2 ⟨place, r, found, eligible, number⟩) with
          waits | finished
        · exact waits
        · obtain ⟨x, member, finished, same⟩ := mem_finishedIds.1 finished
          obtain ⟨y, found'', only⟩ := own found eligible number
          obtain rfl := only x member same
          obtain rfl := Option.some.inj (found'.symm.trans found'')
          cases finished.symm.trans unfinished
    · have alert : u.Alert := by
        obtain ⟨w, status, v, suffers, afterwards, proceeds, found⟩ :=
          applyStep_own given turn.found
        obtain rfl := Option.some.inj (here.symm.trans found)
        exact stable_alert.proceeds proceeds (alert_own turn.cases.1 suffers afterwards)
      exact ⟨alert.waits, after.status u (List.mem_of_getElem? here)⟩

end Task

/-! ### Reachable states -/

/-- A message starts over exactly the eligible threads: each successor comes about by a step, and
each step by which it does restarts whom it should. -/
theorem restarts_of_reachable {σ : Type} {a : LabeledAnalysis σ} {options : ControlOptions}
    {analysis : Analysis (ControlState σ)} {s : ControlState σ}
    (wrapped : a.withControl task options = .ok analysis) (reachable : analysis.Reachable s) :
    ∀ next, analysis.Successor s next →
      (∃ index t step, Control.Succeeds task options.waitPolicy a s next index t step) ∧
      ∀ index t step, Control.Succeeds task options.waitPolicy a s next index t step →
        task.Restarts s.threads next.threads index step.effect := by
  obtain rfl := LabeledAnalysis.withControl_eq_ok wrapped
  intro next successor
  refine ⟨Control.exists_succeeds_of_successor successor, fun index t step succeeds => ?_⟩
  exact Task.restarts_of_applyStep succeeds.hasTurn succeeds.applied
    (Control.waiting_reachable reachable)
    (Control.waiting_reachable (reachable.later (.single successor)))

/-! ### A sender with two receivers -/

/-- A script sends a message and waits for two others, one of which cannot move from its entry. -/
def sendsToTwo : Except Error Task := do
  let sends ← ControlFlow.ofTransitions [0] [(0, 1, 1), (1, 2, 2)]
  let goes ← ControlFlow.ofTransitions [3] [(3, 2, 4)]
  let stays ← ControlFlow.ofTransitions [5] []
  let actor ← Actor.addScript { name := "A" } { id := 0, event := .bootstrap, flow := sends }
  let actor ← actor.addScript { id := 1, event := .message "m", flow := goes }
  let actor ← actor.addScript { id := 2, event := .message "m", flow := stays }
  Task.create "t" [actor] [⟨1, .broadcastAndWait (.const (.str "m"))⟩, ⟨2, .nop⟩]

theorem accepted_sendsToTwo (created : sendsToTwo = .ok task) : task.Accepted := by
  obtain ⟨sends, first, created⟩ := bind_eq_ok_iff.1 created
  obtain ⟨goes, second, created⟩ := bind_eq_ok_iff.1 created
  obtain ⟨stays, third, created⟩ := bind_eq_ok_iff.1 created
  obtain ⟨one, fourth, created⟩ := bind_eq_ok_iff.1 created
  obtain ⟨two, fifth, created⟩ := bind_eq_ok_iff.1 created
  obtain ⟨three, sixth, created⟩ := bind_eq_ok_iff.1 created
  refine ⟨_, _, _, ?_, created⟩
  intro actor member
  obtain rfl := List.mem_singleton.1 member
  exact .script (.script (.script .empty (ControlFlow.built_ofTransitions first) fourth)
    (ControlFlow.built_ofTransitions second) fifth) (ControlFlow.built_ofTransitions third) sixth

/-- Whether the thread sends the message with each step that it can take. -/
def onlySends (task : Task) (t : Thread) : Bool :=
  match task.leavingSteps t with
  | .ok steps => steps.all fun step => step.effect == .broadcastAndWait (.const (.str "m"))
  | .error _ => false

/-- Whether the thread waits for the message. -/
def awaitsMessage (task : Task) (t : Thread) : Bool :=
  match task.scriptOf t with
  | .ok script => script.event == .message "m" && t.status == .wait && t.waitingFor.isEmpty
  | .error _ => false

/-- Whether the first thread is about to send the message that the others wait for. -/
def sendsNext (task : Task) (s : ControlState Formula) : Bool :=
  match task.chooseStepping s.threads with
  | .ok (some 0) => ((symbolicMemory .sep).scheduled task .approximate).goesOn s &&
      s.threads[0]?.any (onlySends task) && s.threads[1]?.any (awaitsMessage task) &&
      s.threads[2]?.any (awaitsMessage task)
  | _ => false

theorem comesTo_sendsToTwo : Control.comesTo sendsToTwo 0 sendsNext = true := by decide +kernel

theorem eligible_of_awaitsMessage (awaits : awaitsMessage task t = true) (away : place ≠ index) :
    task.Eligible index (.broadcastAndWait (.const (.str "m"))) place t := by
  unfold awaitsMessage at awaits
  split at awaits
  · rename_i script found
    simp only [Bool.and_eq_true, beq_iff_eq, SortedSet.isEmpty_iff] at awaits
    obtain ⟨⟨event, waits⟩, nobody⟩ := awaits
    refine ⟨away, by rw [waits]; nofun, "m", script, Or.inr rfl, found, event, fun progress => ?_⟩
    simp [Thread.isInProgress, waits, nobody, Status.isActive, Status.isRunning,
      SortedSet.isEmpty_iff.2] at progress
  · cases awaits

/-- The message starts both receivers over. -/
theorem exists_restarts : ∃ (task : Task) (analysis : Analysis (ControlState Formula))
    (s next : ControlState Formula), task.Accepted ∧
      (symbolicMemory .sep).withControl task {} = .ok analysis ∧ analysis.Reachable s ∧
      analysis.Successor s next ∧ ∃ t step,
        Control.Succeeds task .approximate (symbolicMemory .sep) s next 0 t step ∧
        step.effect = .broadcastAndWait (.const (.str "m")) ∧
        (∃ r, s.threads[1]? = some r ∧ task.Eligible 0 step.effect 1 r) ∧
        (∃ r, s.threads[2]? = some r ∧ task.Eligible 0 step.effect 2 r) ∧
        task.Restarts s.threads next.threads 0 step.effect := by
  obtain ⟨task, s, created, reachable, sends⟩ := Control.exists_of_comesTo comesTo_sendsToTwo
  unfold sendsNext at sends
  split at sends
  · rename_i chosen
    simp only [Bool.and_eq_true, Option.any_eq_true] at sends
    obtain ⟨⟨⟨goes, t, here, only⟩, first, listed, awaits⟩, second, listed', awaits'⟩ := sends
    obtain ⟨next, successor⟩ := Analysis.exists_successor goes
    obtain ⟨⟨index, thread, step, succeeds⟩, restarts⟩ := restarts_of_reachable
      (show (symbolicMemory .sep).withControl task {} = .ok _ from rfl) reachable next successor
    obtain rfl := Option.some.inj (Except.ok.inj (chosen.symm.trans succeeds.chosen))
    obtain rfl := Option.some.inj (here.symm.trans succeeds.found)
    have effect : step.effect = .broadcastAndWait (.const (.str "m")) := by
      obtain ⟨steps, leaving, offered⟩ := succeeds.offered
      unfold onlySends at only
      rw [leaving] at only
      exact eq_of_beq (List.all_eq_true.1 only step offered)
    refine ⟨task, _, s, next, accepted_sendsToTwo created, rfl, reachable, successor, t, step,
      succeeds, effect, ⟨first, listed, ?_⟩, ⟨second, listed', ?_⟩, restarts 0 t step succeeds⟩
    · rw [effect]
      exact eligible_of_awaitsMessage awaits (by decide)
    · rw [effect]
      exact eligible_of_awaitsMessage awaits' (by decide)
  · cases sends

end EventCheck
