import EventCheck.Proofs.Scheduling
import Mathlib.Data.Set.Finite.Basic
import Mathlib.Logic.Relation
import Mathlib.Order.WellFounded

/-!
Threads that wait for other threads. A sender that waits does so for threads that its message has
just started over and that wait for nobody, so that nobody ever waits in a circle. Settling
releases it from those that are finished, hence it waits only for threads that are still under
way; and as long as somebody waits, somebody else can step.
-/

namespace EventCheck

/-- The thread with the first number waits for the one with the second number. -/
def WaitsFor (threads : List Thread) (id other : Nat) : Prop :=
  ∃ t ∈ threads, t.id = id ∧ other ∈ t.waitingFor

/-- Threads that wait for others are in the waiting status, those they wait for are other threads
for which the condition holds, and nobody waits in a circle. -/
structure Waiting (fine : Thread → Prop) (threads : List Thread) : Prop where
  distinct : (threads.map (·.id)).Nodup
  status : ∀ t ∈ threads, t.waitingFor ≠ ∅ → t.status = .wait
  others : ∀ t ∈ threads, ∀ id ∈ t.waitingFor, id ≠ t.id ∧ ∃ u ∈ threads, u.id = id ∧ fine u
  acyclic : ∀ id, ¬Relation.TransGen (WaitsFor threads) id id

/-- The thread is neither done nor failed, and it is under way. -/
def Thread.IsUnfinished (t : Thread) : Prop :=
  t.status ≠ .done ∧ t.status ≠ .failure ∧ t.isInProgress = true

/-- The thread is under way or finished. -/
def Thread.IsStarted (t : Thread) : Prop := t.isInProgress = true ∨ t.status.isFinished = true

variable {task : Task} {policy : WaitPolicy} {threads next : List Thread} {t u : Thread}
variable {index : Nat} {step : Step} {fine fine' : Thread → Prop}

namespace Thread

theorem isInProgress_of_isActive (active : t.status.isActive = true) : t.isInProgress = true := by
  rw [isInProgress, active, Bool.true_or]

theorem isInProgress_of_waits (status : t.status = .wait) (waits : t.waitingFor ≠ ∅) :
    t.isInProgress = true := by
  have nonempty : t.waitingFor.isEmpty = false := by
    rw [Bool.eq_false_iff, ne_eq, SortedSet.isEmpty_iff]
    exact waits
  rw [isInProgress, status, nonempty]
  rfl

theorem isStarted_restart : t.restart.IsStarted := Or.inl rfl

theorem IsUnfinished.isStarted (unfinished : t.IsUnfinished) : t.IsStarted :=
  Or.inl unfinished.2.2

theorem eq_empty_of_isActive (status : t.waitingFor ≠ ∅ → t.status = .wait)
    (active : t.status.isActive = true) : t.waitingFor = ∅ := by
  by_contra waits
  rw [status waits] at active
  cases active

end Thread

theorem SortedSet.ne_empty_of_mem {α : Type} [Ord α] {s : SortedSet α} {a : α} (member : a ∈ s) :
    s ≠ ∅ := by
  rintro rfl
  exact not_mem_empty a member

/-- Where each thread keeps its number, the numbers stay distinct. -/
theorem nodup_ids {r : Thread → Thread → Prop} (distinct : (threads.map (·.id)).Nodup)
    (each : List.Forall₂ r threads next) (ids : ∀ t u, r t u → u.id = t.id) :
    (next.map (·.id)).Nodup := by
  have same : next.map (·.id) = threads.map (·.id) := by
    have swapped := List.Forall₂.flip (each.imp ids)
    rw [← List.forall₂_eq_eq_eq, List.forall₂_map_left_iff, List.forall₂_map_right_iff]
    exact swapped
  exact same ▸ distinct

/-- Edges to what has no edges of its own close no circle. -/
theorem acyclic_of_edges {before after : Nat → Nat → Prop} {final : Nat → Prop}
    (acyclic : ∀ id, ¬Relation.TransGen before id id)
    (edge : ∀ {id other}, after id other → before id other ∨ final other)
    (ends : ∀ id other, final id → ¬after id other) (id : Nat) :
    ¬Relation.TransGen after id id := by
  have paths : ∀ {id other}, Relation.TransGen after id other →
      Relation.TransGen before id other ∨ final other := by
    intro id other path
    induction path with
    | single last => exact (edge last).imp_left .single
    | tail _ last ih =>
      rcases ih with path | stops
      · exact (edge last).imp_left path.tail
      · exact absurd last (ends _ _ stops)
  intro circle
  rcases paths circle with old | stops
  · exact acyclic id old
  · obtain ⟨other, first, _⟩ := Relation.TransGen.head'_iff.1 circle
    exact ends id other stops first

namespace Waiting

/-- The condition on those who are waited for may be weakened. -/
theorem imp (waiting : Waiting fine threads) (weaker : ∀ t ∈ threads, fine t → fine' t) :
    Waiting fine' threads where
  distinct := waiting.distinct
  status := waiting.status
  others t member id waits := by
    obtain ⟨away, u, inside, same, holds⟩ := waiting.others t member id waits
    exact ⟨away, u, inside, same, weaker u inside holds⟩
  acyclic := waiting.acyclic

/-- Where threads only stop waiting for others, the rest keep waiting as they should. -/
theorem forall₂ (waiting : Waiting fine threads)
    (each : List.Forall₂ (fun t u => u.id = t.id ∧ u.waitingFor ⊆ t.waitingFor ∧
      ((t.waitingFor ≠ ∅ → t.status = .wait) → (u.waitingFor ≠ ∅ → u.status = .wait) ∧
        (fine t → fine' u))) threads next) : Waiting fine' next := by
  have fewer : ∀ id other, WaitsFor next id other → WaitsFor threads id other := by
    rintro id other ⟨u, member, same, waits⟩
    obtain ⟨t, inside, number, subset, _⟩ := exists_left_of_mem each member
    exact ⟨t, inside, number ▸ same, subset other waits⟩
  constructor
  · exact nodup_ids waiting.distinct each fun t u change => change.1
  · intro u member
    obtain ⟨t, inside, _, _, kept⟩ := exists_left_of_mem each member
    exact (kept (waiting.status t inside)).1
  · intro u member id waits
    obtain ⟨t, inside, number, subset, _⟩ := exists_left_of_mem each member
    obtain ⟨away, w, started, same, holds⟩ := waiting.others t inside id (subset id waits)
    obtain ⟨v, after, other, _, kept⟩ := exists_right_of_mem each started
    exact ⟨number ▸ away, v, after, other.trans same, (kept (waiting.status w started)).2 holds⟩
  · intro id circle
    exact waiting.acyclic id (Relation.TransGen.mono fewer _ _ circle)

/-! ### Settling and picking the next thread -/

theorem finishStuck (waiting : Waiting Thread.IsStarted threads)
    (finished : Task.mapThreads task.finishStuck threads = .ok next) :
    Waiting Thread.IsStarted next := by
  refine waiting.forall₂ ((Task.mapThreads_eq_ok_iff.1 finished).imp fun t u changed => ?_)
  rcases Task.finishStuck_cases changed with ⟨rfl, _⟩ | ⟨ready, rfl⟩
  · exact ⟨rfl, fun _ => id, fun status => ⟨status, id⟩⟩
  · refine ⟨rfl, fun _ => id, fun status => ⟨fun waits => ?_, fun _ => Or.inr rfl⟩⟩
    cases ready.symm.trans (status waits)

theorem release (waiting : Waiting Thread.IsStarted threads) (finished : SortedSet Nat) :
    Waiting Thread.IsStarted (threads.map (Thread.release finished)) := by
  refine waiting.forall₂ ?_
  rw [List.forall₂_map_right_iff]
  refine List.forall₂_same.2 fun t _ => ?_
  rcases Task.release_cases finished t with ⟨same, _⟩ | ⟨waits, _, ⟨_, same⟩ | ⟨some, same⟩⟩
  · rw [same]
    exact ⟨rfl, fun _ => id, fun status => ⟨status, id⟩⟩
  · rw [same]
    exact ⟨rfl, fun id none => absurd none (SortedSet.not_mem_empty id),
      fun _ => ⟨fun waits => absurd rfl waits, fun _ => Or.inl rfl⟩⟩
  · rw [same]
    refine ⟨rfl, fun id left => (SortedSet.mem_filter.1 left).1, fun _ => ⟨fun _ => waits, ?_⟩⟩
    exact fun _ => Or.inl (Thread.isInProgress_of_waits waits some)

/-- After settling, whoever is waited for is under way. -/
theorem settle (waiting : Waiting Thread.IsStarted threads)
    (settled : task.settle threads = .ok next) : Waiting Thread.IsUnfinished next := by
  obtain ⟨still, last⟩ := Task.settle_induction settled waiting fun before after round waiting => by
    obtain ⟨middle, finished, built⟩ := bind_eq_ok_iff.1 round
    obtain rfl := pure_eq_ok_iff.1 built
    exact (waiting.finishStuck finished).release _
  refine ⟨still.distinct, still.status, fun t member id waits => ?_, still.acyclic⟩
  obtain ⟨away, u, inside, same, started⟩ := still.others t member id waits
  have some := SortedSet.ne_empty_of_mem waits
  have unfinished : u.status.isFinished = false := by
    by_contra finished
    rw [Bool.not_eq_false] at finished
    have listed : id ∈ Task.finishedIds next := SortedSet.mem_ofList.2
      (List.mem_map.2 ⟨u, List.mem_filter.2 ⟨inside, finished⟩, same⟩)
    have kept := (Task.settled_cases last member).2
    rcases Task.release_cases (Task.finishedIds next) t with
      ⟨_, idle⟩ | ⟨_, _, ⟨_, released⟩ | ⟨_, released⟩⟩
    · rcases idle with idle | idle
      · exact idle (still.status t member some)
      · exact some idle
    · have nobody : t.waitingFor = ∅ := congrArg Thread.waitingFor (kept.symm.trans released)
      exact some nobody
    · have left : t.waitingFor = Task.remaining (Task.finishedIds next) t :=
        congrArg Thread.waitingFor (kept.symm.trans released)
      have remains : id ∈ Task.remaining (Task.finishedIds next) t := left ▸ waits
      have missing := (SortedSet.mem_filter.1 remains).2
      rw [SortedSet.contains_iff.2 listed] at missing
      cases missing
  refine ⟨away, u, inside, same, fun done => ?_, fun failed => ?_, ?_⟩
  · rw [done] at unfinished
    cases unfinished
  · rw [failed] at unfinished
    cases unfinished
  · exact started.resolve_right fun finished => by
      rw [unfinished] at finished
      cases finished

theorem schedule (waiting : Waiting Thread.IsUnfinished threads) :
    Waiting Thread.IsUnfinished (Task.schedule threads index) := by
  rcases Task.schedule_cases threads index with ⟨same, _⟩ | ⟨_, place, t, found, ready, same, _⟩
  · rw [same]
    exact waiting
  · rw [same]
    have yields : t.status = .yield := by
      simpa using (Bool.and_eq_true_iff.1 ready).2
    have runs := Task.isActive_of_isRunning (Task.isRunning_startThread (t := t))
    refine waiting.forall₂ (forall₂_modify (fun t => ⟨rfl, fun _ => id, fun status =>
      ⟨status, id⟩⟩) fun other before => ?_)
    obtain rfl := Option.some.inj (before.symm.trans found)
    refine ⟨rfl, fun _ => id, fun status => ⟨fun waits => ?_, fun _ => ⟨fun done => ?_,
      fun failed => ?_, Thread.isInProgress_of_isActive runs⟩⟩⟩
    · cases yields.symm.trans (status waits)
    · rw [done] at runs
      cases runs
    · rw [failed] at runs
      cases runs

theorem proceed (waiting : Waiting Thread.IsStarted threads)
    (given : task.proceed threads index = .ok next) : Waiting Thread.IsUnfinished next := by
  obtain ⟨settled, settles, given⟩ := bind_eq_ok_iff.1 given
  obtain ⟨_, _, built⟩ := bind_eq_ok_iff.1 given
  obtain rfl := pure_eq_ok_iff.1 built
  exact (waiting.settle settles).schedule

/-! ### Steps -/

theorem newThreads (task : Task) (first : Nat) :
    Waiting Thread.IsStarted (task.newThreads first) := by
  have idle : ∀ t ∈ task.newThreads first, t.waitingFor = ∅ := by
    intro t member
    obtain ⟨entry, _, rfl⟩ := List.mem_map.1 member
    rfl
  refine ⟨?_, fun t member waits => absurd (idle t member) waits, ?_, ?_⟩
  · have numbers : (task.newThreads first).map (·.id) =
        ((task.actors.flatMap fun actor => actor.scripts.flatMap fun script =>
          script.flow.entries.toList.map fun entry => (actor, script, entry)).zipIdx.map
            Prod.snd).map (first + ·) := by
      rw [Task.newThreads, List.map_map, List.map_map]
      rfl
    rw [numbers, List.zipIdx_map_snd]
    exact List.Nodup.map (fun _ _ => Nat.add_left_cancel) List.nodup_range'
  · intro t member id waits
    rw [idle t member] at waits
    exact absurd waits (SortedSet.not_mem_empty id)
  · intro id circle
    obtain ⟨_, ⟨t, member, _, waits⟩, _⟩ := Relation.TransGen.head'_iff.1 circle
    rw [idle t member] at waits
    exact SortedSet.not_mem_empty _ waits

/-- The number is that of a thread that has just started over. -/
def StartsOver (threads : List Thread) (id : Nat) : Prop :=
  ∃ t : Thread, t.restart ∈ threads ∧ t.id = id

/-- What the first stage of a step makes of an active thread that steps. -/
theorem of_stepped (stepped : task.Stepped step index next t u)
    (active : t.status.isActive = true) (nobody : t.waitingFor = ∅) :
    u.id = t.id ∧ u.IsStarted ∧ (u.waitingFor ≠ ∅ → u.status = .wait) ∧
      ∀ id ∈ u.waitingFor, StartsOver next id := by
  obtain ⟨w, status, affects, after, rfl⟩ := stepped
  obtain ⟨location, moving, calls, scopes, kept, moved⟩ := Task.move_cases step t
  rw [moved] at affects
  have running : moving.isActive = true := by
    rcases kept with rfl | runs
    · exact active
    · exact Task.isActive_of_isRunning runs
  have started : status = .done ∨ status.isActive = true → Thread.IsStarted { w with status } := by
    rintro (rfl | goes)
    · exact Or.inr rfl
    · exact Or.inl (Thread.isInProgress_of_isActive goes)
  cases affects with
  | nothing =>
    refine ⟨rfl, ?_, fun waits => absurd nobody waits, fun id waits => ?_⟩
    · rcases Task.statusAfter_cases after with ⟨failed, _⟩ | ⟨waits, _⟩ | ⟨_, _, rest⟩
      · rw [show moving = .failure from failed] at running
        cases running
      · rw [show moving = .wait from waits] at running
        cases running
      · exact started (rest.imp_right And.left)
    · rw [nobody] at waits
      exact absurd waits (SortedSet.not_mem_empty id)
  | fails =>
    refine ⟨rfl, ?_, fun waits => absurd nobody waits, fun id waits => ?_⟩
    · rcases Task.statusAfter_cases after with ⟨_, rfl⟩ | ⟨waits, _⟩ | ⟨away, _⟩
      · exact Or.inr rfl
      · cases waits
      · exact absurd rfl away
    · rw [show Thread.waitingFor _ = ∅ from nobody] at waits
      exact absurd waits (SortedSet.not_mem_empty id)
  | waits anyone others =>
    rcases Task.statusAfter_cases after with ⟨failed, _⟩ | ⟨_, rfl⟩ | ⟨_, away, _⟩
    · cases failed
    · refine ⟨rfl, Or.inl (Thread.isInProgress_of_waits rfl anyone), fun _ => rfl, ?_⟩
      intro id member
      obtain ⟨place, v, _, restarted, same⟩ := others id member
      exact ⟨v, List.mem_of_getElem? restarted, same⟩
    · exact absurd rfl away

/-- The first stage of a step adds waits of one thread at most, for threads that wait for nobody. -/
theorem prepare (waiting : Waiting Thread.IsUnfinished threads) (found : threads[index]? = some t)
    (active : t.status.isActive = true)
    (given : task.prepare policy threads index step = .ok next) :
    Waiting Thread.IsStarted next := by
  have changes := Task.changes_prepare given (List.getElem?_eq_some_iff.1 found).1
  have nobody : t.waitingFor = ∅ :=
    Thread.eq_empty_of_isActive (waiting.status t (List.mem_of_getElem? found)) active
  have own : ∀ {other u}, threads[index]? = some other → task.Stepped step index next other u →
      u.id = other.id ∧ u.IsStarted ∧ (u.waitingFor ≠ ∅ → u.status = .wait) ∧
        ∀ id ∈ u.waitingFor, StartsOver next id := by
    intro other u before stepped
    obtain rfl := Option.some.inj (before.symm.trans found)
    exact of_stepped stepped active nobody
  have each : List.Forall₂ (fun t u => u.id = t.id ∧ (t.IsUnfinished → u.IsStarted))
      threads next := by
    refine changes.forall₂ (fun t => ⟨rfl, Thread.IsUnfinished.isStarted⟩)
      (fun t => ⟨rfl, fun _ => Thread.isStarted_restart⟩) fun other u before stepped => ?_
    exact ⟨(own before stepped).1, fun _ => (own before stepped).2.1⟩
  have distinct := nodup_ids waiting.distinct each fun t u change => change.1
  have waits : ∀ u ∈ next, ∀ id ∈ u.waitingFor,
      u ∈ threads ∨ StartsOver next id := by
    refine changes.all (motive := fun u => ∀ id ∈ u.waitingFor,
      u ∈ threads ∨ StartsOver next id) (fun t _ id waits => ?_)
      (fun other u before stepped id waits => ?_) fun t member id waits => Or.inl member
    · exact absurd waits (SortedSet.not_mem_empty id)
    · exact Or.inr ((own before stepped).2.2.2 id waits)
  -- nobody who has been started over waits
  have ends : ∀ id other, StartsOver next id → ¬WaitsFor next id other := by
    rintro id other ⟨v, restarted, rfl⟩ ⟨u, member, same, more⟩
    obtain rfl := List.inj_on_of_nodup_map distinct member restarted same
    exact SortedSet.not_mem_empty other more
  constructor
  · exact distinct
  · refine changes.all (motive := fun u => u.waitingFor ≠ ∅ → u.status = .wait)
      (fun t _ waits => absurd rfl waits)
      (fun other u before stepped => (own before stepped).2.2.1) waiting.status
  · intro u member id more
    rcases waits u member id more with before | ⟨v, restarted, same⟩
    · obtain ⟨away, w, inside, same, unfinished⟩ := waiting.others u before id more
      obtain ⟨x, after, number, started⟩ := exists_right_of_mem each inside
      exact ⟨away, x, after, number.trans same, started unfinished⟩
    · refine ⟨?_, v.restart, restarted, same, Thread.isStarted_restart⟩
      rintro rfl
      exact ends _ _ ⟨v, restarted, same⟩ ⟨u, member, rfl, more⟩
  · refine acyclic_of_edges waiting.acyclic ?_ ends
    rintro id other ⟨u, member, same, more⟩
    exact (waits u member other more).imp_left fun before => ⟨u, before, same, more⟩

/-- A state in which somebody waits has somebody who is waited for and does not wait. -/
theorem exists_active (waiting : Waiting Thread.IsUnfinished threads) (member : t ∈ threads)
    (waits : t.waitingFor ≠ ∅) : ∃ u ∈ threads, u.status.isActive = true := by
  by_contra idle
  push Not at idle
  -- all that is waited for waits in turn, which cannot go on among finitely many numbers
  let number : Type := { id // ∃ t ∈ threads, t.id = id ∧ t.waitingFor ≠ ∅ }
  have finite : Finite number := by
    refine Set.Finite.subset (List.finite_toSet (threads.map (·.id))) ?_
    rintro id ⟨t, inside, same, _⟩
    exact List.mem_map.2 ⟨t, inside, same⟩
  let follows : number → number → Prop :=
    fun later earlier => Relation.TransGen (WaitsFor threads) earlier.1 later.1
  have transitive : IsTrans number follows := ⟨fun _ _ _ second first => first.trans second⟩
  have irreflexive : Std.Irrefl follows := ⟨fun id circle => waiting.acyclic id.1 circle⟩
  obtain ⟨⟨id, last, inside, same, more⟩, _, final⟩ :=
    (Finite.wellFounded_of_trans_of_irrefl follows).has_min Set.univ
      ⟨⟨t.id, t, member, rfl, waits⟩, trivial⟩
  obtain ⟨other, target⟩ : ∃ other, other ∈ last.waitingFor := by
    by_contra none
    push Not at none
    exact more (SortedSet.ext_mem fun id => iff_of_false (none id) (SortedSet.not_mem_empty id))
  obtain ⟨_, u, found, number, _, _, progress⟩ := waiting.others last inside other target
  have still : u.waitingFor ≠ ∅ := by
    rintro nobody
    rcases Bool.or_eq_true_iff.1 progress with active | both
    · exact idle u found active
    · have some := (Bool.and_eq_true_iff.1 both).2
      rw [nobody] at some
      cases some
  exact final ⟨other, u, found, number, still⟩ trivial
    (.single ⟨last, inside, same, target⟩)

end Waiting

/-! ### Reachable states -/

theorem Control.waiting_reachable {σ : Type} {a : LabeledAnalysis σ} {s : ControlState σ}
    (reachable : (a.scheduled task policy).Reachable s) :
    Waiting Thread.IsUnfinished s.threads := by
  induction reachable with
  | initial given member =>
    obtain ⟨threads, started, rfl⟩ := yields_initial given
    obtain ⟨inner, _, rfl⟩ := List.mem_map.1 member
    exact (Waiting.newThreads task _).proceed started
  | step _ given member waiting =>
    obtain ⟨index, thread, step, succeeds⟩ := exists_succeeds given member
    obtain ⟨other, found, active, _⟩ := Task.chooseStepping_eq_some succeeds.chosen
    obtain rfl := Option.some.inj (found.symm.trans succeeds.found)
    have applied := succeeds.applied
    rw [Task.applyStep_eq (List.getElem?_eq_some_iff.1 found).1] at applied
    obtain ⟨prepared, first, second⟩ := bind_eq_ok_iff.1 applied
    exact (waiting.prepare found active first).proceed second

/-- In all states that the scheduler comes to, threads wait only for others that are under way,
and not in a circle. Nobody steps while it waits, and if nobody is picked to step nobody waits. -/
theorem waiting_of_reachable {σ : Type} {a : LabeledAnalysis σ} {task : Task}
    {options : ControlOptions} {analysis : Analysis (ControlState σ)} {s : ControlState σ}
    (accepted : task.Accepted) (wrapped : a.withControl task options = .ok analysis)
    (reachable : analysis.Reachable s) : Waiting Thread.IsUnfinished s.threads ∧
      (∀ index t, task.chooseStepping s.threads = .ok (some index) →
        s.threads[index]? = some t → t.waitingFor = ∅) ∧
      (task.chooseObserver s.threads = .ok none → task.chooseThread s.threads = .ok none →
        ∀ t ∈ s.threads, t.waitingFor = ∅) := by
  obtain rfl := LabeledAnalysis.withControl_eq_ok wrapped
  have waiting := Control.waiting_reachable reachable
  refine ⟨waiting, fun index t chosen found => ?_, fun observer thread t member => ?_⟩
  · obtain ⟨other, same, active, _⟩ := Task.chooseStepping_eq_some chosen
    obtain rfl := Option.some.inj (same.symm.trans found)
    exact Thread.eq_empty_of_isActive (waiting.status other (List.mem_of_getElem? same)) active
  · by_contra waits
    have none : task.chooseStepping s.threads = .ok none := by
      rw [Task.chooseStepping, observer]
      exact thread
    obtain ⟨u, inside, active⟩ := waiting.exists_active member waits
    have idle := (Control.orderly_reachable accepted reachable).idle none inside
    cases idle.symm.trans active

/-- While the sender of a message waits for its receiver, another thread is picked to step. -/
theorem exists_waiting : ∃ (task : Task) (analysis : Analysis (ControlState Formula))
    (s : ControlState Formula), task.Accepted ∧
      (symbolicMemory .sep).withControl task {} = .ok analysis ∧ analysis.Reachable s ∧
      (∃ t ∈ s.threads, t.waitingFor ≠ ∅) ∧ Waiting Thread.IsUnfinished s.threads ∧
      (∀ index t, task.chooseStepping s.threads = .ok (some index) →
        s.threads[index]? = some t → t.waitingFor = ∅) ∧
      (task.chooseObserver s.threads = .ok none → task.chooseThread s.threads = .ok none →
        ∀ t ∈ s.threads, t.waitingFor = ∅) := by
  obtain ⟨task, s, accepted, reachable, waits⟩ := exists_reachable_waiting
  exact ⟨task, _, s, accepted, rfl, reachable, waits, waiting_of_reachable accepted
    (show (symbolicMemory .sep).withControl task {} = .ok _ from rfl) reachable⟩

end EventCheck
