import EventCheck.Proofs.Following
import EventCheck.Proofs.Placement

/-!
The order that the scheduler keeps in every state it comes to: one thread of the program runs if
any can, whoever runs or is ready to can move, and every thread is where its task has locations.
Each step breaks it for a moment; settling and picking the next thread restore it, so that the
scheduler's own checks never fail.
-/

namespace EventCheck

theorem countP_le_of_forall₂ {p : Thread → Bool} {threads next : List Thread}
    (each : List.Forall₂ (fun t u => p u = true → p t = true) threads next) :
    next.countP p ≤ threads.countP p := by
  induction each with
  | nil => exact Nat.le_refl _
  | @cons t u _ _ here _ ih =>
    rw [List.countP_cons, List.countP_cons]
    by_cases holds : p u = true
    · rw [if_pos holds, if_pos (here holds)]
      omega
    · rw [if_neg holds]
      omega

namespace Task

variable {task : Task} {policy : WaitPolicy} {threads next : List Thread} {t u : Thread}
variable {index : Nat} {step : Step}

theorem isActive_of_isRunning {status : Status} (runs : status.isRunning = true) :
    status.isActive = true := by
  rw [Status.isActive, runs, Bool.true_or]

theorem isActive_of_runsProgram (runs : t.runsProgram = true) : t.status.isActive = true :=
  isActive_of_isRunning (Bool.and_eq_true_iff.1 runs).2

theorem isActive_move (active : t.status.isActive = true) :
    (move step t).status.isActive = true := by
  obtain ⟨location, status, calls, scopes, kept, moved⟩ := move_cases step t
  rw [moved]
  rcases kept with rfl | runs
  · exact active
  · exact isActive_of_isRunning runs

/-! ### The order of threads -/

/-- What holds of the threads whenever the scheduler has picked one. -/
structure Orderly (task : Task) (threads : List Thread) : Prop where
  single : threads.countP (·.runsProgram) ≤ 1
  running : ∀ t ∈ threads, t.isReady = true → threads.countP (·.runsProgram) = 1
  leaving : ∀ t ∈ threads, t.status.isActive = true →
    t.calls ≠ [] ∨ ∃ flow, task.flowOf t = .ok flow ∧ flow.hasExits t.location = .ok true
  placed : ∀ t ∈ threads, task.Placed t

/-- What holds of the threads while the scheduler has not yet picked one. -/
structure Steady (task : Task) (threads : List Thread) : Prop where
  single : threads.countP (·.runsProgram) ≤ 1
  leaving : ∀ t ∈ threads, t.status.isRunning = true → task.hasLeaving t = .ok true
  placed : ∀ t ∈ threads, task.Placed t

theorem hasLeaving_iff : task.hasLeaving t = .ok true ↔
    t.calls ≠ [] ∨ ∃ flow, task.flowOf t = .ok flow ∧ flow.hasExits t.location = .ok true := by
  unfold hasLeaving
  by_cases none : t.calls = []
  · rw [if_pos (List.isEmpty_iff.2 none), bind_eq_ok_iff]
    simp [none]
  · rw [if_neg (mt List.isEmpty_iff.1 none)]
    simp [none]

theorem Orderly.hasLeaving (orderly : task.Orderly threads) (member : t ∈ threads)
    (active : t.status.isActive = true) : task.hasLeaving t = .ok true :=
  hasLeaving_iff.2 (orderly.leaving t member active)

/-! ### Settling -/

theorem finishStuck_cases (given : task.finishStuck t = .ok u) :
    (u = t ∧ (t.status = .yield → task.hasLeaving t = .ok true)) ∨
      t.status = .yield ∧ u = { t with status := .done } := by
  unfold finishStuck at given
  split at given
  · rename_i ready
    obtain ⟨leaving, known, built⟩ := bind_eq_ok_iff.1 given
    obtain rfl := pure_eq_ok_iff.1 built
    cases leaving with
    | true => exact Or.inl ⟨rfl, fun _ => known⟩
    | false => exact Or.inr ⟨ready, rfl⟩
  · rename_i other
    obtain rfl := Except.ok.inj given
    exact Or.inl ⟨rfl, fun ready => absurd ready other⟩

/-- The threads that the set leaves a thread to wait for. -/
abbrev remaining (finished : SortedSet Nat) (t : Thread) : SortedSet Nat :=
  t.waitingFor.filter fun id => !finished.contains id

theorem release_cases (finished : SortedSet Nat) (t : Thread) :
    (t.release finished = t ∧ (t.status ≠ .wait ∨ t.waitingFor = ∅)) ∨
      t.status = .wait ∧ t.waitingFor ≠ ∅ ∧
        (remaining finished t = ∅ ∧
            t.release finished = { t with waitingFor := ∅, status := .yield } ∨
          remaining finished t ≠ ∅ ∧
            t.release finished = { t with waitingFor := remaining finished t }) := by
  unfold Thread.release
  simp only [SortedSet.isEmpty_iff]
  by_cases idle : t.status ≠ .wait ∨ t.waitingFor = ∅
  · rw [if_pos idle]
    exact Or.inl ⟨rfl, idle⟩
  · rw [if_neg idle]
    refine Or.inr ⟨not_not.1 fun h => idle (Or.inl h), fun h => idle (Or.inr h), ?_⟩
    by_cases none : remaining finished t = ∅
    · exact Or.inl ⟨none, if_pos none⟩
    · exact Or.inr ⟨none, if_neg none⟩

theorem eq_of_settleRound (round : task.settleRound threads = .ok next) :
    List.Forall₂ (fun t u : Thread => u.status.isRunning = true → u = t) threads next := by
  obtain ⟨middle, finished, built⟩ := bind_eq_ok_iff.1 round
  obtain rfl := pure_eq_ok_iff.1 built
  rw [List.forall₂_map_right_iff]
  refine (mapThreads_eq_ok_iff.1 finished).imp fun t u changed runs => ?_
  have kept : u.release (finishedIds middle) = u := by
    rcases release_cases (finishedIds middle) u with ⟨same, _⟩ | ⟨waits, _, ⟨_, same⟩ | ⟨_, same⟩⟩
    · exact same
    · rw [same] at runs
      cases runs
    · rw [same, waits] at runs
      cases runs
  rw [kept] at runs ⊢
  rcases finishStuck_cases changed with ⟨same, _⟩ | ⟨_, rfl⟩
  · exact same
  · cases runs

/-- Settling lets no thread run. -/
theorem eq_of_settle (settled : task.settle threads = .ok next) :
    List.Forall₂ (fun t u : Thread => u.status.isRunning = true → u = t) threads next := by
  refine (settle_induction settled (List.forall₂_same.2 fun _ _ _ => rfl) ?_).1
  intro before after round all
  refine forall₂_comp ?_ all (eq_of_settleRound round)
  intro t u w first second runs
  have same := second runs
  exact same.trans (first (same ▸ runs))

/-- Where a round changes nothing, neither of its parts does. -/
theorem settled_cases (settled : task.settleRound threads = .ok threads) (member : t ∈ threads) :
    task.finishStuck t = .ok t ∧ t.release (finishedIds threads) = t := by
  obtain ⟨middle, finished, built⟩ := bind_eq_ok_iff.1 settled
  have released := pure_eq_ok_iff.1 built
  have stuck := mapThreads_eq_ok_iff.1 finished
  have back : List.Forall₂ (fun t u => u.release (finishedIds middle) = t) threads middle := by
    apply List.Forall₂.flip
    conv => arg 3; rw [← released]
    rw [List.forall₂_map_right_iff]
    exact List.forall₂_same.2 fun _ _ => rfl
  have unchanged : List.Forall₂ (fun t u => t = u) threads middle := by
    refine List.Forall₂.mp (fun t u finishes releases => ?_) stuck back
    rcases finishStuck_cases finishes with ⟨same, _⟩ | ⟨ready, rfl⟩
    · exact same.symm
    · rcases release_cases (finishedIds middle) { t with status := .done } with
        ⟨idle, _⟩ | ⟨waits, _⟩
      · have done : t.status = .done := by rw [← releases, idle]
        cases ready.symm.trans done
      · cases waits
  rw [List.forall₂_eq_eq_eq] at unchanged
  subst unchanged
  exact ⟨List.forall₂_same.1 stuck t member, List.forall₂_same.1 back t member⟩

/-- Where a round changes nothing, whoever is ready can move. -/
theorem hasLeaving_of_settled (settled : task.settleRound threads = .ok threads)
    (member : t ∈ threads) (ready : t.status = .yield) : task.hasLeaving t = .ok true := by
  rcases finishStuck_cases (settled_cases settled member).1 with ⟨_, leaving⟩ | ⟨_, done⟩
  · exact leaving ready
  · have status := congrArg Thread.status done
    cases ready.symm.trans status

/-! ### Picking the next thread -/

/-- Everybody has a turn. -/
theorem mem_turns {place count : Nat} (bound : place < count) : place ∈ turns index count := by
  have quotient := Nat.div_add_mod (index + 1) count
  have small := Nat.mod_lt (index + 1) (Nat.zero_lt_of_lt bound)
  have wrapped : ∀ k, (index + k + 1) % count = ((index + 1) % count + k) % count := by
    intro k
    rw [Nat.mod_add_mod]
    congr 1
    omega
  apply List.mem_map.2
  by_cases later : (index + 1) % count ≤ place
  · refine ⟨place - (index + 1) % count, List.mem_range.2 (by omega), ?_⟩
    rw [wrapped, Nat.add_sub_of_le later, Nat.mod_eq_of_lt bound]
  · refine ⟨place + count - (index + 1) % count, List.mem_range.2 (by omega), ?_⟩
    rw [wrapped, Nat.add_sub_of_le (by omega), Nat.add_mod_right, Nat.mod_eq_of_lt bound]

theorem nextReady_eq : nextReady threads index =
    ((turns index threads.length).find? fun i =>
        threads[i]?.any fun t => t.isReady && t.inAtomicCall).or
      ((turns index threads.length).find? fun i => threads[i]?.any (·.isReady)) := by
  unfold nextReady
  exact Option.orElse_eq_or

/-- Whoever is picked is ready, and inside an atomic method if any ready thread is. -/
theorem nextReady_eq_some {place : Nat} (given : nextReady threads index = some place) :
    ∃ t, threads[place]? = some t ∧ t.isReady = true ∧
      (t.inAtomicCall = true ∨ ∀ u ∈ threads, u.isReady = true → u.inAtomicCall = false) := by
  rw [nextReady_eq] at given
  rcases Option.or_eq_some_iff.1 given with first | ⟨nobody, second⟩
  · have found := List.find?_some first
    rw [Option.any_eq_true] at found
    obtain ⟨t, here, both⟩ := found
    obtain ⟨ready, atomic⟩ := Bool.and_eq_true_iff.1 both
    exact ⟨t, here, ready, Or.inl atomic⟩
  · have found := List.find?_some second
    rw [Option.any_eq_true] at found
    obtain ⟨t, here, ready⟩ := found
    refine ⟨t, here, ready, Or.inr fun u member waits => ?_⟩
    obtain ⟨other, there⟩ := List.mem_iff_getElem?.1 member
    have missed := List.find?_eq_none.1 nobody other
      (mem_turns (List.getElem?_eq_some_iff.1 there).1)
    rw [there, Option.any_some, waits, Bool.true_and] at missed
    exact Bool.eq_false_iff.2 missed

theorem isReady_of_nextReady (given : nextReady threads index = none) (member : t ∈ threads) :
    t.isReady = false := by
  obtain ⟨place, found⟩ := List.mem_iff_getElem?.1 member
  have bound := (List.getElem?_eq_some_iff.1 found).1
  rw [nextReady_eq] at given
  have missed := List.find?_eq_none.1 (Option.or_eq_none_iff.1 given).2 place (mem_turns bound)
  rw [found] at missed
  simpa using missed

/-- Either nothing is to be picked or nobody runs and a ready thread is. -/
theorem schedule_cases (threads : List Thread) (index : Nat) :
    (schedule threads index = threads ∧
        ((∃ t ∈ threads, t.runsProgram = true) ∨ ∀ t ∈ threads, t.isReady = false)) ∨
      (∀ t ∈ threads, t.runsProgram = false) ∧ ∃ place t, threads[place]? = some t ∧
        t.isReady = true ∧ schedule threads index = threads.modify place startThread ∧
        (t.inAtomicCall = true ∨ ∀ u ∈ threads, u.isReady = true → u.inAtomicCall = false) := by
  unfold schedule
  by_cases runs : threads.any (·.runsProgram) = true
  · rw [if_pos runs]
    exact Or.inl ⟨rfl, Or.inl (List.any_eq_true.1 runs)⟩
  · rw [if_neg runs]
    have nobody : ∀ t ∈ threads, t.runsProgram = false := by simpa using runs
    split
    · rename_i place picked
      obtain ⟨t, found, ready, first⟩ := nextReady_eq_some picked
      exact Or.inr ⟨nobody, place, t, found, ready, rfl, first⟩
    · rename_i none
      exact Or.inl ⟨rfl, Or.inr fun t member => isReady_of_nextReady none member⟩

theorem isRunning_startThread : (startThread t).status.isRunning = true := by
  unfold startThread
  dsimp only
  split <;> rfl

theorem hasLeaving_startThread : task.hasLeaving (startThread t) = task.hasLeaving t := rfl

theorem countP_modify {p : Thread → Bool} {place : Nat} {f : Thread → Thread}
    (none : ∀ t ∈ threads, p t = false) (found : threads[place]? = some t)
    (holds : p (f t) = true) : (threads.modify place f).countP p = 1 := by
  induction threads generalizing place with
  | nil => simp at found
  | cons first rest ih =>
    have others := fun u member => none u (List.mem_cons_of_mem _ member)
    cases place with
    | zero =>
      obtain rfl := Option.some.inj found
      rw [List.modify_zero_cons, List.countP_cons_of_pos holds, List.countP_eq_zero.2]
      intro u member
      rw [others u member]
      exact Bool.false_ne_true
    | succ place =>
      rw [List.modify_succ_cons, List.countP_cons_of_neg (by rw [none first (by simp)]; simp)]
      exact ih others found

theorem mem_modify {place : Nat} {f : Thread → Thread} (found : threads[place]? = some t)
    (member : u ∈ threads.modify place f) : u ∈ threads ∨ u = f t := by
  obtain ⟨other, after⟩ := List.mem_iff_getElem?.1 member
  rw [List.getElem?_modify] at after
  obtain ⟨w, before, same⟩ := Option.map_eq_some_iff.1 after
  by_cases here : place = other
  · rw [if_pos here] at same
    obtain rfl := Option.some.inj (found.symm.trans (here ▸ before))
    exact Or.inr same.symm
  · rw [if_neg here] at same
    exact Or.inl (same ▸ List.mem_of_getElem? before)

/-- Once the threads are steady and ready ones can move, picking one puts them in order. -/
theorem orderly_schedule (steady : task.Steady threads)
    (ready : ∀ t ∈ threads, t.status = .yield → task.hasLeaving t = .ok true) :
    task.Orderly (schedule threads index) := by
  have placed : ∀ t ∈ schedule threads index, task.Placed t :=
    placed_alike alike_schedule steady.placed
  have active : ∀ t ∈ threads, t.status.isActive = true → task.hasLeaving t = .ok true := by
    intro t member active
    rcases Bool.or_eq_true_iff.1 active with runs | yields
    · exact steady.leaving t member runs
    · exact ready t member (by simpa using yields)
  rcases schedule_cases threads index with ⟨same, someone | nobody⟩ | ⟨none, place, t, found,
    waits, same, _⟩
  · rw [same] at placed ⊢
    have counted : 0 < threads.countP (·.runsProgram) := List.countP_pos_iff.2 someone
    have single := steady.single
    exact ⟨single, fun _ _ _ => by omega,
      fun t member runs => hasLeaving_iff.1 (active t member runs), placed⟩
  · rw [same] at placed ⊢
    refine ⟨steady.single, fun t member ready => ?_,
      fun t member runs => hasLeaving_iff.1 (active t member runs), placed⟩
    cases (nobody t member).symm.trans ready
  · rw [same] at placed ⊢
    have observes : t.isObserver = false ∧ t.status = .yield := by
      simpa [Thread.isReady] using waits
    have runs : (startThread t).runsProgram = true :=
      Bool.and_eq_true_iff.2 ⟨by simp [startThread, observes.1], isRunning_startThread⟩
    have counted : (threads.modify place startThread).countP (·.runsProgram) = 1 :=
      countP_modify none found runs
    refine ⟨by omega, fun _ _ _ => counted, fun u member runs => ?_, placed⟩
    apply hasLeaving_iff.1
    rcases mem_modify found member with member | rfl
    · exact active u member runs
    · rw [hasLeaving_startThread]
      exact ready t (List.mem_of_getElem? found) observes.2

theorem checkMoves_eq_ok (moves : ∀ t ∈ threads, t.status.isRunning = true →
    task.hasLeaving t = .ok true) : task.checkMoves threads = .ok () := by
  induction threads with
  | nil => rfl
  | cons t rest ih =>
    have later := ih fun u member => moves u (by simp [member])
    unfold checkMoves
    split
    · rename_i runs
      rw [moves t (by simp) runs]
      exact later
    · exact later

theorem Orderly.checked (orderly : task.Orderly threads) : task.checkSchedule threads = .ok () := by
  unfold checkSchedule
  rw [if_neg (Nat.not_lt.2 orderly.single)]
  apply checkMoves_eq_ok
  intro t member runs
  exact orderly.hasLeaving member (isActive_of_isRunning runs)

theorem Steady.settle (steady : task.Steady threads) (settled : task.settle threads = .ok next) :
    task.Steady next ∧ ∀ t ∈ next, t.status = .yield → task.hasLeaving t = .ok true := by
  have kept := eq_of_settle settled
  constructor
  · refine ⟨?_, ?_, placed_alike (alike_settle settled) steady.placed⟩
    · refine Nat.le_trans (countP_le_of_forall₂ (kept.imp fun t u same runs => ?_)) steady.single
      rw [← same (Bool.and_eq_true_iff.1 runs).2]
      exact runs
    · intro u member runs
      obtain ⟨t, inside, same⟩ := exists_left_of_mem kept member
      rw [same runs]
      exact steady.leaving t inside (same runs ▸ runs)
  · intro t member ready
    exact hasLeaving_of_settled (settle_induction (motive := fun _ => True) settled trivial
      fun _ _ _ _ => trivial).2 member ready

/-- Steady threads settle, and the next one is picked without complaint. -/
theorem Steady.proceed (accepted : task.Accepted) (steady : task.Steady threads) (index : Nat) :
    ∃ next, task.proceed threads index = .ok next ∧ task.Orderly next := by
  obtain ⟨settled, settles⟩ := exists_settle accepted steady.placed
  obtain ⟨still, ready⟩ := steady.settle settles
  have orderly : task.Orderly (schedule settled index) := orderly_schedule still ready
  refine ⟨schedule settled index, ?_, orderly⟩
  rw [Task.proceed, settles]
  show (do task.checkSchedule (schedule settled index); return schedule settled index) = _
  rw [orderly.checked]
  rfl

/-! ### Steps -/

theorem chooseObserver_eq_some (given : task.chooseObserver threads = .ok (some index)) :
    ∃ t, threads[index]? = some t ∧ t.isObserver = true ∧ t.status.isActive = true := by
  have found : ∀ entries : List (Thread × Nat),
      task.chooseObserverFrom entries = .ok (some index) →
      ∃ t, (t, index) ∈ entries ∧ t.isObserver = true ∧ t.status.isActive = true := by
    intro entries chosen
    induction entries with
    | nil => cases chosen
    | cons entry rest ih =>
      obtain ⟨t, place⟩ := entry
      have later : task.chooseObserverFrom rest = .ok (some index) →
          ∃ u, (u, index) ∈ (t, place) :: rest ∧ u.isObserver = true ∧
            u.status.isActive = true := by
        intro chosen
        obtain ⟨u, member, rest⟩ := ih chosen
        exact ⟨u, List.mem_cons_of_mem _ member, rest⟩
      unfold chooseObserverFrom at chosen
      split at chosen
      · rename_i both
        obtain ⟨leaving, _, chosen⟩ := bind_eq_ok_iff.1 chosen
        cases leaving with
        | true =>
          obtain rfl := Option.some.inj (pure_eq_ok_iff.1 chosen)
          obtain ⟨observes, active⟩ := Bool.and_eq_true_iff.1 both
          exact ⟨t, by simp, observes, active⟩
        | false => exact later chosen
      · exact later chosen
  obtain ⟨t, member, rest⟩ := found _ given
  exact ⟨t, List.mem_zipIdx_iff_getElem?.1 member, rest⟩

theorem chooseObserver_eq_none (given : task.chooseObserver threads = .ok none) :
    ∀ t ∈ threads, t.isObserver = true → t.status.isActive = true →
      task.hasLeaving t = .ok false := by
  have missed : ∀ entries : List (Thread × Nat), task.chooseObserverFrom entries = .ok none →
      ∀ entry ∈ entries, entry.1.isObserver = true → entry.1.status.isActive = true →
        task.hasLeaving entry.1 = .ok false := by
    intro entries chosen
    induction entries with
    | nil => simp
    | cons entry rest ih =>
      unfold chooseObserverFrom at chosen
      intro other member observes active
      split at chosen
      · obtain ⟨leaving, known, chosen⟩ := bind_eq_ok_iff.1 chosen
        cases leaving with
        | true => cases chosen
        | false =>
          rcases List.mem_cons.1 member with rfl | member
          · exact known
          · exact ih chosen other member observes active
      · rename_i idle
        rcases List.mem_cons.1 member with rfl | member
        · exact absurd (Bool.and_eq_true_iff.2 ⟨observes, active⟩) idle
        · exact ih chosen other member observes active
  intro t member
  obtain ⟨place, found⟩ := List.mem_iff_getElem?.1 member
  exact missed _ given (t, place) (List.mem_zipIdx_iff_getElem?.2 found)

theorem mem_running {entry : Thread × Nat} :
    entry ∈ threads.zipIdx.filter (·.1.runsProgram) ↔
      threads[entry.2]? = some entry.1 ∧ entry.1.runsProgram = true := by
  rw [List.mem_filter, List.mem_zipIdx_iff_getElem?]

theorem chooseThread_eq_some (given : task.chooseThread threads = .ok (some index)) :
    ∃ t, threads[index]? = some t ∧ t.runsProgram = true := by
  unfold chooseThread at given
  split at given
  · cases given
  · rename_i t place only
    obtain ⟨leaving, _, given⟩ := bind_eq_ok_iff.1 given
    cases leaving with
    | true =>
      obtain rfl := Option.some.inj (pure_eq_ok_iff.1 given)
      have listed : (t, place) ∈ threads.zipIdx.filter (·.1.runsProgram) := by
        rw [only]
        exact List.mem_singleton.2 rfl
      exact ⟨t, mem_running.1 listed⟩
    | false => cases given
  · cases given

theorem runsProgram_of_chooseThread (given : task.chooseThread threads = .ok none) :
    ∀ t ∈ threads, t.runsProgram = false := by
  unfold chooseThread at given
  split at given
  · rename_i nobody
    intro t member
    obtain ⟨place, found⟩ := List.mem_iff_getElem?.1 member
    apply Bool.eq_false_iff.2
    intro runs
    have listed : (t, place) ∈ threads.zipIdx.filter (·.1.runsProgram) :=
      mem_running.2 ⟨found, runs⟩
    rw [nobody] at listed
    cases listed
  · obtain ⟨leaving, _, given⟩ := bind_eq_ok_iff.1 given
    cases leaving <;> cases given
  · cases given

/-- Whoever steps is active, and is an observer or the running thread of the program. -/
theorem chooseStepping_eq_some (given : task.chooseStepping threads = .ok (some index)) :
    ∃ t, threads[index]? = some t ∧ t.status.isActive = true ∧
      (t.isObserver = true ∨ t.runsProgram = true) := by
  obtain ⟨choice, observer, given⟩ := bind_eq_ok_iff.1 given
  cases choice with
  | some place =>
    obtain rfl := Option.some.inj (pure_eq_ok_iff.1 given)
    obtain ⟨t, found, observes, active⟩ := chooseObserver_eq_some observer
    exact ⟨t, found, active, Or.inl observes⟩
  | none =>
    obtain ⟨t, found, runs⟩ := chooseThread_eq_some given
    exact ⟨t, found, isActive_of_runsProgram runs, Or.inr runs⟩

theorem Orderly.length_running (orderly : task.Orderly threads) :
    (threads.zipIdx.filter (·.1.runsProgram)).length ≤ 1 := by
  have same := List.countP_map (p := Thread.runsProgram) (f := Prod.fst) (l := threads.zipIdx)
  rw [List.zipIdx_map_fst] at same
  rw [← List.countP_eq_length_filter]
  exact same ▸ orderly.single

/-- No two threads of the program run. -/
theorem Orderly.eq_of_runsProgram (orderly : task.Orderly threads) {other : Nat}
    (first : threads[index]? = some t) (runs : t.runsProgram = true)
    (second : threads[other]? = some u) (too : u.runsProgram = true) : other = index := by
  have counted := orderly.length_running
  have here : (t, index) ∈ threads.zipIdx.filter (·.1.runsProgram) := mem_running.2 ⟨first, runs⟩
  have there : (u, other) ∈ threads.zipIdx.filter (·.1.runsProgram) := mem_running.2 ⟨second, too⟩
  match list : threads.zipIdx.filter (·.1.runsProgram) with
  | [] =>
    rw [list] at here
    cases here
  | [only] =>
    rw [list] at here there
    exact congrArg Prod.snd ((List.mem_singleton.1 there).trans (List.mem_singleton.1 here).symm)
  | _ :: _ :: _ =>
    rw [list] at counted
    simp at counted

/-- If nobody is to step, nobody is active. -/
theorem Orderly.idle (orderly : task.Orderly threads)
    (given : task.chooseStepping threads = .ok none) (member : t ∈ threads) :
    t.status.isActive = false := by
  obtain ⟨choice, observer, given⟩ := bind_eq_ok_iff.1 given
  cases choice with
  | some place => cases given
  | none =>
    have nobody := runsProgram_of_chooseThread given
    apply Bool.eq_false_iff.2
    intro active
    by_cases observes : t.isObserver = true
    · have stuck := chooseObserver_eq_none observer t member observes active
      rw [orderly.hasLeaving member active] at stuck
      cases stuck
    · rw [Bool.not_eq_true] at observes
      rcases Bool.or_eq_true_iff.1 active with runs | ready
      · have program : t.runsProgram = true := by simp [Thread.runsProgram, observes, runs]
        cases (nobody t member).symm.trans program
      · have waits : t.isReady = true := by simp only [Thread.isReady, observes, ready]; rfl
        have one := orderly.running t member waits
        rw [List.countP_eq_zero.2 fun u inside => by rw [nobody u inside]; simp] at one
        cases one

/-- The scheduler always finds out who is to step. -/
theorem Orderly.exists_chooseStepping (accepted : task.Accepted)
    (orderly : task.Orderly threads) : ∃ choice, task.chooseStepping threads = .ok choice := by
  have observer : ∀ entries : List (Thread × Nat), (∀ entry ∈ entries, task.Placed entry.1) →
      ∃ choice, task.chooseObserverFrom entries = .ok choice := by
    intro entries placed
    induction entries with
    | nil => exact ⟨none, rfl⟩
    | cons entry rest ih =>
      obtain ⟨later, chosen⟩ := ih fun other member => placed other (by simp [member])
      obtain ⟨leaving, known⟩ := (placed entry (by simp)).exists_hasLeaving accepted
      unfold chooseObserverFrom
      split
      · rw [known]
        cases leaving with
        | true => exact ⟨_, rfl⟩
        | false => exact ⟨later, chosen⟩
      · exact ⟨later, chosen⟩
  obtain ⟨choice, chosen⟩ := observer threads.zipIdx
    fun entry member => orderly.placed _ (List.fst_mem_of_mem_zipIdx member)
  rw [chooseStepping, chooseObserver, chosen]
  cases choice with
  | some place => exact ⟨_, rfl⟩
  | none =>
    show ∃ choice, task.chooseThread threads = .ok choice
    have counted := orderly.length_running
    unfold chooseThread
    split
    · exact ⟨_, rfl⟩
    · rename_i t place only
      have listed : (t, place) ∈ threads.zipIdx.filter (·.1.runsProgram) := by
        rw [only]
        exact List.mem_singleton.2 rfl
      obtain ⟨found, runs⟩ := mem_running.1 listed
      rw [orderly.hasLeaving (List.mem_of_getElem? found) (isActive_of_runsProgram runs)]
      exact ⟨_, rfl⟩
    · rename_i running none several
      match list : threads.zipIdx.filter (·.1.runsProgram) with
      | [] => exact absurd list none
      | [(t, place)] => exact absurd list (several t place)
      | _ :: _ :: _ =>
        rw [list] at counted
        simp at counted

/-- A thread that goes on after its step can move. -/
theorem statusAfter_cases {status : Status} (given : task.statusAfter step t = .ok status) :
    (t.status = .failure ∧ status = .failure) ∨ (t.status = .wait ∧ status = .wait) ∨
      (t.status ≠ .failure ∧ t.status ≠ .wait ∧
        (status = .done ∨ status.isActive = true ∧ task.hasLeaving t = .ok true)) := by
  unfold statusAfter at given
  split at given
  · rename_i failed
    exact Or.inl ⟨failed, (Except.ok.inj given).symm⟩
  · rename_i waits
    exact Or.inr (Or.inl ⟨waits, (Except.ok.inj given).symm⟩)
  · rename_i goes stays
    refine Or.inr (Or.inr ⟨goes, stays, ?_⟩)
    split at given
    · exact Or.inl (pure_eq_ok_iff.1 given).symm
    · obtain ⟨leaving, known, given⟩ := bind_eq_ok_iff.1 given
      cases leaving with
      | false => exact Or.inl (pure_eq_ok_iff.1 given).symm
      | true =>
        refine Or.inr ⟨?_, known⟩
        obtain rfl := pure_eq_ok_iff.1 given
        split
        · rfl
        · split <;> rfl

theorem Stepped.isObserver (stepped : task.Stepped step index next t u) :
    u.isObserver = t.isObserver := by
  obtain ⟨_, _, affects, _, rfl⟩ := stepped
  exact affects.isObserver.trans isObserver_move

theorem Stepped.hasLeaving (stepped : task.Stepped step index next t u)
    (active : u.status.isActive = true) : task.hasLeaving u = .ok true := by
  obtain ⟨w, status, _, after, rfl⟩ := stepped
  rcases statusAfter_cases after with ⟨_, rfl⟩ | ⟨_, rfl⟩ | ⟨_, _, rfl | ⟨_, leaving⟩⟩
  · cases active
  · cases active
  · cases active
  · exact leaving

/-- The step of a thread whose turn it is leaves the threads steady. -/
theorem Orderly.prepare (orderly : task.Orderly threads) (found : threads[index]? = some t)
    (turn : t.isObserver = true ∨ t.runsProgram = true) (lands : task.Lands t step)
    (given : task.prepare policy threads index step = .ok next) : task.Steady next := by
  have inside := (List.getElem?_eq_some_iff.1 found).1
  have changes := changes_prepare given inside
  have chosen : ∀ other, threads[index]? = some other → other = t :=
    fun other same => Option.some.inj (same.symm.trans found)
  constructor
  · -- a running thread of the program has been one before: nobody else is allowed to start
    refine Nat.le_trans (countP_le_of_forall₂ ?_) orderly.single
    refine changes.forall₂ (fun _ => id) (fun t runs => ?_) fun other u before stepped runs => ?_
    · simp [Thread.runsProgram, Thread.restart, Status.isRunning] at runs
    · obtain rfl := chosen other before
      rcases turn with observes | program
      · simp [Thread.runsProgram, stepped.isObserver, observes] at runs
      · exact program
  · refine changes.all (motive := fun t => t.status.isRunning = true →
      task.hasLeaving t = .ok true) (fun t _ runs => ?_) (fun other u before stepped runs => ?_)
      fun t member runs => orderly.hasLeaving member (isActive_of_isRunning runs)
    · cases runs
    · exact stepped.hasLeaving (isActive_of_isRunning runs)
  · refine placed_prepare given inside (fun other before => ?_) orderly.placed
    rw [chosen other before]
    exact lands

theorem Orderly.applyStep (accepted : task.Accepted) (orderly : task.Orderly threads)
    (given : task.chooseStepping threads = .ok (some index)) (found : threads[index]? = some t)
    {steps : List Step} (leaving : task.leavingSteps t = .ok steps) (member : step ∈ steps) :
    FailsWith (¬·.Internal) (task.applyStep policy threads index step) ∧
      ∀ next, task.applyStep policy threads index step = .ok next → task.Orderly next := by
  have inside := (List.getElem?_eq_some_iff.1 found).1
  have placed := orderly.placed t (List.mem_of_getElem? found)
  have lands := lands_leavingSteps accepted placed leaving member
  obtain ⟨other, same, _, turn⟩ := chooseStepping_eq_some given
  obtain rfl := Option.some.inj (found.symm.trans same)
  have proceeds : ∀ prepared, task.prepare policy threads index step = .ok prepared →
      ∃ next, task.proceed prepared index = .ok next ∧ task.Orderly next :=
    fun prepared first => (orderly.prepare found turn lands first).proceed accepted index
  rw [applyStep_eq inside]
  constructor
  · refine (failsWith_prepare accepted (fun w before => ?_) orderly.placed).bind
      fun prepared first => ?_
    · rw [Option.some.inj (before.symm.trans found)]
      exact lands
    · obtain ⟨next, done, _⟩ := proceeds prepared first
      exact .of_ok done
  · intro next given
    obtain ⟨prepared, first, second⟩ := bind_eq_ok_iff.1 given
    obtain ⟨other, done, ordered⟩ := proceeds prepared first
    obtain rfl := Except.ok.inj (second.symm.trans done)
    exact ordered

theorem isRunning_initialStatus {actor : Actor} {script : Script} :
    (initialStatus actor script).isRunning = false := by
  unfold initialStatus
  split
  · rfl
  · split <;> rfl
  · rfl

theorem orderly_startThreads (accepted : task.Accepted) {first : Nat}
    (given : task.startThreads (task.newThreads first) = .ok threads) : task.Orderly threads := by
  have idle : ∀ t ∈ task.newThreads first, t.status.isRunning = false := by
    intro t member
    obtain ⟨actor, _, script, _, _, _, _, rfl⟩ := exists_of_mem_newThreads member
    exact isRunning_initialStatus
  have steady : task.Steady (task.newThreads first) := by
    refine ⟨?_, fun t member runs => ?_, placed_newThreads accepted⟩
    · rw [List.countP_eq_zero.2]
      · omega
      · intro t member
        simp [Thread.runsProgram, idle t member]
    · cases (idle t member).symm.trans runs
  obtain ⟨next, done, orderly⟩ := steady.proceed accepted ((task.newThreads first).length - 1)
  obtain rfl := Except.ok.inj (given.symm.trans done)
  exact orderly

end Task

/-! ### Reachable states -/

/-- The states that steps of the analysis lead to from its initial states. -/
inductive Analysis.Reachable {σ : Type} (a : Analysis σ) : σ → Prop
  | initial {s : σ} {states : List σ} {before after : Context}
    (given : a.initial.Yields before states after) (member : s ∈ states) : Reachable a s
  | step {s t : σ} {states : List σ} {before after : Context} (reachable : Reachable a s)
    (given : (a.successors s).Yields before states after) (member : t ∈ states) : Reachable a t

namespace Run

variable {α β : Type} {allowed : Error → Prop} {x : Run α} {f : α → Run β}

/-- All errors of the computation are such errors, in whatever context it begins. -/
def FailsWith (allowed : Error → Prop) (x : Run α) : Prop :=
  ∀ before e after, x.outcome before = (.error e, after) → allowed e

theorem FailsWith.bind (first : x.FailsWith allowed)
    (later : ∀ a before after, x.Yields before a after → (f a).FailsWith allowed) :
    (x >>= f).FailsWith allowed := by
  intro before e after raised
  rw [outcome_bind] at raised
  cases run : x.outcome before with
  | mk result middle =>
    rw [run] at raised
    cases result with
    | error other =>
      cases raised
      exact first before e _ run
    | ok a => exact later a before middle run middle e after raised

theorem failsWith_pure {a : α} : (pure a : Run α).FailsWith allowed := nofun

theorem failsWith_newStep : newStep.FailsWith allowed := nofun

theorem failsWith_report {caveat : Caveat} : (report caveat).FailsWith allowed := nofun

theorem failsWith_ofExcept {x : Except Error α} (only : EventCheck.FailsWith allowed x) :
    (ofExcept x).FailsWith allowed := by
  intro before e after raised
  cases x with
  | ok a => cases raised
  | error other =>
    cases raised
    exact only _ rfl

theorem FailsWith.mapM {elements : List α} (each : ∀ a ∈ elements, (f a).FailsWith allowed) :
    (elements.mapM f).FailsWith allowed := by
  induction elements with
  | nil => exact failsWith_pure
  | cons a rest ih =>
    rw [List.mapM_cons]
    refine (each a (by simp)).bind fun _ _ _ _ => ?_
    exact (ih fun b member => each b (by simp [member])).bind fun _ _ _ _ => failsWith_pure

end Run

namespace Control

variable {σ : Type} {a : LabeledAnalysis σ} {task : Task} {policy : WaitPolicy}
variable {s t : ControlState σ}

/-- The scheduler keeps its order. -/
theorem orderly_reachable (accepted : task.Accepted)
    (reachable : (a.scheduled task policy).Reachable s) : task.Orderly s.threads := by
  induction reachable with
  | initial given member =>
    obtain ⟨threads, started, rfl⟩ := yields_initial given
    obtain ⟨inner, _, rfl⟩ := List.mem_map.1 member
    exact Task.orderly_startThreads accepted started
  | step _ given member orderly =>
    obtain ⟨index, thread, step, succeeds⟩ := exists_succeeds given member
    obtain ⟨steps, leaving, offered⟩ := succeeds.offered
    exact (orderly.applyStep accepted succeeds.chosen succeeds.found leaving offered).2 _
      succeeds.applied

/-- The analysis inside fails on the operations of a step that is to be taken from the state. -/
def FailsInside (task : Task) (a : LabeledAnalysis σ) (s : ControlState σ) (e : Error) : Prop :=
  ∃ index thread steps step bigStep, task.chooseStepping s.threads = .ok (some index) ∧
    s.threads[index]? = some thread ∧ task.leavingSteps thread = .ok steps ∧ step ∈ steps ∧
    follow a thread.id bigStep true step.operations [s.inner] = .error e

theorem failsWith_successors (accepted : task.Accepted) (orderly : task.Orderly s.threads) :
    (successors task policy a s).FailsWith fun e => FailsInside task a s e ∨ ¬e.Internal := by
  obtain ⟨choice, chosen⟩ := orderly.exists_chooseStepping accepted
  refine (Run.failsWith_ofExcept (.of_ok chosen)).bind fun other _ _ same => ?_
  obtain rfl := Except.ok.inj (chosen.symm.trans (Run.yields_ofExcept.1 same).1)
  cases choice with
  | none => exact Run.failsWith_pure
  | some index =>
    obtain ⟨thread, found, _⟩ := Task.chooseStepping_eq_some chosen
    have placed := orderly.placed thread (List.mem_of_getElem? found)
    simp only [found]
    refine Run.failsWith_newStep.bind fun bigStep _ _ _ => Run.FailsWith.bind ?_ ?_
    · refine Run.failsWith_ofExcept fun e raised => Or.inr ?_
      exact Task.failsWith_leavingSteps accepted placed e raised
    · intro steps _ _ given
      have leaving := (Run.yields_ofExcept.1 given).1
      refine Run.FailsWith.bind (.mapM fun step member => ?_) fun _ _ _ _ => Run.failsWith_pure
      refine (Run.failsWith_ofExcept fun e raised => Or.inl ⟨index, thread, steps, step, bigStep,
        chosen, found, leaving, member, raised⟩).bind fun inner _ _ _ => ?_
      split
      · exact Run.failsWith_pure
      · refine Run.FailsWith.bind ?_ fun _ _ _ _ => Run.FailsWith.bind ?_
          fun _ _ _ _ => Run.failsWith_pure
        · unfold reportWait
          split
          · exact Run.failsWith_report
          · exact Run.failsWith_pure
        · refine Run.failsWith_ofExcept fun e raised => Or.inr ?_
          exact (orderly.applyStep accepted chosen found leaving member).1 e raised

end Control

theorem LabeledAnalysis.withControl_eq_ok {σ : Type} {a : LabeledAnalysis σ} {task : Task}
    {options : ControlOptions} {analysis : Analysis (ControlState σ)}
    (wrapped : a.withControl task options = .ok analysis) :
    analysis = a.scheduled task options.waitPolicy := by
  unfold withControl at wrapped
  split at wrapped
  · cases wrapped
  · exact (Except.ok.inj wrapped).symm

/-- In all states that the scheduler comes to the threads are in order, and from there it fails
for no other reasons than the analysis inside and the program have. -/
theorem orderly_of_reachable {σ : Type} {a : LabeledAnalysis σ} {task : Task}
    {options : ControlOptions} {analysis : Analysis (ControlState σ)} {s : ControlState σ}
    (accepted : task.Accepted) (wrapped : a.withControl task options = .ok analysis)
    (reachable : analysis.Reachable s) : task.Orderly s.threads ∧
      ∀ before e after, (analysis.successors s).outcome before = (.error e, after) →
        Control.FailsInside task a s e ∨ ¬e.Internal := by
  obtain rfl := LabeledAnalysis.withControl_eq_ok wrapped
  have orderly := Control.orderly_reachable accepted reachable
  exact ⟨orderly, Control.failsWith_successors accepted orderly⟩

/-! ### A program of two scripts -/

/-- The first script sends a message and waits until the second one is through. -/
def waitsForReceiver : Except Error Task := do
  let sends ← ControlFlow.ofTransitions [0] [(0, 1, 1), (1, 2, 2)]
  let receives ← ControlFlow.ofTransitions [3] [(3, 2, 4)]
  let actor ← Actor.addScript { name := "A" } { id := 0, event := .bootstrap, flow := sends }
  let actor ← actor.addScript { id := 1, event := .message "m", flow := receives }
  Task.create "t" [actor] [⟨1, .broadcastAndWait (.const (.str "m"))⟩, ⟨2, .nop⟩]

theorem accepted_waitsForReceiver {task : Task} (created : waitsForReceiver = .ok task) :
    task.Accepted := by
  obtain ⟨sends, first, created⟩ := bind_eq_ok_iff.1 created
  obtain ⟨receives, second, created⟩ := bind_eq_ok_iff.1 created
  obtain ⟨one, third, created⟩ := bind_eq_ok_iff.1 created
  obtain ⟨two, fourth, created⟩ := bind_eq_ok_iff.1 created
  refine ⟨_, _, _, ?_, created⟩
  intro actor member
  obtain rfl := List.mem_singleton.1 member
  exact .script (.script .empty (ControlFlow.built_ofTransitions first) third)
    (ControlFlow.built_ofTransitions second) fourth

/-- Whether the first thread waits for another one after its first step. -/
def comesToWait (program : Except Error Task) : Bool :=
  match program with
  | .ok task =>
    match (Control.initial task (symbolicMemory .sep)).outcome {} with
    | (.ok [s], between) =>
      match (Control.successors task .approximate (symbolicMemory .sep) s).outcome between with
      | (.ok [t], _) => t.threads.any (!·.waitingFor.isEmpty)
      | _ => false
    | _ => false
  | _ => false

theorem comesToWait_waitsForReceiver : comesToWait waitsForReceiver = true := by decide +kernel

/-- The program comes to a state in which a thread waits for another one. -/
theorem exists_reachable_waiting : ∃ (task : Task) (s : ControlState Formula),
    task.Accepted ∧ ((symbolicMemory .sep).scheduled task .approximate).Reachable s ∧
      ∃ t ∈ s.threads, t.waitingFor ≠ ∅ := by
  have checked := comesToWait_waitsForReceiver
  unfold comesToWait at checked
  split at checked
  · rename_i task created
    split at checked
    · rename_i s between started
      split at checked
      · rename_i t after stepped
        obtain ⟨thread, member, waits⟩ := List.any_eq_true.1 checked
        refine ⟨task, t, accepted_waitsForReceiver created,
          .step (.initial started (by simp)) stepped (by simp), thread, member, ?_⟩
        rintro none
        rw [none] at waits
        cases waits
      · cases checked
    · cases checked
  · cases checked

/-- Also while a thread waits for another one the threads are in order. -/
theorem exists_orderly_waiting : ∃ (task : Task) (analysis : Analysis (ControlState Formula))
    (s : ControlState Formula), task.Accepted ∧
      (symbolicMemory .sep).withControl task {} = .ok analysis ∧ analysis.Reachable s ∧
      (∃ t ∈ s.threads, t.waitingFor ≠ ∅) ∧ task.Orderly s.threads ∧
      ∀ before e after, (analysis.successors s).outcome before = (.error e, after) →
        Control.FailsInside task (symbolicMemory .sep) s e ∨ ¬e.Internal := by
  obtain ⟨task, s, accepted, reachable, waits⟩ := exists_reachable_waiting
  exact ⟨task, _, s, accepted, rfl, reachable, waits,
    orderly_of_reachable accepted
      (show (symbolicMemory .sep).withControl task {} = .ok _ from rfl) reachable⟩

end EventCheck
