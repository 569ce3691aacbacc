import EventCheck.Control.Step

/-!
Settling threads: a ready thread that cannot move is done, and a thread that waits for others is
ready once they are all finished. Each change makes the threads' weight smaller, so this comes
to an end.
-/

namespace EventCheck

namespace Thread

/-- How far the thread is from rest, as settling goes. -/
def weight (t : Thread) : Nat :=
  t.waitingFor.size + match t.status with
    | .wait => 2
    | .yield => 1
    | _ => 0

theorem weight_release_lt {finished : SortedSet Nat} {t : Thread}
    (changed : t.release finished ≠ t) : (t.release finished).weight < t.weight := by
  unfold release at changed ⊢
  by_cases idle : t.status ≠ .wait ∨ t.waitingFor.isEmpty = true
  · rw [if_pos idle] at changed
    exact absurd rfl changed
  · rw [if_neg idle] at changed ⊢
    have waits : t.status = .wait := Classical.byContradiction fun h => idle (Or.inl h)
    have shrinks := List.length_filter_le (fun id => !finished.contains id) t.waitingFor.toList
    dsimp only at changed ⊢
    split
    · simp [weight, waits, SortedSet.size]
    · rename_i remains
      rw [if_neg remains] at changed
      simp only [weight, waits, SortedSet.size]
      have fewer : (t.waitingFor.filter fun id => !finished.contains id).toList.length
          ≠ t.waitingFor.toList.length := by
        intro same
        refine changed ?_
        have kept : t.waitingFor.filter (fun id => !finished.contains id) = t.waitingFor :=
          SortedSet.toList_injective (List.filter_eq_self.2
            (List.length_filter_eq_length_iff.1 same))
        rw [kept]
      simp only [SortedSet.filter] at fewer ⊢
      omega

end Thread

/-- The weight of all threads. -/
def totalWeight : List Thread → Nat
  | [] => 0
  | t :: rest => t.weight + totalWeight rest

theorem totalWeight_map_lt {f : Thread → Thread} {threads : List Thread}
    (lighter : ∀ t, f t ≠ t → (f t).weight < t.weight) :
    totalWeight (threads.map f) ≤ totalWeight threads ∧
      (threads.map f ≠ threads → totalWeight (threads.map f) < totalWeight threads) := by
  induction threads with
  | nil => simp [totalWeight]
  | cons t rest ih =>
    obtain ⟨below, strictly⟩ := ih
    simp only [totalWeight, List.map_cons] at below strictly ⊢
    by_cases same : f t = t
    · rw [same]
      refine ⟨by omega, fun changed => ?_⟩
      have := strictly fun h => changed (by rw [h])
      omega
    · have := lighter t same
      exact ⟨by omega, fun _ => by omega⟩

namespace Task

/-- A ready thread that cannot move is done. -/
def finishStuck (task : Task) (t : Thread) : Except Error Thread :=
  if t.status = .yield then do
    return if ← task.hasLeaving t then t else { t with status := .done }
  else .ok t

theorem weight_finishStuck {task : Task} {t u : Thread} (finished : task.finishStuck t = .ok u) :
    u.weight ≤ t.weight ∧ (u ≠ t → u.weight < t.weight) := by
  unfold finishStuck at finished
  split at finished
  · rename_i ready
    cases leaving : task.hasLeaving t with
    | error e => simp [leaving, bind, Except.bind] at finished
    | ok b =>
      simp only [leaving, bind, Except.bind, pure, Except.pure, Except.ok.injEq] at finished
      cases b
      · simp only [Bool.false_eq_true, if_false] at finished
        subst finished
        simp [Thread.weight, ready]
      · simp only [if_true] at finished
        subst finished
        simp
  · simp only [Except.ok.injEq] at finished
    subst finished
    simp

/-- The numbers of the threads that are finished. -/
def finishedIds (threads : List Thread) : SortedSet Nat :=
  .ofList ((threads.filter (·.status.isFinished)).map (·.id))

/-- Applies a fallible change to each element. -/
def mapThreads (f : Thread → Except Error Thread) : List Thread → Except Error (List Thread)
  | [] => .ok []
  | t :: rest => do
    let u ← f t
    let changed ← mapThreads f rest
    return u :: changed

theorem totalWeight_mapThreads {f : Thread → Except Error Thread} {threads changed : List Thread}
    (lighter : ∀ t u, f t = .ok u → u.weight ≤ t.weight ∧ (u ≠ t → u.weight < t.weight))
    (run : mapThreads f threads = .ok changed) :
    totalWeight changed ≤ totalWeight threads ∧
      (changed ≠ threads → totalWeight changed < totalWeight threads) := by
  induction threads generalizing changed with
  | nil =>
    cases run
    simp
  | cons t rest ih =>
    unfold mapThreads at run
    cases first : f t with
    | error e => simp [first, bind, Except.bind] at run
    | ok u =>
      cases later : mapThreads f rest with
      | error e => simp [first, later, bind, Except.bind] at run
      | ok us =>
        simp only [first, later, bind, Except.bind, pure, Except.pure, Except.ok.injEq] at run
        subst run
        obtain ⟨below, strictly⟩ := ih later
        obtain ⟨belowHead, strictlyHead⟩ := lighter t u first
        simp only [totalWeight] at below strictly ⊢
        refine ⟨by omega, fun changed => ?_⟩
        by_cases same : u = t
        · have := strictly fun h => changed (by rw [same, h])
          omega
        · have := strictlyHead same
          omega

/-- One round of settling. -/
def settleRound (task : Task) (threads : List Thread) : Except Error (List Thread) := do
  let threads ← mapThreads task.finishStuck threads
  return threads.map (Thread.release (finishedIds threads))

theorem totalWeight_settleRound {task : Task} {threads next : List Thread}
    (round : task.settleRound threads = .ok next) (changed : next ≠ threads) :
    totalWeight next < totalWeight threads := by
  unfold settleRound at round
  cases run : mapThreads task.finishStuck threads with
  | error e => simp [run, bind, Except.bind] at round
  | ok middle =>
    simp only [run, bind, Except.bind, pure, Except.pure, Except.ok.injEq] at round
    subst round
    obtain ⟨below, strictly⟩ :=
      totalWeight_mapThreads (fun _ _ => weight_finishStuck) run
    obtain ⟨belowRelease, strictlyRelease⟩ :=
      @totalWeight_map_lt (Thread.release (finishedIds middle)) middle
        fun _ => Thread.weight_release_lt
    by_cases same : middle = threads
    · subst same
      exact strictlyRelease changed
    · have := strictly same
      omega

/-- Settles the threads: goes on until a round changes nothing. -/
def settle (task : Task) (threads : List Thread) : Except Error (List Thread) :=
  match _round : task.settleRound threads with
  | .error e => .error e
  | .ok next => if _changed : next = threads then .ok next else task.settle next
termination_by totalWeight threads
decreasing_by exact totalWeight_settleRound _round _changed

end Task

end EventCheck
