import EventCheck.Proofs.Membership
import Mathlib.Data.List.Dedup

/-!
Frontiers are first-in first-out lists. Whatever a frontier is asked for, it answers and evolves as
a plain list of distinct states does that knows nothing of partitions and has no index.
-/

namespace EventCheck

/-! ### Requests one after the other -/

section Serve

variable {ρ α τ υ : Type}

/-- Does what is asked for in turn, with the answers. -/
def serve (perform : ρ → τ → α × τ) : List ρ → τ → List α × τ
  | [], current => ([], current)
  | request :: rest, current =>
    let (answer, next) := perform request current
    let (answers, last) := serve perform rest next
    (answer :: answers, last)

/-- Where related states answer alike and stay related, so do they in the long run. -/
theorem serve_of_step {first : ρ → τ → α × τ} {second : ρ → υ → α × υ} {related : τ → υ → Prop}
    (step : ∀ request t u, related t u →
      (first request t).1 = (second request u).1 ∧
        related (first request t).2 (second request u).2)
    (requests : List ρ) {t : τ} {u : υ} (start : related t u) :
    (serve first requests t).1 = (serve second requests u).1 ∧
      related (serve first requests t).2 (serve second requests u).2 := by
  induction requests generalizing t u with
  | nil => exact ⟨rfl, start⟩
  | cons request rest ih =>
    obtain ⟨answer, next⟩ := step request t u start
    obtain ⟨answers, last⟩ := ih next
    exact ⟨congrArg₂ List.cons answer answers, last⟩

end Serve

variable {σ : Type} {key : σ → PartitionKey} [DecidableEq σ]

/-! ### Plain lists -/

namespace FrontierRequest

/-- Appends a state to a list, unless it is there. -/
def append (states : List σ) (s : σ) : List σ := if s ∈ states then states else states ++ [s]

/-- What a plain list of waiting states answers and becomes. -/
def performOnList : FrontierRequest σ → List σ → FrontierAnswer σ × List σ
  | add s, states => (.changed (s ∉ states), append states s)
  | addAll new, states => (.done, new.foldl append states)
  | remove s, states => (.changed (s ∈ states), states.erase s)
  | removeAll gone, states => (.done, states.filter (· ∉ gone))
  | pop, states => (.popped states.head?, states.tail)
  | clear, _ => (.done, [])
  | replace old new, states =>
    (.changed (old ∈ states),
      if new ∈ states then states.erase old else states.replace old new)

end FrontierRequest

/-! ### What the operations make of the queue -/

namespace Frontier

variable {frontier next : Frontier key} {s t old new : σ} {states : List σ}

theorem Sound.queue_insert (sound : frontier.Sound) :
    (frontier.insert s).queue = FrontierRequest.append frontier.queue s := by
  unfold Frontier.insert FrontierRequest.append
  by_cases inside : s ∈ frontier.queue
  · rw [if_pos (sound.contains_iff.2 inside), if_pos inside]
  · rw [if_neg fun present => inside (sound.contains_iff.1 present), if_neg inside]

theorem Sound.queue_erase (sound : frontier.Sound) :
    (frontier.erase s).queue = frontier.queue.erase s := by
  unfold Frontier.erase
  by_cases inside : s ∈ frontier.queue
  · rw [if_pos (sound.contains_iff.2 inside), sound.nodup.erase_eq_filter]
    exact List.filter_congr fun t _ => by simp [bne, beq_eq_decide]
  · rw [if_neg fun present => inside (sound.contains_iff.1 present),
      List.erase_of_not_mem inside]

theorem Sound.queue_replace (sound : frontier.Sound) : (frontier.replace old new).queue =
    if new ∈ frontier.queue then frontier.queue.erase old
    else frontier.queue.replace old new := by
  unfold Frontier.replace
  by_cases waits : old ∈ frontier.queue
  · rw [if_neg (by simp [sound.contains_iff.2 waits])]
    by_cases inside : new ∈ frontier.queue
    · rw [if_pos (sound.contains_iff.2 inside), if_pos inside, sound.queue_erase]
    · rw [if_neg fun present => inside (sound.contains_iff.1 present), if_neg inside]
  · have absent : frontier.contains old = false :=
      Bool.eq_false_iff.2 fun present => waits (sound.contains_iff.1 present)
    rw [if_pos (by rw [absent]; rfl), List.erase_of_not_mem waits, List.replace_of_not_mem waits,
      ite_self]

theorem Sound.replaces_iff (sound : frontier.Sound) :
    frontier.replaces old new = true ↔ old ∈ frontier.queue := by
  rw [replaces, Bool.and_eq_true, sound.contains_iff]
  exact and_iff_left_of_imp fun waits => Bool.or_eq_true_iff.2 (Or.inr (decide_eq_true waits))

/-- A replacement keeps the index in step, also one that does not take place. -/
theorem Sound.replaced (sound : frontier.Sound) : (frontier.replace old new).Sound := by
  by_cases inside : frontier.contains old = true
  · exact (sound.replace inside).1
  · unfold Frontier.replace
    rw [if_pos (by simp [Bool.eq_false_iff.2 inside])]
    exact sound

theorem Sound.insertAll (sound : frontier.Sound) : (frontier.insertAll states).Sound ∧
    (frontier.insertAll states).queue = states.foldl FrontierRequest.append frontier.queue := by
  induction states generalizing frontier with
  | nil => exact ⟨sound, rfl⟩
  | cons s rest ih =>
    obtain ⟨inserted, queue⟩ := ih (sound.insert (s := s)).1
    refine ⟨inserted, queue.trans ?_⟩
    rw [sound.queue_insert, List.foldl_cons]

theorem Sound.eraseAll (sound : frontier.Sound) : (frontier.eraseAll states).Sound ∧
    (frontier.eraseAll states).queue = frontier.queue.filter (· ∉ states) := by
  induction states generalizing frontier with
  | nil => exact ⟨sound, by simp [eraseAll]⟩
  | cons s rest ih =>
    obtain ⟨erased, queue⟩ := ih (sound.erase (s := s)).1
    refine ⟨erased, queue.trans ?_⟩
    rw [sound.queue_erase, sound.nodup.erase_eq_filter, List.filter_filter]
    refine List.filter_congr fun t _ => ?_
    rw [Bool.eq_iff_iff]
    simp [and_comm]

omit [DecidableEq σ] in
/-- The index has the waiting states of each partition. -/
theorem Sound.partitionOf_perm (sound : frontier.Sound) :
    (frontier.partitionOf s).Perm (frontier.queue.filter (key · = key s)) := by
  refine (List.perm_ext_iff_of_nodup (sound.keyed.nodup _) (sound.nodup.filter _)).2 fun t => ?_
  rw [List.mem_filter, decide_eq_true_iff, sound.same t]
  constructor
  · intro member
    have same := sound.keyed.same _ t member
    exact ⟨same ▸ member, same⟩
  · rintro ⟨member, same⟩
    exact same ▸ member

/-! ### Runs -/

/-- The frontier has the states of the list in their order, and its index is in step with it. -/
structure Lists (frontier : Frontier key) (states : List σ) : Prop where
  sound : frontier.Sound
  queue : frontier.queue = states

/-- A frontier answers a request as its list does, and goes on as the list does. -/
theorem Lists.perform (lists : frontier.Lists states) (request : FrontierRequest σ) :
    (frontier.perform request).1 = (request.performOnList states).1 ∧
      (frontier.perform request).2.Lists (request.performOnList states).2 := by
  obtain ⟨sound, rfl⟩ := lists
  have inside : ∀ s, frontier.contains s = decide (s ∈ frontier.queue) := fun s =>
    Bool.eq_iff_iff.2 (sound.contains_iff.trans decide_eq_true_iff.symm)
  cases request with
  | add s =>
    refine ⟨?_, sound.insert.1, sound.queue_insert⟩
    simp [Frontier.perform, FrontierRequest.performOnList, inside]
  | addAll new => exact ⟨rfl, sound.insertAll.1, sound.insertAll.2⟩
  | remove s =>
    refine ⟨?_, sound.erase.1, sound.queue_erase⟩
    simp [Frontier.perform, FrontierRequest.performOnList, inside]
  | removeAll gone => exact ⟨rfl, sound.eraseAll.1, sound.eraseAll.2⟩
  | pop =>
    cases popped : frontier.pop? with
    | none =>
      simp only [Frontier.perform, FrontierRequest.performOnList, popped]
      have empty := queue_eq_nil popped
      exact ⟨by rw [empty]; rfl, sound, by rw [empty]; rfl⟩
    | some both =>
      simp only [Frontier.perform, FrontierRequest.performOnList, popped]
      obtain ⟨queue, rest⟩ := sound.pop popped
      exact ⟨by rw [queue]; rfl, rest, by rw [queue]; rfl⟩
  | clear => exact ⟨rfl, sound_empty, rfl⟩
  | replace old new =>
    refine ⟨?_, sound.replaced, sound.queue_replace⟩
    have answer : frontier.replaces old new = decide (old ∈ frontier.queue) :=
      Bool.eq_iff_iff.2 (sound.replaces_iff.trans decide_eq_true_iff.symm)
    simp [Frontier.perform, FrontierRequest.performOnList, answer]

/-- Whatever is asked of a frontier that is empty at first, in whatever order, it answers as the
plain list does. The list has no state twice, and the frontier has its states in their order, says
of each state whether it is there, and has those of each partition together. -/
theorem serves_as_list (key : σ → PartitionKey) (requests : List (FrontierRequest σ)) :
    let served := serve Frontier.perform requests (∅ : Frontier key)
    let listed := serve FrontierRequest.performOnList requests []
    served.1 = listed.1 ∧ served.2.queue = listed.2 ∧ listed.2.Nodup ∧
      (∀ s, served.2.contains s = decide (s ∈ listed.2)) ∧
      served.2.size = listed.2.length ∧ served.2.isEmpty = listed.2.isEmpty ∧
      ∀ s, (served.2.partitionOf s).Perm (listed.2.filter (key · = key s)) := by
  intro served listed
  obtain ⟨answers, sound, queue⟩ := serve_of_step (fun request _ _ lists => lists.perform request)
    requests (⟨sound_empty, rfl⟩ : (∅ : Frontier key).Lists [])
  refine ⟨answers, queue, queue ▸ sound.nodup, fun s => ?_, congrArg List.length queue, ?_,
    fun s => queue ▸ sound.partitionOf_perm⟩
  · exact Bool.eq_iff_iff.2
      (sound.contains_iff.trans (queue ▸ decide_eq_true_iff.symm))
  · rw [isEmpty, size, queue, Bool.eq_iff_iff, beq_iff_eq, List.length_eq_zero_iff,
      List.isEmpty_iff]

end Frontier

end EventCheck
