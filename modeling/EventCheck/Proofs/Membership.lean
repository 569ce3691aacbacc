import EventCheck.Search.Merge
import Mathlib.Data.List.Nodup

/-!
What is in the sets of a search after each of their operations. Groups hold states of their key
only and none twice, and whatever the index of the frontier has is in its queue.
-/

namespace EventCheck

variable {σ : Type} {key : σ → PartitionKey}

/-! ### Groups -/

namespace Groups

variable {groups : Groups σ} {k l : PartitionKey} {states : List σ} {s t : σ}

/-- Each state is in the group of its key, once. -/
structure Keyed (key : σ → PartitionKey) (groups : Groups σ) : Prop where
  same : ∀ k, ∀ s ∈ groups.group k, key s = k
  nodup : ∀ k, (groups.group k).Nodup

@[simp] theorem group_setGroup : (groups.setGroup k states).group l =
    if l = k then states else groups.group l := by
  unfold setGroup group
  rw [SortedMap.getD, SortedMap.getD]
  split
  · rename_i empty
    rw [SortedMap.get?_erase]
    split
    · exact (List.isEmpty_iff.1 empty).symm
    · rfl
  · rw [SortedMap.get?_insert]
    split <;> rfl

@[simp] theorem group_empty : (∅ : Groups σ).group k = [] := rfl

theorem keyed_empty : Keyed key (∅ : Groups σ) := ⟨by simp, by simp⟩

theorem Keyed.setGroup (keyed : Keyed key groups) (same : ∀ s ∈ states, key s = k)
    (nodup : states.Nodup) : Keyed key (groups.setGroup k states) := by
  constructor
  · intro l s member
    rw [group_setGroup] at member
    split at member
    · rename_i here
      exact here ▸ same s member
    · exact keyed.same l s member
  · intro l
    rw [group_setGroup]
    split
    · exact nodup
    · exact keyed.nodup l

theorem Keyed.mem_iff (keyed : Keyed key groups) :
    (∃ k, s ∈ groups.group k) ↔ s ∈ groups.group (key s) := by
  constructor
  · rintro ⟨k, member⟩
    rw [keyed.same k s member]
    exact member
  · exact fun member => ⟨_, member⟩

end Groups

/-! ### Reached states -/

namespace Reached

variable {reached : Reached key} {s t : σ}

theorem mem_toList : s ∈ reached.toList ↔ ∃ k, s ∈ reached.groups.group k := by
  unfold toList SortedMap.values Groups.group
  simp only [List.mem_flatten, List.mem_map, SortedMap.getD]
  constructor
  · rintro ⟨states, ⟨⟨k, found⟩, listed, rfl⟩, member⟩
    exact ⟨k, by rw [SortedMap.get?_eq_some_iff.2 listed]; exact member⟩
  · rintro ⟨k, member⟩
    cases found : reached.groups.get? k with
    | none => simp [found] at member
    | some states =>
      exact ⟨states, ⟨(k, states), SortedMap.get?_eq_some_iff.1 found, rfl⟩,
        by simpa [found] using member⟩

theorem mem_of_partitionOf (member : t ∈ reached.partitionOf s) : t ∈ reached.toList :=
  mem_toList.2 ⟨_, member⟩

/-- No state is listed twice. -/
theorem nodup_toList (keyed : reached.groups.Keyed key) : reached.toList.Nodup := by
  have group : ∀ entry ∈ reached.groups.toList, reached.groups.group entry.1 = entry.2 := by
    intro entry listed
    rw [Groups.group, SortedMap.getD, SortedMap.get?_eq_some_iff.2 listed, Option.getD_some]
  refine List.nodup_flatten.2 ⟨fun states listed => ?_, List.pairwise_map.2 ?_⟩
  · obtain ⟨entry, inside, rfl⟩ := List.mem_map.1 listed
    exact group entry inside ▸ keyed.nodup entry.1
  · refine reached.groups.increasing.imp_of_mem fun {first second} left right less => ?_
    intro s one other
    have same : first.1 = second.1 := (keyed.same _ s (group first left ▸ one)).symm.trans
      (keyed.same _ s (group second right ▸ other))
    simp [same, Std.ReflCmp.compare_self] at less

variable [DecidableEq σ]

theorem contains_iff : reached.contains s = true ↔ s ∈ reached.groups.group (key s) :=
  decide_eq_true_iff

theorem keyed_insert (keyed : reached.groups.Keyed key) :
    (reached.insert s).groups.Keyed key := by
  unfold insert
  split
  · exact keyed
  · rename_i absent
    have out := fun member => absent (contains_iff.2 member)
    refine keyed.setGroup (fun t member => ?_) ?_
    · rcases List.mem_append.1 member with member | member
      · exact keyed.same _ t member
      · rw [List.mem_singleton.1 member]
    · rw [List.nodup_append]
      refine ⟨keyed.nodup _, by simp, fun t member other single => ?_⟩
      rintro rfl
      exact out (List.mem_singleton.1 single ▸ member)

theorem keyed_erase (keyed : reached.groups.Keyed key) : (reached.erase s).groups.Keyed key := by
  unfold erase
  split
  · exact keyed.setGroup (fun t member => keyed.same _ t (List.mem_of_mem_erase member))
      ((keyed.nodup _).erase s)
  · exact keyed

theorem mem_insert (keyed : reached.groups.Keyed key) :
    t ∈ (reached.insert s).toList ↔ t = s ∨ t ∈ reached.toList := by
  rw [mem_toList, (keyed_insert keyed).mem_iff, mem_toList, keyed.mem_iff]
  unfold insert
  split
  · rename_i present
    have inside := contains_iff.1 present
    constructor
    · exact Or.inr
    · rintro (rfl | member)
      · exact inside
      · exact member
  · simp only [Groups.group_setGroup]
    split
    · rename_i same
      rw [List.mem_append, List.mem_singleton, same, or_comm]
      rfl
    · rename_i other
      exact ⟨Or.inr, fun either => either.resolve_left fun same => other (by rw [same])⟩

/-- A new state adds one. -/
theorem size_insert (keyed : reached.groups.Keyed key) (absent : s ∉ reached.toList) :
    (reached.insert s).size = reached.size + 1 := by
  rw [size, size, ← List.length_cons]
  refine ((List.perm_ext_iff_of_nodup (nodup_toList (keyed_insert keyed))
    (List.nodup_cons.2 ⟨absent, nodup_toList keyed⟩)).2 fun t => ?_).length_eq
  exact (mem_insert keyed).trans List.mem_cons.symm

theorem mem_erase (keyed : reached.groups.Keyed key) :
    t ∈ (reached.erase s).toList ↔ t ∈ reached.toList ∧ t ≠ s := by
  rw [mem_toList, (keyed_erase keyed).mem_iff, mem_toList, keyed.mem_iff]
  unfold erase
  split
  · simp only [Groups.group_setGroup]
    split
    · rename_i same
      rw [partitionOf, (keyed.nodup _).mem_erase_iff, same, and_comm]
    · rename_i other
      exact (and_iff_left fun same => other (by rw [same])).symm
  · rename_i absent
    have out := fun member => absent (contains_iff.2 member)
    refine (and_iff_left_of_imp fun member => ?_).symm
    rintro rfl
    exact out member

end Reached

/-! ### Waiting states -/

namespace Frontier

variable [DecidableEq σ] {frontier next : Frontier key} {s t old new : σ}

/-- A state takes the place of another one. -/
theorem mem_replace {states : List σ} (nodup : states.Nodup) (inside : old ∈ states)
    (absent : new ∉ states) : (states.replace old new).Nodup ∧
      ∀ t, t ∈ states.replace old new ↔ t = new ∨ t ∈ states ∧ t ≠ old := by
  induction states with
  | nil => simp at inside
  | cons first rest ih =>
    obtain ⟨out, unique⟩ := List.nodup_cons.1 nodup
    rw [List.mem_cons, not_or] at absent
    by_cases here : first = old
    · subst here
      rw [List.replace_cons_self]
      refine ⟨List.nodup_cons.2 ⟨absent.2, unique⟩, fun t => ?_⟩
      rw [List.mem_cons, List.mem_cons]
      refine or_congr_right ⟨fun member => ⟨Or.inr member, ?_⟩, ?_⟩
      · rintro rfl
        exact out member
      · rintro ⟨same | member, different⟩
        · exact absurd same different
        · exact member
    · have later := (List.mem_cons.1 inside).resolve_left fun same => here same.symm
      obtain ⟨nodup, members⟩ := ih unique later absent.2
      have step : (first :: rest).replace old new = first :: rest.replace old new := by
        rw [List.replace_cons, beq_eq_false_iff_ne.2 (Ne.symm here)]
      rw [step]
      refine ⟨List.nodup_cons.2 ⟨fun member => ?_, nodup⟩, fun t => ?_⟩
      · rcases (members first).1 member with same | ⟨member, _⟩
        · exact absent.1 same.symm
        · exact out member
      · rw [List.mem_cons, List.mem_cons, members t]
        constructor
        · rintro (rfl | same | ⟨member, different⟩)
          · exact Or.inr ⟨Or.inl rfl, here⟩
          · exact Or.inl same
          · exact Or.inr ⟨Or.inr member, different⟩
        · rintro (same | ⟨same | member, different⟩)
          · exact Or.inr (Or.inl same)
          · exact Or.inl same
          · exact Or.inr (Or.inr ⟨member, different⟩)

/-- Without repetitions the removal takes out the state and nothing else. -/
theorem mem_swapErase {states : List σ} (nodup : states.Nodup) :
    (swapErase states s).Nodup ∧ ∀ t, t ∈ swapErase states s ↔ t ∈ states ∧ t ≠ s := by
  rcases List.eq_nil_or_concat states with rfl | ⟨rest, last, rfl⟩
  · simp [swapErase]
  · rw [List.concat_eq_append, List.nodup_append] at nodup
    obtain ⟨unique, _, apart⟩ := nodup
    have fresh : last ∉ rest := fun member => apart last member last (by simp) rfl
    simp only [swapErase, List.concat_eq_append, List.getLast?_append, List.getLast?_singleton,
      Option.some_or, List.mem_append, List.mem_singleton]
    by_cases inside : s ∈ rest
    · have other : last ≠ s := fun same => fresh (same ▸ inside)
      rw [if_pos (Or.inl inside), List.replace_append_left inside, List.dropLast_concat]
      obtain ⟨nodup, members⟩ := mem_replace unique inside fresh
      refine ⟨nodup, fun t => (members t).trans ?_⟩
      constructor
      · rintro (rfl | ⟨member, different⟩)
        · exact ⟨Or.inr rfl, other⟩
        · exact ⟨Or.inl member, different⟩
      · rintro ⟨member | same, different⟩
        · exact Or.inr ⟨member, different⟩
        · exact Or.inl same
    · by_cases same : s = last
      · subst same
        rw [if_pos (Or.inr rfl), List.replace_append_right inside, List.replace_singleton]
        simp only [BEq.rfl, if_true, List.dropLast_concat]
        refine ⟨unique, fun t => ⟨fun member => ⟨Or.inl member, ?_⟩, ?_⟩⟩
        · rintro rfl
          exact inside member
        · rintro ⟨member | same, different⟩
          · exact member
          · exact absurd same different
      · rw [if_neg (by simp [inside, same]), List.nodup_append]
        refine ⟨⟨unique, by simp, apart⟩, fun t => ?_⟩
        rw [List.mem_append, List.mem_singleton]
        refine (and_iff_left_of_imp ?_).symm
        rintro (member | rfl)
        · rintro rfl
          exact inside member
        · exact fun equal => same equal.symm

/-- The index and the queue are in step: they have the same states, each of them once. -/
structure Sound (frontier : Frontier key) : Prop where
  keyed : frontier.index.Keyed key
  nodup : frontier.queue.Nodup
  same : ∀ s, s ∈ frontier.queue ↔ s ∈ frontier.index.group (key s)

omit [DecidableEq σ] in
theorem sound_empty : (∅ : Frontier key).Sound :=
  ⟨Groups.keyed_empty, .nil, fun _ => Iff.rfl⟩

theorem Sound.contains_iff (sound : frontier.Sound) :
    frontier.contains s = true ↔ s ∈ frontier.queue :=
  decide_eq_true_iff.trans (sound.same s).symm

section Index

variable {index : Groups σ}

omit [DecidableEq σ] in
theorem mem_enter : t ∈ (enter index (key s) s).group (key t) ↔
    t = s ∨ t ∈ index.group (key t) := by
  rw [enter, Groups.group_setGroup]
  split
  · rename_i same
    rw [List.mem_append, List.mem_singleton, same, or_comm]
  · rename_i other
    exact ⟨Or.inr, fun either => either.resolve_left fun same => other (by rw [same])⟩

omit [DecidableEq σ] in
theorem keyed_enter (keyed : index.Keyed key) (absent : s ∉ index.group (key s)) :
    (enter index (key s) s).Keyed key := by
  refine keyed.setGroup (fun t member => ?_) ?_
  · rcases List.mem_append.1 member with member | member
    · exact keyed.same _ t member
    · rw [List.mem_singleton.1 member]
  · rw [List.nodup_append]
    refine ⟨keyed.nodup _, by simp, fun t member other single => ?_⟩
    rintro rfl
    exact absent (List.mem_singleton.1 single ▸ member)

theorem mem_leave (keyed : index.Keyed key) : t ∈ (leave index (key s) s).group (key t) ↔
    t ∈ index.group (key t) ∧ t ≠ s := by
  rw [leave, Groups.group_setGroup]
  split
  · rename_i same
    rw [(mem_swapErase (keyed.nodup _)).2 t, same]
  · rename_i other
    exact (and_iff_left fun same => other (by rw [same])).symm

theorem keyed_leave (keyed : index.Keyed key) : (leave index (key s) s).Keyed key := by
  obtain ⟨nodup, members⟩ := mem_swapErase (s := s) (keyed.nodup (key s))
  exact keyed.setGroup (fun t member => keyed.same _ t ((members t).1 member).1) nodup

end Index

theorem Sound.insert (sound : frontier.Sound) : (frontier.insert s).Sound ∧
    ∀ t, t ∈ (frontier.insert s).queue ↔ t = s ∨ t ∈ frontier.queue := by
  unfold Frontier.insert
  split
  · rename_i present
    have inside := sound.contains_iff.1 present
    refine ⟨sound, fun t => ⟨Or.inr, ?_⟩⟩
    rintro (rfl | member)
    · exact inside
    · exact member
  · rename_i absent
    have out : s ∉ frontier.queue := fun member => absent (sound.contains_iff.2 member)
    have members : ∀ t, t ∈ frontier.queue ++ [s] ↔ t = s ∨ t ∈ frontier.queue := fun t => by
      rw [List.mem_append, List.mem_singleton, or_comm]
    refine ⟨⟨keyed_enter sound.keyed fun member => out ((sound.same s).2 member), ?_, fun t => ?_⟩,
      members⟩
    · rw [List.nodup_append]
      refine ⟨sound.nodup, by simp, fun t member other single => ?_⟩
      rintro rfl
      exact out (List.mem_singleton.1 single ▸ member)
    · exact (members t).trans ((or_congr_right (sound.same t)).trans mem_enter.symm)

theorem Sound.pop (sound : frontier.Sound) (popped : frontier.pop? = some (s, next)) :
    frontier.queue = s :: next.queue ∧ next.Sound := by
  unfold pop? at popped
  split at popped
  · cases popped
  · rename_i first rest queue
    obtain ⟨rfl, rfl⟩ := Prod.mk.inj (Option.some.inj popped)
    have nodup := sound.nodup
    rw [queue] at nodup
    obtain ⟨out, unique⟩ := List.nodup_cons.1 nodup
    refine ⟨queue, keyed_leave sound.keyed, unique, fun t => ?_⟩
    rw [mem_leave sound.keyed, ← sound.same, queue, List.mem_cons]
    constructor
    · intro member
      refine ⟨Or.inr member, ?_⟩
      rintro rfl
      exact out member
    · exact fun both => both.1.resolve_left both.2

theorem queue_eq_nil (popped : frontier.pop? = none) : frontier.queue = [] := by
  unfold pop? at popped
  split at popped
  · assumption
  · cases popped

theorem Sound.erase (sound : frontier.Sound) : (frontier.erase s).Sound ∧
    ∀ t, t ∈ (frontier.erase s).queue ↔ t ∈ frontier.queue ∧ t ≠ s := by
  unfold Frontier.erase
  split
  · have members : ∀ t, t ∈ frontier.queue.filter (· ≠ s) ↔ t ∈ frontier.queue ∧ t ≠ s :=
      fun t => by simp
    refine ⟨⟨keyed_leave sound.keyed, sound.nodup.filter _, fun t => ?_⟩, members⟩
    exact (members t).trans
      ((and_congr_left fun _ => sound.same t).trans (mem_leave sound.keyed).symm)
  · rename_i absent
    have out : s ∉ frontier.queue := fun member => absent (sound.contains_iff.2 member)
    refine ⟨sound, fun t => (and_iff_left_of_imp fun member => ?_).symm⟩
    rintro rfl
    exact out member

theorem Sound.replace (sound : frontier.Sound) (inside : frontier.contains old = true) :
    (frontier.replace old new).Sound ∧ (new ≠ old → ∀ t, t ∈ (frontier.replace old new).queue ↔
      t = new ∨ t ∈ frontier.queue ∧ t ≠ old) := by
  have waits := sound.contains_iff.1 inside
  unfold Frontier.replace
  rw [if_neg (by simp [inside])]
  split
  · rename_i present
    have here := sound.contains_iff.1 present
    refine ⟨sound.erase.1, fun other t => (sound.erase.2 t).trans ⟨Or.inr, ?_⟩⟩
    rintro (rfl | both)
    · exact ⟨here, other⟩
    · exact both
  · rename_i absent
    have out : new ∉ frontier.queue := fun member => absent (sound.contains_iff.2 member)
    obtain ⟨nodup, members⟩ := mem_replace sound.nodup waits out
    have fresh : new ∉ (leave frontier.index (key old) old).group (key new) := fun member =>
      out ((sound.same new).2 ((mem_leave sound.keyed).1 member).1)
    refine ⟨⟨keyed_enter (keyed_leave sound.keyed) fresh, nodup, fun t => ?_⟩, fun _ => members⟩
    rw [members t, sound.same t]
    exact (or_congr_right (mem_leave sound.keyed).symm).trans mem_enter.symm

end Frontier

/-! ### Both -/

namespace SearchSets

variable [DecidableEq σ] {sets : SearchSets key} {s t old merged : σ}

/-- Both sets are as they should be. -/
structure Sound (sets : SearchSets key) : Prop where
  reached : sets.reached.groups.Keyed key
  frontier : sets.frontier.Sound

omit [DecidableEq σ] in
theorem sound_empty : (({} : SearchSets key)).Sound :=
  ⟨Groups.keyed_empty, Frontier.sound_empty⟩

theorem Sound.insert (sound : sets.Sound) : (sets.insert s).Sound ∧
    (∀ t, t ∈ (sets.insert s).reached.toList ↔ t = s ∨ t ∈ sets.reached.toList) ∧
    ∀ t, t ∈ (sets.insert s).frontier.queue ↔ t = s ∨ t ∈ sets.frontier.queue :=
  ⟨⟨Reached.keyed_insert sound.reached, sound.frontier.insert.1⟩,
    fun _ => Reached.mem_insert sound.reached, sound.frontier.insert.2⟩

theorem Sound.insertAll (sound : sets.Sound) (states : List σ) :
    (states.foldl SearchSets.insert sets).Sound ∧
    (∀ t, t ∈ (states.foldl SearchSets.insert sets).reached.toList ↔
      t ∈ states ∨ t ∈ sets.reached.toList) ∧
    ∀ t, t ∈ (states.foldl SearchSets.insert sets).frontier.queue ↔
      t ∈ states ∨ t ∈ sets.frontier.queue := by
  induction states generalizing sets with
  | nil => simp [sound]
  | cons s rest ih =>
    obtain ⟨inserted, reached, waiting⟩ := sound.insert (s := s)
    obtain ⟨all, reachedAll, waitingAll⟩ := ih inserted
    refine ⟨all, fun t => (reachedAll t).trans ?_, fun t => (waitingAll t).trans ?_⟩
    · rw [reached, List.mem_cons, or_left_comm, or_assoc]
    · rw [waiting, List.mem_cons, or_left_comm, or_assoc]

/-- A search starts with its initial states reached and waiting. -/
theorem sound_start (states : List σ) :
    (states.foldl SearchSets.insert ({} : SearchSets key)).Sound ∧
    (∀ s, s ∈ (states.foldl SearchSets.insert ({} : SearchSets key)).reached.toList ↔ s ∈ states) ∧
    ∀ s, s ∈ (states.foldl SearchSets.insert ({} : SearchSets key)).frontier.queue ↔ s ∈ states := by
  obtain ⟨sound, reached, waiting⟩ := (sound_empty : ({} : SearchSets key).Sound).insertAll states
  exact ⟨sound, fun s => (reached s).trans (or_iff_left nofun),
    fun s => (waiting s).trans (or_iff_left nofun)⟩

/-- A merge takes the place of the old state, and waits. -/
theorem Sound.substitute (sound : sets.Sound) (changed : merged ≠ old) :
    (sets.substitute old merged).Sound ∧
    (∀ t, t ∈ (sets.substitute old merged).reached.toList ↔
      t = merged ∨ t ∈ sets.reached.toList ∧ t ≠ old) ∧
    ∀ t, t ∈ (sets.substitute old merged).frontier.queue ↔
      t = merged ∨ t ∈ sets.frontier.queue ∧ t ≠ old := by
  have keyed := Reached.keyed_erase (s := old) sound.reached
  have waiting : (sets.substitute old merged).frontier.Sound ∧
      ∀ t, t ∈ (sets.substitute old merged).frontier.queue ↔
        t = merged ∨ t ∈ sets.frontier.queue ∧ t ≠ old := by
    unfold SearchSets.substitute
    dsimp only
    split
    · rename_i inside
      obtain ⟨replaced, members⟩ := sound.frontier.replace inside
      exact ⟨replaced, members changed⟩
    · rename_i absent
      have out : old ∉ sets.frontier.queue := fun member =>
        absent (sound.frontier.contains_iff.2 member)
      obtain ⟨inserted, members⟩ := sound.frontier.insert (s := merged)
      refine ⟨inserted, fun t => (members t).trans (or_congr_right ?_)⟩
      refine (and_iff_left_of_imp fun member => ?_).symm
      rintro rfl
      exact out member
  refine ⟨⟨Reached.keyed_insert keyed, waiting.1⟩, fun t => ?_, waiting.2⟩
  exact (Reached.mem_insert keyed).trans (or_congr_right (Reached.mem_erase sound.reached))

end SearchSets

end EventCheck
