import EventCheck.Proofs.Partitions

/-!
Searches that compare all states with each other. They keep the same states as searches that compare
within partitions, in one list, of which each partition is a part. Wherever states of other
partitions make no difference to an analysis, the sets change alike.
-/

namespace EventCheck

/-! ### Runs with one course -/

section Runs

variable {α β γ δ : Type}

/-- Both results are related, or both are the same error. -/
def Agree (related : α → β → Prop) (x : Except Error α) (y : Except Error β) : Prop :=
  (∃ a b, x = .ok a ∧ y = .ok b ∧ related a b) ∨ ∃ error, x = .error error ∧ y = .error error

/-- Both computations have related results or the same error, and leave the same context. -/
def Run.Matches (related : α → β → Prop) (x : Run α) (y : Run β) (before : Context) : Prop :=
  Agree related (x.outcome before).1 (y.outcome before).1 ∧
    (x.outcome before).2 = (y.outcome before).2

variable {related : α → β → Prop} {later : γ → δ → Prop} {before : Context}

theorem agree_refl (x : Except Error α) : Agree Eq x x := by
  cases x with
  | ok a => exact Or.inl ⟨a, a, rfl, rfl, rfl⟩
  | error error => exact Or.inr ⟨error, rfl, rfl⟩

theorem eq_of_agree {x y : Except Error α} (agree : Agree Eq x y) : x = y := by
  rcases agree with ⟨a, b, rfl, rfl, rfl⟩ | ⟨error, rfl, rfl⟩
  · rfl
  · rfl

theorem Agree.bind {x : Except Error α} {y : Except Error β} {f : α → Except Error γ}
    {g : β → Except Error δ} (first : Agree related x y)
    (next : ∀ a b, x = .ok a → related a b → Agree later (f a) (g b)) :
    Agree later (x >>= f) (y >>= g) := by
  rcases first with ⟨a, b, rfl, rfl, same⟩ | ⟨error, rfl, rfl⟩
  · exact next a b rfl same
  · exact Or.inr ⟨error, rfl, rfl⟩

namespace Run

theorem matches_pure {a : α} {b : β} (same : related a b) :
    Matches related (pure a : Run α) (pure b : Run β) before :=
  ⟨Or.inl ⟨a, b, rfl, rfl, same⟩, rfl⟩

theorem matches_refl (x : Run α) : Matches Eq x x before := ⟨agree_refl _, rfl⟩

theorem eq_of_matches {x y : Run α} (same : Matches Eq x y before) :
    x.outcome before = y.outcome before :=
  Prod.ext (eq_of_agree same.1) same.2

theorem matches_ofExcept {x : Except Error α} {y : Except Error β} (agree : Agree related x y) :
    Matches related (ofExcept x) (ofExcept y) before := by
  rcases agree with ⟨a, b, rfl, rfl, same⟩ | ⟨error, rfl, rfl⟩
  · exact matches_pure same
  · exact ⟨Or.inr ⟨error, rfl, rfl⟩, rfl⟩

theorem Matches.bind {x : Run α} {y : Run β} {f : α → Run γ} {g : β → Run δ}
    (first : Matches related x y before)
    (next : ∀ a b middle, x.Yields before a middle → related a b →
      Matches later (f a) (g b) middle) : Matches later (x >>= f) (y >>= g) before := by
  unfold Matches
  rw [outcome_bind, outcome_bind]
  obtain ⟨agree, contexts⟩ := first
  rcases left : x.outcome before with ⟨result, middle⟩
  rcases right : y.outcome before with ⟨other, last⟩
  rw [left, right] at agree contexts
  obtain rfl : middle = last := contexts
  rcases agree with ⟨a, b, rfl, rfl, same⟩ | ⟨error, rfl, rfl⟩
  · exact next a b middle left same
  · exact ⟨Or.inr ⟨error, rfl, rfl⟩, rfl⟩

end Run

end Runs

/-! ### Sets in one partition -/

variable {σ : Type} {key : σ → PartitionKey}

/-- The key of all states where every state is compared with every other one. -/
abbrev noKey : σ → PartitionKey := fun _ => []

/-- Each partition has its part of the list of all states, in their order. -/
structure Reached.Mirrors (reached : Reached key) (whole : Reached (noKey : σ → PartitionKey)) :
    Prop where
  keyed : reached.groups.Keyed key
  single : whole.groups.Keyed noKey
  groups : ∀ k, reached.groups.group k = (whole.groups.group []).filter (key · = k)

/-- The same states wait in the same order. -/
structure Frontier.Mirrors (frontier : Frontier key) (whole : Frontier (noKey : σ → PartitionKey)) :
    Prop where
  sound : frontier.Sound
  single : whole.Sound
  queue : frontier.queue = whole.queue

/-- The sets have the same states in the same order. -/
structure SearchSets.Mirrors (sets : SearchSets key)
    (whole : SearchSets (noKey : σ → PartitionKey)) : Prop where
  reached : sets.reached.Mirrors whole.reached
  frontier : sets.frontier.Mirrors whole.frontier

/-- Two searches under way that have the same states in the same order and know the same. -/
structure SearchState.Mirrors (search : SearchState key)
    (whole : SearchState (noKey : σ → PartitionKey)) : Prop where
  sets : search.toSearchSets.Mirrors whole.toSearchSets
  refinements : search.refinements = whole.refinements
  undecided : search.undecided = whole.undecided

/-- Two searches go on alike. -/
inductive SearchStep.Mirrors : SearchStep key → SearchStep (noKey : σ → PartitionKey) → Prop
  | next {search : SearchState key} {whole : SearchState (noKey : σ → PartitionKey)}
    (mirrors : search.Mirrors whole) : Mirrors (.next search) (.next whole)
  | restart {search : SearchState key} {whole : SearchState (noKey : σ → PartitionKey)}
    (mirrors : search.Mirrors whole) : Mirrors (.restart search) (.restart whole)
  | finished (outcome : SearchOutcome) : Mirrors (.finished outcome) (.finished outcome)

namespace Reached.Mirrors

variable {reached : Reached key} {whole : Reached (noKey : σ → PartitionKey)} {s : σ}

theorem empty : (∅ : Reached key).Mirrors ∅ :=
  ⟨Groups.keyed_empty, Groups.keyed_empty, fun _ => rfl⟩

theorem partitionOf (mirrors : reached.Mirrors whole) :
    reached.partitionOf s = (whole.partitionOf s).filter (key · = key s) :=
  mirrors.groups (key s)

theorem mem_whole (mirrors : reached.Mirrors whole) :
    s ∈ whole.toList ↔ s ∈ whole.groups.group [] :=
  Reached.mem_toList.trans mirrors.single.mem_iff

theorem mem_iff (mirrors : reached.Mirrors whole) : s ∈ reached.toList ↔ s ∈ whole.toList := by
  rw [mirrors.mem_whole, Reached.mem_toList, mirrors.keyed.mem_iff, mirrors.groups,
    List.mem_filter]
  exact and_iff_left (decide_eq_true rfl)

theorem perm (mirrors : reached.Mirrors whole) : reached.toList.Perm whole.toList :=
  (List.perm_ext_iff_of_nodup (Reached.nodup_toList mirrors.keyed)
    (Reached.nodup_toList mirrors.single)).2 fun _ => mirrors.mem_iff

theorem size (mirrors : reached.Mirrors whole) : reached.size = whole.size :=
  mirrors.perm.length_eq

/-- States of one partition are in the same order in both. -/
theorem filter_eq (mirrors : reached.Mirrors whole) {p : σ → Bool} {k : PartitionKey}
    (same : ∀ s ∈ reached.toList, p s = true → key s = k) :
    reached.toList.filter p = whole.toList.filter p := by
  have narrow : ∀ {states : List σ}, (∀ s ∈ states, p s = true → key s = k) →
      states.filter p = (states.filter (key · = k)).filter p := by
    intro states among
    rw [List.filter_filter]
    refine List.filter_congr fun s member => ?_
    cases holds : p s with
    | false => rfl
    | true => rw [decide_eq_true (among s member holds)]; rfl
  have all : whole.toList.filter (noKey · = []) = whole.groups.group [] :=
    Reached.filter_toList mirrors.single []
  rw [List.filter_eq_self.2 fun _ _ => decide_eq_true rfl] at all
  rw [narrow same, narrow fun s member => same s (mirrors.mem_iff.2 member),
    Reached.filter_toList mirrors.keyed, mirrors.groups, all]

variable [DecidableEq σ]

theorem contains (mirrors : reached.Mirrors whole) : reached.contains s = whole.contains s := by
  rw [Bool.eq_iff_iff, Reached.contains_iff, Reached.contains_iff, mirrors.groups, List.mem_filter]
  exact and_iff_left (decide_eq_true rfl)

theorem insert (mirrors : reached.Mirrors whole) : (reached.insert s).Mirrors (whole.insert s) := by
  refine ⟨Reached.keyed_insert mirrors.keyed, Reached.keyed_insert mirrors.single, fun k => ?_⟩
  unfold Reached.insert
  rw [← mirrors.contains]
  split
  · exact mirrors.groups k
  · simp only [Groups.group_setGroup, if_true, List.filter_append, Reached.partitionOf]
    split
    · rename_i same
      subst same
      rw [mirrors.groups]
      simp
    · rename_i other
      rw [mirrors.groups, List.filter_cons_of_neg (by simpa using Ne.symm other), List.filter_nil,
        List.append_nil]

theorem erase (mirrors : reached.Mirrors whole) : (reached.erase s).Mirrors (whole.erase s) := by
  refine ⟨Reached.keyed_erase mirrors.keyed, Reached.keyed_erase mirrors.single, fun k => ?_⟩
  unfold Reached.erase
  rw [← mirrors.contains]
  split
  · simp only [Groups.group_setGroup, if_true, Reached.partitionOf]
    split
    · rename_i same
      subst same
      rw [(mirrors.keyed.nodup _).erase_eq_filter, (mirrors.single.nodup _).erase_eq_filter,
        mirrors.groups, List.filter_filter, List.filter_filter]
      exact List.filter_congr fun t _ => Bool.and_comm _ _
    · rename_i other
      rw [mirrors.groups]
      exact (filter_erase_of_not (p := (key · = k)) (decide_eq_false (Ne.symm other)) _).symm
  · exact mirrors.groups k

end Reached.Mirrors

namespace Frontier.Mirrors

variable [DecidableEq σ] {frontier : Frontier key} {whole : Frontier (noKey : σ → PartitionKey)}
variable {s : σ}

theorem insert (mirrors : frontier.Mirrors whole) :
    (frontier.insert s).Mirrors (whole.insert s) := by
  refine ⟨mirrors.sound.insert.1, mirrors.single.insert.1, ?_⟩
  rw [mirrors.sound.queue_insert, mirrors.single.queue_insert, mirrors.queue]

/-- The same state is taken first. -/
theorem pop (mirrors : frontier.Mirrors whole) :
    frontier.pop? = none ∧ whole.pop? = none ∨ ∃ s next rest, frontier.pop? = some (s, next) ∧
      whole.pop? = some (s, rest) ∧ next.Mirrors rest := by
  obtain ⟨sound, single, same⟩ := mirrors
  cases left : frontier.pop? with
  | none =>
    have empty := queue_eq_nil left
    refine Or.inl ⟨rfl, ?_⟩
    unfold pop?
    rw [← same, empty]
  | some popped =>
    obtain ⟨s, next⟩ := popped
    obtain ⟨queue, after⟩ := sound.pop left
    refine Or.inr ?_
    cases right : whole.pop? with
    | none => cases (queue.symm.trans same).trans (queue_eq_nil right)
    | some taken =>
      obtain ⟨t, rest⟩ := taken
      obtain ⟨other, last⟩ := single.pop right
      obtain ⟨rfl, equal⟩ := List.cons.inj (queue.symm.trans (same.trans other))
      exact ⟨s, next, rest, rfl, rfl, after, last, equal⟩

end Frontier.Mirrors

namespace SearchSets.Mirrors

variable [DecidableEq σ] {sets : SearchSets key} {whole : SearchSets (noKey : σ → PartitionKey)}
variable {s old merged : σ}

omit [DecidableEq σ] in
theorem sound (mirrors : sets.Mirrors whole) : sets.Sound :=
  ⟨mirrors.reached.keyed, mirrors.frontier.sound⟩

omit [DecidableEq σ] in
theorem single (mirrors : sets.Mirrors whole) : whole.Sound :=
  ⟨mirrors.reached.single, mirrors.frontier.single⟩

theorem insert (mirrors : sets.Mirrors whole) : (sets.insert s).Mirrors (whole.insert s) :=
  ⟨mirrors.reached.insert, mirrors.frontier.insert⟩

/-- Searches begin alike. -/
theorem start (states : List σ) : (states.foldl SearchSets.insert ({} : SearchSets key)).Mirrors
    (states.foldl SearchSets.insert {}) := by
  have all : ∀ {sets : SearchSets key} {whole : SearchSets (noKey : σ → PartitionKey)},
      sets.Mirrors whole →
        (states.foldl SearchSets.insert sets).Mirrors (states.foldl SearchSets.insert whole) := by
    induction states with
    | nil => exact id
    | cons s rest ih => exact fun mirrors => ih mirrors.insert
  exact all ⟨.empty, ⟨Frontier.sound_empty, Frontier.sound_empty, rfl⟩⟩

theorem substitute (mirrors : sets.Mirrors whole) (changed : merged ≠ old) :
    (sets.substitute old merged).Mirrors (whole.substitute old merged) := by
  refine ⟨mirrors.reached.erase.insert, (mirrors.sound.substitute changed).1.frontier,
    (mirrors.single.substitute changed).1.frontier, ?_⟩
  rw [mirrors.sound.queue_substitute, mirrors.single.queue_substitute, mirrors.frontier.queue]

end SearchSets.Mirrors

namespace SearchState.Mirrors

variable {search : SearchState key} {whole : SearchState (noKey : σ → PartitionKey)}

/-- Searches that end now have the same outcome. -/
theorem finish (mirrors : search.Mirrors whole) (verdict : Verdict) :
    search.finish verdict = whole.finish verdict := by
  unfold SearchState.finish
  rw [mirrors.refinements, mirrors.sets.reached.size]

theorem exhausted (mirrors : search.Mirrors whole) : search.exhausted = whole.exhausted := by
  unfold SearchState.exhausted
  rw [mirrors.undecided, mirrors.finish]

end SearchState.Mirrors

end EventCheck
