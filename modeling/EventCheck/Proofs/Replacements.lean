import EventCheck.Proofs.Data
import EventCheck.Proofs.Queues
import EventCheck.Proofs.Search

/-!
What merging a new state into the reached ones comes to. All merges are computed before the first
of them takes the place of a reached state, so nothing has changed where one of them fails. After
them nothing is lost: what was reached or waited is below something that is reached or waits.
-/

namespace EventCheck

namespace Analysis

variable {σ : Type} [DecidableEq σ] {a : Analysis σ} {s old merged : σ} {states : List σ}
variable {changed : List (σ × σ)} {sets current next : SearchSets a.partitionKey}
variable {before after : Context}

/-! ### Replacements -/

/-- Each replacement is one of a given state by a merge that differs from it. -/
theorem replaces_of_yields (given : (a.replacements s states).Yields before changed after) :
    ∀ entry ∈ changed, entry.1 ∈ states ∧ a.Replaces s entry.1 entry.2 := by
  induction states generalizing before after changed with
  | nil =>
    obtain ⟨rfl, rfl⟩ := Run.yields_pure.1 given
    simp
  | cons r rest ih =>
    unfold replacements at given
    obtain ⟨wanted, _, asked, given⟩ := Run.yields_bind.1 given
    obtain ⟨answer, rfl⟩ := Run.yields_ofExcept.1 asked
    have deeper : ∀ {others : List (σ × σ)} {c d : Context},
        (a.replacements s rest).Yields c others d → ∀ entry ∈ others,
          entry.1 ∈ r :: rest ∧ a.Replaces s entry.1 entry.2 := fun more entry member =>
      (ih more entry member).imp_left (List.mem_cons_of_mem r)
    cases wanted with
    | false => exact deeper given
    | true =>
      simp only [if_true] at given
      obtain ⟨merged, middle, first, given⟩ := Run.yields_bind.1 given
      obtain ⟨others, _, more, built⟩ := Run.yields_bind.1 given
      obtain ⟨rfl, rfl⟩ := Run.yields_pure.1 built
      split
      · exact deeper more
      · rename_i differs
        refine List.forall_mem_cons.2 ⟨⟨List.mem_cons_self, answer, ?_, differs⟩, deeper more⟩
        exact ⟨_, middle, first⟩

/-- The replacements one after the other. -/
def substituteAll (changed : List (σ × σ)) (sets : SearchSets a.partitionKey) :
    SearchSets a.partitionKey :=
  changed.foldl (fun sets (old, merged) => sets.substitute old merged) sets

theorem yields_mergeInto : (a.mergeInto s sets).Yields before next after ↔
    ∃ changed, (a.replacements s (sets.reached.partitionOf s)).Yields before changed after ∧
      next = substituteAll changed sets := by
  unfold mergeInto
  rw [Run.yields_bind]
  constructor
  · rintro ⟨changed, _, replaced, built⟩
    obtain ⟨rfl, rfl⟩ := Run.yields_pure.1 built
    exact ⟨changed, replaced, rfl⟩
  · rintro ⟨changed, replaced, rfl⟩
    exact ⟨changed, after, replaced, Run.yields_pure.2 ⟨rfl, rfl⟩⟩

end Analysis

/-! ### Sets that change in place -/

/-- A computation that changes the sets of a search in place. What it has changed before it fails
stays changed. -/
abbrev SetsRun {σ : Type} (key : σ → PartitionKey) :=
  ExceptT Error (StateM (SearchSets key × Context))

namespace SetsRun

variable {σ α β : Type} {key : σ → PartitionKey}

/-- The outcome of the computation, the sets and the context that it ends with. -/
def outcome (x : SetsRun key α) (sets : SearchSets key) (before : Context) :
    Except Error α × SearchSets key × Context := x.run.run (sets, before)

/-- A computation that only reads the sets. -/
def reading (x : SearchSets key → Run α) : SetsRun key α :=
  .mk fun (sets, before) =>
    let (result, after) := (x sets).outcome before
    (result, sets, after)

/-- Changes the sets. -/
def change (f : SearchSets key → α × SearchSets key) : SetsRun key α :=
  .mk fun (sets, context) =>
    let (answer, next) := f sets
    (.ok answer, next, context)

variable {sets : SearchSets key} {before : Context}

theorem outcome_bind {x : SetsRun key α} {f : α → SetsRun key β} :
    (x >>= f).outcome sets before =
      match x.outcome sets before with
      | (.ok a, next, middle) => (f a).outcome next middle
      | (.error error, next, middle) => (.error error, next, middle) := by
  refine (InPlace.outcome_bind (x := x) (f := f)).trans ?_
  unfold InPlace.outcome outcome
  rcases x.run.run (sets, before) with ⟨_ | _, _, _⟩ <;> rfl

theorem outcome_change {f : SearchSets key → α × SearchSets key} :
    (change f).outcome sets before = (.ok (f sets).1, (f sets).2, before) := rfl

theorem outcome_reading {x : SearchSets key → Run α} : (reading x).outcome sets before =
    (((x sets).outcome before).1, sets, ((x sets).outcome before).2) := rfl

end SetsRun

namespace Analysis

variable {σ : Type} [DecidableEq σ] {a : Analysis σ} {s old merged : σ}
variable {changed : List (σ × σ)} {sets next : SearchSets a.partitionKey} {before : Context}

/-- Puts merges in the place of reached states, set by set. -/
def putInPlace {key : σ → PartitionKey} : List (σ × σ) → SetsRun key Unit
  | [] => pure ()
  | (old, merged) :: rest => do
    SetsRun.change fun sets => ((), { sets with reached := sets.reached.erase old })
    let waited ← SetsRun.change fun sets =>
      (sets.frontier.replaces old merged,
        { sets with frontier := sets.frontier.replace old merged })
    unless waited do
      SetsRun.change fun sets => ((), { sets with frontier := sets.frontier.insert merged })
    SetsRun.change fun sets => ((), { sets with reached := sets.reached.insert merged })
    putInPlace rest

/-- Merges a new state into the reached states of its partition, which change in place. -/
def mergeInPlace (a : Analysis σ) (s : σ) : SetsRun a.partitionKey Unit := do
  let changed ← SetsRun.reading fun sets => a.replacements s (sets.reached.partitionOf s)
  putInPlace changed

/-- One replacement, set by set, is the substitution. -/
theorem outcome_putInPlace_cons {rest : List (σ × σ)} (sound : sets.Sound) :
    (putInPlace ((old, merged) :: rest)).outcome sets before =
      (putInPlace rest).outcome (sets.substitute old merged) before := by
  have answer : sets.frontier.replaces old merged = sets.frontier.contains old :=
    Bool.eq_iff_iff.2 (sound.frontier.replaces_iff.trans sound.frontier.contains_iff.symm)
  have absent : sets.frontier.contains old = false →
      sets.frontier.replace old merged = sets.frontier := fun absent => by
    rw [Frontier.replace, absent]
    rfl
  unfold SearchSets.substitute
  cases waited : sets.frontier.contains old with
  | true =>
    simp only [putInPlace, SetsRun.outcome_bind, SetsRun.outcome_change, answer, waited]
    rfl
  | false =>
    simp only [putInPlace, SetsRun.outcome_bind, SetsRun.outcome_change, answer, waited,
      absent waited]
    rfl

theorem outcome_putInPlace (sound : sets.Sound)
    (differ : ∀ entry ∈ changed, entry.2 ≠ entry.1) :
    (putInPlace changed).outcome sets before = (.ok (), substituteAll changed sets, before) := by
  induction changed generalizing sets with
  | nil => rfl
  | cons entry rest ih =>
    obtain ⟨first, later⟩ := List.forall_mem_cons.1 differ
    rw [outcome_putInPlace_cons sound, ih (sound.substitute first).1 later]
    rfl

/-- In place the merges come to the same sets, and where one fails the sets stay as they were. -/
theorem outcome_mergeInPlace (sound : sets.Sound) : (a.mergeInPlace s).outcome sets before =
    match (a.mergeInto s sets).outcome before with
    | (.ok next, after) => (.ok (), next, after)
    | (.error error, after) => (.error error, sets, after) := by
  unfold mergeInPlace mergeInto
  rw [SetsRun.outcome_bind, SetsRun.outcome_reading, Run.outcome_bind]
  cases found : (a.replacements s (sets.reached.partitionOf s)).outcome before with
  | mk result after =>
    cases result with
    | error error => rfl
    | ok changed =>
      have differ := fun entry member => (replaces_of_yields found entry member).2.changed
      exact outcome_putInPlace sound differ

end Analysis

/-! ### What is kept -/

section Lists

variable {σ : Type} [DecidableEq σ] {p : σ → Bool} {old new : σ}

theorem filter_erase_of_not (out : p old = false) (states : List σ) :
    (states.erase old).filter p = states.filter p := by
  induction states with
  | nil => rfl
  | cons first rest ih =>
    rw [List.erase_cons]
    split
    · rename_i here
      rw [beq_iff_eq.1 here, List.filter_cons_of_neg (by simp [out])]
    · rw [List.filter_cons, List.filter_cons, ih]

theorem sublist_filter_replace (out : p old = false) (states : List σ) :
    (states.filter p).Sublist ((states.replace old new).filter p) := by
  induction states with
  | nil => exact .slnil
  | cons first rest ih =>
    rw [List.replace_cons]
    split
    · rename_i here
      rw [← beq_iff_eq.1 here, List.filter_cons_of_neg (by simp [out]), List.filter_cons]
      split
      · exact List.sublist_cons_self _ _
      · exact .refl _
    · rw [List.filter_cons, List.filter_cons]
      split
      · exact ih.cons_cons _
      · exact ih

theorem filter_replace_of_not (out : p old = false) (other : p new = false) (states : List σ) :
    (states.replace old new).filter p = states.filter p := by
  induction states with
  | nil => rfl
  | cons first rest ih =>
    rw [List.replace_cons]
    split
    · rename_i here
      rw [← beq_iff_eq.1 here, List.filter_cons_of_neg (by simp [other]),
        List.filter_cons_of_neg (by simp [out])]
    · rw [List.filter_cons, List.filter_cons, ih]

theorem sublist_filter_append (states : List σ) :
    (states.filter p).Sublist ((FrontierRequest.append states new).filter p) := by
  unfold FrontierRequest.append
  split
  · exact .refl _
  · rw [List.filter_append]
    exact List.sublist_append_left _ _

theorem filter_append_of_not (other : p new = false) (states : List σ) :
    (FrontierRequest.append states new).filter p = states.filter p := by
  unfold FrontierRequest.append
  split
  · rfl
  · rw [List.filter_append, List.filter_cons_of_neg (by simp [other]), List.filter_nil,
      List.append_nil]

end Lists

namespace Reached

variable {σ : Type} [DecidableEq σ] {key : σ → PartitionKey} {reached : Reached key} {s : σ}
variable {k : PartitionKey}

theorem group_erase_of_ne (other : key s ≠ k) :
    (reached.erase s).groups.group k = reached.groups.group k := by
  unfold erase
  split
  · rw [Groups.group_setGroup, if_neg (Ne.symm other)]
  · rfl

theorem group_insert_of_ne (other : key s ≠ k) :
    (reached.insert s).groups.group k = reached.groups.group k := by
  unfold insert
  split
  · rfl
  · rw [Groups.group_setGroup, if_neg (Ne.symm other)]

theorem prefix_group_insert : reached.groups.group k <+: (reached.insert s).groups.group k := by
  by_cases same : key s = k
  · subst same
    unfold insert
    split
    · exact List.prefix_rfl
    · rw [Groups.group_setGroup, if_pos rfl]
      exact List.prefix_append _ _
  · exact (group_insert_of_ne same).symm ▸ List.prefix_rfl

end Reached

namespace SearchSets

variable {σ : Type} [DecidableEq σ] {key : σ → PartitionKey} {s old merged : σ}
variable {le : σ → σ → Prop} {k : PartitionKey} {sets current next : SearchSets key}

/-- A merge takes the place of the old state in the queue, unless it waits already. -/
theorem Sound.queue_substitute (sound : sets.Sound) :
    (sets.substitute old merged).frontier.queue =
      if old ∈ sets.frontier.queue then
        if merged ∈ sets.frontier.queue then sets.frontier.queue.erase old
        else sets.frontier.queue.replace old merged
      else FrontierRequest.append sets.frontier.queue merged := by
  unfold SearchSets.substitute
  by_cases waits : old ∈ sets.frontier.queue
  · rw [if_pos (sound.frontier.contains_iff.2 waits), if_pos waits, sound.frontier.queue_replace]
  · rw [if_neg fun inside => waits (sound.frontier.contains_iff.1 inside), if_neg waits,
      sound.frontier.queue_insert]

/-- Nothing of the first sets is lost in the second ones. -/
structure Retains (le : σ → σ → Prop) (sets next : SearchSets key) : Prop where
  sound : next.Sound
  reached : ∀ t ∈ sets.reached.toList, ∃ u ∈ next.reached.toList, le t u
  waiting : ∀ t ∈ sets.frontier.queue, ∃ u ∈ next.frontier.queue, le t u
  known : ∀ t ∈ next.frontier.queue, t ∈ next.reached.toList
  fresh : ∀ t ∈ next.reached.toList, t ∉ sets.reached.toList → t ∈ next.frontier.queue

omit [DecidableEq σ] in
theorem Retains.refl (refl : ∀ t, le t t) (sound : sets.Sound)
    (known : ∀ t ∈ sets.frontier.queue, t ∈ sets.reached.toList) : Retains le sets sets :=
  ⟨sound, fun t member => ⟨t, member, refl t⟩, fun t member => ⟨t, member, refl t⟩, known,
    fun _ member absent => absurd member absent⟩

/-- What is below the state that gives way is below the merge. -/
theorem Retains.substitute (trans : ∀ r t u, le r t → le t u → le r u)
    (retains : Retains le sets current) (above : le old merged) (changed : merged ≠ old) :
    Retains le sets (current.substitute old merged) := by
  obtain ⟨sound, reached, waiting⟩ := retains.sound.substitute changed
  have still : ∀ {t u : σ} {states next : List σ},
      (∀ v, v ∈ next ↔ v = merged ∨ v ∈ states ∧ v ≠ old) → u ∈ states → le t u →
        ∃ v ∈ next, le t v := by
    intro t u states next members member below
    by_cases gone : u = old
    · exact ⟨merged, (members merged).2 (Or.inl rfl), trans t old merged (gone ▸ below) above⟩
    · exact ⟨u, (members u).2 (Or.inr ⟨member, gone⟩), below⟩
  refine ⟨sound, fun t member => ?_, fun t member => ?_, fun t member => ?_,
    fun t member absent => ?_⟩
  · obtain ⟨u, inside, below⟩ := retains.reached t member
    exact still reached inside below
  · obtain ⟨u, inside, below⟩ := retains.waiting t member
    exact still waiting inside below
  · exact (reached t).2 (((waiting t).1 member).imp_right (And.imp_left (retains.known t)))
  · rcases (reached t).1 member with merge | ⟨member, different⟩
    · exact (waiting t).2 (Or.inl merge)
    · exact (waiting t).2 (Or.inr ⟨retains.fresh t member absent, different⟩)

/-- The states with the key stay at their places, and others join them only if these may come. -/
structure Untouched (comes : σ → Prop) (k : PartitionKey) (sets next : SearchSets key) :
    Prop where
  reached : sets.reached.groups.group k <+: next.reached.groups.group k
  waiting : (sets.frontier.queue.filter (key · = k)).Sublist
    (next.frontier.queue.filter (key · = k))
  same : (∀ t, comes t → key t ≠ k) →
    next.reached.groups.group k = sets.reached.groups.group k ∧
      next.frontier.queue.filter (key · = k) = sets.frontier.queue.filter (key · = k)

omit [DecidableEq σ] in
theorem Untouched.refl (comes : σ → Prop) (k : PartitionKey) (sets : SearchSets key) :
    sets.Untouched comes k sets :=
  ⟨List.prefix_rfl, .refl _, fun _ => ⟨rfl, rfl⟩⟩

/-- A state of another partition gives way to one that may come. -/
theorem Untouched.substitute {comes : σ → Prop} (untouched : sets.Untouched comes k current)
    (sound : current.Sound) (other : key old ≠ k) (may : comes merged) :
    sets.Untouched comes k (current.substitute old merged) := by
  let here : σ → Bool := (key · = k)
  have out : here old = false := decide_eq_false other
  refine ⟨untouched.reached.trans ?_, untouched.waiting.trans ?_, fun never => ?_⟩
  · have kept : (current.reached.erase old).groups.group k = current.reached.groups.group k :=
      Reached.group_erase_of_ne other
    rw [← kept]
    exact Reached.prefix_group_insert
  · rw [sound.queue_substitute]
    change ((current.frontier.queue.filter here).Sublist _)
    split_ifs
    · exact (filter_erase_of_not out _).symm ▸ .refl _
    · exact sublist_filter_replace out _
    · exact sublist_filter_append _
  · have away : here merged = false := decide_eq_false (never merged may)
    obtain ⟨reached, waiting⟩ := untouched.same never
    refine ⟨?_, ?_⟩
    · exact (Reached.group_insert_of_ne (never merged may)).trans
        ((Reached.group_erase_of_ne other).trans reached)
    · rw [sound.queue_substitute, ← waiting]
      change List.filter here _ = List.filter here _
      split_ifs
      · exact filter_erase_of_not out _
      · exact filter_replace_of_not out away _
      · exact filter_append_of_not away _

end SearchSets

namespace Analysis

variable {σ : Type} [DecidableEq σ] {a : Analysis σ} {s : σ} {changed : List (σ × σ)}
variable {sets : SearchSets a.partitionKey}

/-- What each replacement keeps all of them keep. -/
theorem substituteAll_induction (kept : SearchSets a.partitionKey → Prop) (start : kept sets)
    (step : ∀ current, ∀ entry ∈ changed, kept current →
      kept (current.substitute entry.1 entry.2)) :
    kept (substituteAll changed sets) := by
  unfold substituteAll
  exact List.foldlRecOn changed _ start fun current holds entry member =>
    step current entry member holds

/-- Merging a new state into the reached ones loses nothing. If merges are above the reached states
that they take the place of and all waiting states are reached, then afterwards as well all waiting
states are reached, whatever was reached is below something reached, whatever waited is below
something that waits, and whatever is newly reached waits. States of other partitions stay where
they are. If a merge fails, both sets are as before. -/
theorem mergeInPlace_retains (le : σ → σ → Prop) (refl : ∀ t, le t t)
    (trans : ∀ r t u, le r t → le t u → le r u)
    (above : ∀ s r m before after, a.shouldMerge s r = .ok true →
      (a.merge s r).Yields before m after → le r m)
    (sound : sets.Sound) (known : ∀ t ∈ sets.frontier.queue, t ∈ sets.reached.toList)
    (s : σ) (before : Context) :
    match (a.mergeInPlace s).outcome sets before with
    | (.ok (), next, after) =>
      (a.mergeInto s sets).Yields before next after ∧ sets.Retains le next ∧
        ∀ k, k ≠ a.partitionKey s →
          sets.Untouched (fun merged => ∃ old, a.Replaces s old merged) k next
    | (.error error, next, after) =>
      (a.mergeInto s sets).outcome before = (.error error, after) ∧ next = sets := by
  rw [outcome_mergeInPlace sound]
  cases found : (a.mergeInto s sets).outcome before with
  | mk result after =>
    cases result with
    | error error => exact ⟨rfl, rfl⟩
    | ok next =>
      refine ⟨found, ?_⟩
      obtain ⟨changed, replaced, rfl⟩ := yields_mergeInto.1 found
      have each := replaces_of_yields replaced
      have retains : sets.Retains le (substituteAll changed sets) := by
        refine substituteAll_induction _ (.refl refl sound known) ?_
        intro current entry member retains
        obtain ⟨_, wanted, ⟨c, d, merged⟩, differs⟩ := each entry member
        exact retains.substitute trans (above s _ _ c d wanted merged) differs
      refine ⟨retains, fun k other => ?_⟩
      have untouched : (substituteAll changed sets).Sound ∧
          sets.Untouched (fun merged => ∃ old, a.Replaces s old merged) k
            (substituteAll changed sets) := by
        refine substituteAll_induction (fun next => next.Sound ∧ sets.Untouched _ k next)
          ⟨sound, .refl _ k sets⟩ fun current entry member holds => ?_
        obtain ⟨here, replaces⟩ := each entry member
        have same := sound.reached.same _ _ here
        exact ⟨(holds.1.substitute replaces.changed).1,
          holds.2.substitute holds.1 (fun equal => other (equal ▸ same)) ⟨_, replaces⟩⟩
      exact untouched.2

/-! ### Equations -/

section Equations

/-- Knows that a variable has the value. -/
def equation (n : Int) : ValueMap :=
  .values ((∅ : Model).insert { name := "x", dataType := .int } (.int n))

/-- Two equations are reached, and one of them waits. -/
def equations : SearchSets (knownValues .join).toAnalysis.partitionKey where
  reached := (∅ : Reached _).insertAll [equation 1, equation 2]
  frontier := (∅ : Frontier _).insert (equation 2)

theorem sound_equations : equations.Sound where
  reached := Reached.keyed_insert (s := equation 2)
    (Reached.keyed_insert (s := equation 1) Groups.keyed_empty)
  frontier := Frontier.sound_empty.insert.1

/-- A third equation has nothing in common with the two, and the map that knows nothing takes their
place. -/
theorem mergeInPlace_equations :
    let (result, next, _) :=
      ((knownValues .join).toAnalysis.mergeInPlace (equation 3)).outcome equations {}
    result.toOption = some () ∧ next.reached.toList = [.top] ∧ next.frontier.queue = [.top] ∧
      equations.Retains (fun m n => ∀ env, m.Describes env → n.Describes env) next := by
  have above : ∀ m n merged : ValueMap, ∀ before after,
      (Run.ofExcept (.ok (m.join n))).Yields before merged after →
        ∀ env, n.Describes env → merged.Describes env := by
    intro m n merged before after given env describes
    obtain rfl := Except.ok.inj (Run.yields_ofExcept.1 given).1
    exact ValueMap.join_describes (Or.inr describes)
  have retains := mergeInPlace_retains (a := (knownValues .join).toAnalysis)
    (fun m n => ∀ env, m.Describes env → n.Describes env) (fun _ _ => id)
    (fun _ _ _ first second env => second env ∘ first env)
    (fun _ _ _ _ _ _ merged => above _ _ _ _ _ merged) sound_equations (by decide +kernel)
    (equation 3) {}
  have result : (((knownValues .join).toAnalysis.mergeInPlace (equation 3)).outcome
      equations {}).1.toOption = some () := by decide +kernel
  have reached : (((knownValues .join).toAnalysis.mergeInPlace (equation 3)).outcome
      equations {}).2.1.reached.toList = [.top] := by decide +kernel
  have queue : (((knownValues .join).toAnalysis.mergeInPlace (equation 3)).outcome
      equations {}).2.1.frontier.queue = [.top] := by decide +kernel
  generalize ((knownValues .join).toAnalysis.mergeInPlace (equation 3)).outcome
    equations {} = found at retains result reached queue ⊢
  obtain ⟨_ | _, next, after⟩ := found
  · cases result
  · exact ⟨rfl, reached, queue, retains.2.1⟩

end Equations

end Analysis

end EventCheck
