import EventCheck.Proofs.Encounters
import EventCheck.Proofs.Restarts

/-!
Which states of a search have something to do with each other. States that were merged from a common
one have the same threads, and so have all states without predecessors; states of different
partitions share nothing.
-/

namespace EventCheck

/-- The states that are reached and those that may yet be admitted. -/
def Course.Present {σ : Type} {key : σ → PartitionKey} (m : Course key) (s : σ) : Prop :=
  s ∈ m.search.reached.toList ∨ s ∈ m.phase.coming

namespace Verification

variable {σ : Type} [DecidableEq σ] {setting : Setting σ} {s t u merged : State σ}
variable {before after first : Context} {states : List (State σ)} {n : Nat}
variable {among : State σ → Prop}

/-! ### The operations -/

/-- Before any merge a state is merged from itself only. -/
theorem alone_initial (given : setting.analysis.initial.Yields before states after) :
    ∀ s ∈ states, ∀ id ∈ s.inner.provenance.mergeOf, id = s.id := by
  obtain ⟨_, _, inner, _, numbered, _, rfl⟩ := numbered_initial given
  intro s member
  obtain ⟨p, inside, rfl⟩ := List.mem_map.1 member
  exact (numbered.exists_of_mem inside).2.2.1

theorem alone_successors
    (given : (setting.analysis.withStatistics.successors s).Yields before states after) :
    ∀ t ∈ states, ∀ id ∈ t.inner.provenance.mergeOf, id = t.id := by
  obtain ⟨_, given, _⟩ := yields_successors_withStatistics given
  rcases yields_successors given with ⟨_, rfl, _⟩ | ⟨_, _, _, inner, _, numbered, _, rfl⟩
  · nofun
  · intro t member
    obtain ⟨p, inside, rfl⟩ := List.mem_map.1 member
    exact (numbered.exists_of_mem inside).2.2.1

theorem threads_initial (given : setting.analysis.initial.Yields before states after)
    (left : s ∈ states) (right : t ∈ states) : s.threads = t.threads := by
  obtain ⟨_, _, first, _⟩ := yields_initial given left
  obtain ⟨_, _, second, _⟩ := yields_initial given right
  exact Except.ok.inj (first.symm.trans second)

theorem threads_widen {reached : List (State σ)}
    (given : (setting.analysis.withStatistics.widen s reached).Yields before t after) :
    t.threads = s.threads := by
  obtain ⟨_, given, _⟩ := yields_widen_withStatistics given
  rcases yields_widen given with ⟨_, rfl⟩ | ⟨_, _, _, _, _, _, _, same, _⟩
  · rfl
  · exact same

/-! ### States merged from a common one -/

/-- Of `n` numbers, states that were merged from one with the same number have the same threads. -/
structure Kindred (n : Nat) (among : State σ → Prop) : Prop where
  handed : ∀ s, among s → ∀ id ∈ s.inner.provenance.mergeOf, id < n
  threads : ∀ s t, among s → among t → ∀ id ∈ s.inner.provenance.mergeOf,
    id ∈ t.inner.provenance.mergeOf → s.threads = t.threads

omit [DecidableEq σ] in
/-- States may be left out, and changed in all that does not tell what they were merged from. -/
theorem Kindred.alike {m : Nat} {next : State σ → Prop} (kindred : Kindred n among) (grows : n ≤ m)
    (like : ∀ u, next u → ∃ s, among s ∧ s.inner.provenance.mergeOf = u.inner.provenance.mergeOf ∧
      s.threads = u.threads) : Kindred m next := by
  refine ⟨fun u there id inside => ?_, fun u v left right id first second => ?_⟩
  · obtain ⟨s, member, same, _⟩ := like u there
    exact Nat.lt_of_lt_of_le (kindred.handed s member id (same ▸ inside)) grows
  · obtain ⟨s, here, same, threads⟩ := like u left
    obtain ⟨t, there, equal, others⟩ := like v right
    rw [← threads, ← others]
    exact kindred.threads s t here there id (same ▸ first) (equal ▸ second)

omit [DecidableEq σ] in
/-- States may be added that have new numbers and were merged from nothing else. -/
theorem Kindred.follow {m : Nat} (kindred : Kindred n among) (grows : n ≤ m)
    (named : ∀ t ∈ states, t.id < m ∧ n ≤ t.id)
    (alone : ∀ t ∈ states, ∀ id ∈ t.inner.provenance.mergeOf, id = t.id)
    (distinct : ∀ t ∈ states, ∀ u ∈ states, t.id = u.id → t = u) :
    Kindred m (fun s => among s ∨ s ∈ states) := by
  refine ⟨fun s there id inside => ?_, fun s t left right id first second => ?_⟩
  · rcases there with old | fresh
    · exact Nat.lt_of_lt_of_le (kindred.handed s old id inside) grows
    · exact alone s fresh id inside ▸ (named s fresh).1
  · rcases left with left | left <;> rcases right with right | right
    · exact kindred.threads s t left right id first second
    · have below := kindred.handed s left id first
      have above := alone t right id second ▸ (named t right).2
      omega
    · have below := kindred.handed t right id second
      have above := alone s left id first ▸ (named s left).2
      omega
    · rw [distinct s left t right ((alone s left id first).symm.trans (alone t right id second))]

omit [DecidableEq σ] in
/-- A merge of states with the same threads may be added. -/
theorem Kindred.merge (kindred : Kindred n among) (left : among s) (right : among t)
    (same : s.threads = t.threads) (threads : merged.threads = t.threads)
    (mergeOf : merged.inner.provenance.mergeOf =
      (s.inner.provenance.mergeOf ∪ t.inner.provenance.mergeOf).insert n) :
    Kindred (n + 1) (fun u => u = merged ∨ among u) := by
  have from_either : ∀ id ∈ merged.inner.provenance.mergeOf, id = n ∨
      id ∈ s.inner.provenance.mergeOf ∨ id ∈ t.inner.provenance.mergeOf := by
    intro id inside
    rw [mergeOf] at inside
    exact (SortedSet.mem_insert.1 inside).imp_right SortedSet.mem_union.1
  have shared : ∀ u, among u → ∀ id ∈ merged.inner.provenance.mergeOf,
      id ∈ u.inner.provenance.mergeOf → merged.threads = u.threads := by
    intro u member id first second
    rcases from_either id first with rfl | inside | inside
    · exact absurd (kindred.handed u member id second) (Nat.lt_irrefl id)
    · exact threads.trans (same.symm.trans (kindred.threads s u left member id inside second))
    · exact threads.trans (kindred.threads t u right member id inside second)
  refine ⟨fun u there id inside => ?_, fun u v one other id first second => ?_⟩
  · rcases there with rfl | old
    · rcases from_either id inside with rfl | inside | inside
      · exact Nat.lt_succ_self id
      · exact Nat.lt_succ_of_lt (kindred.handed s left id inside)
      · exact Nat.lt_succ_of_lt (kindred.handed t right id inside)
    · exact Nat.lt_succ_of_lt (kindred.handed u old id inside)
  · rcases one with rfl | one <;> rcases other with rfl | other
    · rfl
    · exact shared v other id first second
    · exact (shared u one id second first).symm
    · exact kindred.threads u v one other id first second

/-! ### Along a search -/

variable {limits : SearchLimits}

variable {m next : Course setting.analysis.withStatistics.partitionKey}

/-- Merging into the reached states makes kin of what has the same threads only. -/
theorem Kindred.mergeInto {w : State σ} {rest : List (State σ)}
    {sets later : SearchSets setting.analysis.withStatistics.partitionKey} (sound : sets.Sound)
    (kindred : Kindred before.states fun s => s ∈ sets.reached.toList ∨ s ∈ w :: rest)
    (given : (setting.analysis.withStatistics.mergeInto w sets).Yields before later after) :
    Kindred after.states fun s => s ∈ later.reached.toList ∨ s ∈ w :: rest := by
  -- The states that the merges are of are those of the sets from before.
  have merges := Analysis.mergeInto_rule (a := setting.analysis.withStatistics)
    (fun context current => current.Sound ∧ Kindred context.states fun s =>
      s ∈ current.reached.toList ∨ s ∈ sets.reached.toList ∨ s ∈ w :: rest)
    given ⟨sound, kindred.alike (Nat.le_refl _) fun u there =>
      ⟨u, there.elim Or.inl id, rfl, rfl⟩⟩ ?_
  · exact merges.2.alike (Nat.le_refl _) fun u there => ⟨u, there.imp_right Or.inr, rfl, rfl⟩
  · rintro c d current old merged ⟨sound, kindred⟩ inside wanted merge
    obtain ⟨_, _, same, _⟩ := shouldMerge_eq_true wanted
    rcases provenance_merge wanted merge with ⟨rfl, count⟩ | ⟨count, provenance⟩
    · rw [if_pos rfl, count]
      exact ⟨sound, kindred⟩
    · obtain ⟨_, merge, _⟩ := yields_merge_withStatistics merge
      obtain ⟨threads, _⟩ := yields_merge wanted merge
      have more := kindred.merge (Or.inr (Or.inr List.mem_cons_self)) (Or.inr (Or.inl inside)) same
        threads (congrArg Provenance.mergeOf provenance)
      rw [← count] at more
      split
      · exact ⟨sound, more.alike (Nat.le_refl _) fun u there => ⟨u, Or.inr there, rfl, rfl⟩⟩
      · rename_i changed
        obtain ⟨substituted, members, _⟩ := sound.substitute changed
        refine ⟨substituted, more.alike (Nat.le_refl _) fun u there => ⟨u, ?_, rfl, rfl⟩⟩
        rcases there with member | there
        · exact ((members u).1 member).imp_right fun ⟨member, _⟩ => Or.inl member
        · exact Or.inr (Or.inr there)

theorem kindred_of_advances (placed : Placed before.states m)
    (kindred : Kindred before.states m.Present)
    (advances : setting.analysis.withStatistics.Advances setting.refiner limits before m after
      next) : Kindred after.states next.Present := by
  have sound := placed.origins.sound
  have admitted : ∀ {w : State σ} {rest : List (State σ)}, m.phase.coming = w :: rest →
      ∀ u, (u ∈ (m.search.reached.insert w).toList ∨ u ∈ rest) → m.Present u := by
    intro w rest coming u there
    unfold Course.Present
    rw [coming]
    rcases there with member | member
    · rcases (Reached.mem_insert sound.reached).1 member with rfl | member
      · exact Or.inr List.mem_cons_self
      · exact Or.inl member
    · exact Or.inr (List.mem_cons_of_mem w member)
  cases advances with
  | pop | finish =>
    exact kindred.alike (Nat.le_refl _) fun u there =>
      ⟨u, Or.inl (there.resolve_right nofun), rfl, rfl⟩
  | follow taken followed =>
    obtain ⟨grows, apart, named⟩ := named_successors followed
    have fresh := kindred.follow grows
      (fun t member => ⟨(named t member).1.handed, (named t member).2.1⟩) (alone_successors followed)
      fun t left u right => List.inj_on_of_nodup_map (List.pairwise_map.2 apart) left right
    exact fresh.alike (Nat.le_refl _) fun u there => ⟨u, there.imp_left Or.inl, rfl, rfl⟩
  | @merge _ _ _ successor _ _ _ expanding _ widened merged =>
    obtain ⟨same, count⟩ := provenance_widen widened
    refine Kindred.mergeInto sound
      (kindred.alike (Nat.le_of_eq count.symm) fun u there => ?_) merged
    unfold Course.Present
    rw [expanding]
    rcases there with member | member
    · exact ⟨u, Or.inl member, rfl, rfl⟩
    · rcases List.mem_cons.1 member with rfl | member
      · exact ⟨successor, Or.inr List.mem_cons_self, by rw [same], (threads_widen widened).symm⟩
      · exact ⟨u, Or.inr (List.mem_cons_of_mem successor member), rfl, rfl⟩
  | cover merged covered =>
    refine kindred.alike (Nat.le_of_eq (keepsStates_covered covered).symm) fun u there =>
      ⟨u, there.imp_right fun member => ?_, rfl, rfl⟩
    rw [merged]
    exact List.mem_cons_of_mem _ member
  | accept merged uncovered | violate merged uncovered =>
    refine kindred.alike (Nat.le_of_eq (keepsStates_covered uncovered).symm) fun u there =>
      ⟨u, admitted (by rw [merged]; rfl) u there, rfl, rfl⟩
  | doubt judging =>
    refine kindred.alike (Nat.le_refl _) fun u there =>
      ⟨u, there.imp_right fun member => ?_, rfl, rfl⟩
    rw [judging]
    exact member
  | refine judging check budget refined =>
    obtain ⟨_, found, _, _, again⟩ := exists_of_refine refined
    refine kindred.alike (Nat.le_refl _) fun u there => ?_
    obtain ⟨t, inside, _, rfl⟩ := again u (there.resolve_right nofun)
    exact ⟨t, Or.inl inside, rfl, rfl⟩

theorem kindred_of_comes
    (comes : setting.analysis.withStatistics.Comes setting.refiner limits first states after m) :
    Kindred after.states m.Present := by
  induction comes with
  | start given =>
    obtain ⟨_, members, _⟩ := @SearchSets.sound_start _
      setting.analysis.withStatistics.partitionKey _ states
    obtain ⟨_, named⟩ := named_initial given
    refine ⟨fun s there id inside => ?_, fun s t left right _ _ _ => ?_⟩
    · have member := (members s).1 (there.resolve_right nofun)
      exact alone_initial given s member id inside ▸ (named s member).1.handed
    · exact threads_initial given ((members s).1 (left.resolve_right nofun))
        ((members t).1 (right.resolve_right nofun))
  | step comes advances ih => exact kindred_of_advances (placed_of_comes comes) ih advances

/-! ### States without predecessors -/

theorem exists_initial_of_comes
    (comes : setting.analysis.withStatistics.Comes setting.refiner limits first states after m) :
    ∃ middle, setting.analysis.initial.Yields first states middle := by
  induction comes with
  | start given => exact ⟨_, given⟩
  | step _ _ ih => exact ih

/-- All reached states without predecessors have the threads that the task starts with. -/
theorem threads_of_isRoot
    (comes : setting.analysis.withStatistics.Comes setting.refiner limits first states after m)
    (left : s ∈ m.search.reached.toList) (right : t ∈ m.search.reached.toList) (root : s.IsRoot)
    (other : t.IsRoot) : s.threads = t.threads := by
  obtain ⟨_, began⟩ := exists_initial_of_comes comes
  have roots := roots_of_comes comes
  obtain ⟨_, begun, _, rfl⟩ := roots.initial s (roots.rooted s left root)
  obtain ⟨_, start, _, rfl⟩ := roots.initial t (roots.rooted t right other)
  have same := threads_initial began begun start
  exact same

end Verification

end EventCheck
