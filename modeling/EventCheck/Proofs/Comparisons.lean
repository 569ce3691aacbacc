import EventCheck.Proofs.Encounters
import EventCheck.Proofs.Kinship
import EventCheck.Proofs.Mirrors
import EventCheck.Proofs.Rearrangements

/-!
Searches that compare all reached states, operation by operation beside those that compare within
partitions. Both merge, cover and admit the same states, judge violations alike, fail alike and
leave the same context, so they come to the same outcome.
-/

namespace EventCheck

namespace Analysis

variable {σ : Type} [DecidableEq σ] {a : Analysis σ} {s : σ} {states : List σ} {before : Context}

/-- The analysis with all states in one partition. -/
abbrev comparingAll (a : Analysis σ) : Analysis σ := { a with partitionKey := noKey }

/-! ### Merges -/

theorem replacements_comparingAll :
    a.comparingAll.replacements s states = a.replacements s states := by
  induction states with
  | nil => rfl
  | cons r rest ih => simp only [replacements, ih]

/-- States that are not merged with the new one can be left out. -/
theorem replacements_filter {keep : σ → Bool}
    (apart : ∀ r, keep r = false → a.shouldMerge s r = .ok false) :
    a.replacements s (states.filter keep) = a.replacements s states := by
  induction states with
  | nil => rfl
  | cons r rest ih =>
    cases kept : keep r with
    | true =>
      rw [List.filter_cons_of_pos kept]
      simp only [replacements, ih]
    | false =>
      rw [List.filter_cons_of_neg (by simp [kept]), ih]
      simp only [replacements, apart r kept, Run.ofExcept, pure_bind, Bool.false_eq_true, if_false]

/-- Where only states of one partition are merged, all of them are merged alike. -/
theorem matches_mergeInto {sets : SearchSets a.partitionKey} {whole : SearchSets (noKey : σ → _)}
    (mirrors : sets.Mirrors whole)
    (apart : ∀ r, a.partitionKey r ≠ a.partitionKey s → a.shouldMerge s r = .ok false) :
    Run.Matches SearchSets.Mirrors (a.mergeInto s sets) (a.comparingAll.mergeInto s whole)
      before := by
  have same : a.comparingAll.replacements s (whole.reached.partitionOf s) =
      a.replacements s (sets.reached.partitionOf s) := by
    rw [replacements_comparingAll, mirrors.reached.partitionOf]
    exact (replacements_filter fun r other => apart r (of_decide_eq_false other)).symm
  unfold mergeInto
  rw [same]
  refine (Run.matches_refl _).bind fun changed _ middle replaced equal => ?_
  subst equal
  refine Run.matches_pure ?_
  have differ : ∀ entry ∈ changed, entry.2 ≠ entry.1 := fun entry member =>
    (replaces_of_yields replaced entry member).2.changed
  clear replaced same
  induction changed generalizing sets whole with
  | nil => exact mirrors
  | cons entry rest ih =>
    obtain ⟨here, later⟩ := List.forall_mem_cons.1 differ
    exact ih (mirrors.substitute here) later

/-! ### Searches -/

section Searches

variable {refiner : Refiner a.partitionKey} {other : Refiner (noKey : σ → PartitionKey)}
variable {task : Task} {limits : SearchLimits} {first : Context} {initial rest : List σ}
variable {m : Course a.partitionKey} {whole : SearchState (noKey : σ → PartitionKey)}

/-- At every moment both searches do the same with a successor. -/
def ConsidersAlike (a : Analysis σ) (refiner : Refiner a.partitionKey)
    (other : Refiner (noKey : σ → PartitionKey)) (task : Task) (limits : SearchLimits)
    (first : Context) (initial : List σ) : Prop :=
  ∀ {m : Course a.partitionKey} {whole : SearchState (noKey : σ → PartitionKey)} {successor : σ}
    {rest : List σ} {before : Context}, a.Comes refiner limits first initial before m →
    m.phase = .expanding (successor :: rest) → m.search.Mirrors whole →
    Run.Matches SearchStep.Mirrors (a.consider refiner task limits m.search successor)
      (a.comparingAll.consider other task limits whole successor) before

theorem matches_considerAll (alike : a.ConsidersAlike refiner other task limits first initial)
    (comes : a.Comes refiner limits first initial before m) (expanding : m.phase = .expanding rest)
    (mirrors : m.search.Mirrors whole) :
    Run.Matches SearchStep.Mirrors (a.considerAll refiner task limits m.search rest)
      (a.comparingAll.considerAll other task limits whole rest) before := by
  induction rest generalizing m whole before with
  | nil => exact Run.matches_pure (.restart mirrors)
  | cons successor rest ih =>
    refine (alike comes expanding mirrors).bind fun step step' middle given related => ?_
    have next := comes_of_consider comes expanding given
    cases related with
    | next mirrors =>
      rcases next with ⟨_, none, _⟩ | ⟨later, comes, _, ⟨same, still⟩ | ⟨none, _⟩⟩
      · cases none
      · obtain rfl := SearchStep.next.inj same
        exact ih comes still mirrors
      · cases none
    | restart mirrors => exact Run.matches_pure (.restart mirrors)
    | finished outcome => exact Run.matches_pure (.finished outcome)

theorem matches_search {expansions : Nat}
    (alike : a.ConsidersAlike refiner other task limits first initial)
    (comes : a.Comes refiner limits first initial before m) (idle : m.phase = .idle)
    (mirrors : m.search.Mirrors whole) :
    Run.Matches Eq (a.search refiner task limits expansions m.search)
      (a.comparingAll.search other task limits expansions whole) before := by
  induction expansions generalizing m whole before with
  | zero =>
    unfold Analysis.search
    rcases mirrors.sets.frontier.pop with ⟨left, right⟩ | ⟨s, frontier, rest, left, right, _⟩
    · rw [left, right, mirrors.exhausted]
      exact Run.matches_refl _
    · rw [left, right]
      exact Run.matches_refl _
  | succ expansions ih =>
    unfold Analysis.search
    rcases mirrors.sets.frontier.pop with ⟨left, right⟩ | ⟨s, frontier, rest, left, right, popped⟩
    · rw [left, right, mirrors.exhausted]
      exact Run.matches_refl _
    · rw [left, right]
      refine (Run.matches_refl _).bind fun successors _ middle followed same => ?_
      subst same
      have comes := (comes.step (.pop idle left)).step (.follow rfl followed)
      have mirrors : SearchState.Mirrors { m.search with frontier }
          { whole with frontier := rest } :=
        { mirrors with sets := { mirrors.sets with frontier := popped } }
      refine (matches_considerAll alike comes rfl mirrors).bind
        fun step step' last given related => ?_
      have next := comes_of_considerAll comes rfl given
      cases related with
      | next mirrors => rcases next with ⟨_, none, _⟩ | ⟨_, _, _, _, none⟩ <;> cases none
      | restart mirrors =>
        rcases next with ⟨_, none, _⟩ | ⟨later, comes, _, idle, same⟩
        · cases none
        · obtain rfl := SearchStep.restart.inj same
          exact ih comes idle mirrors
      | finished outcome => exact Run.matches_pure rfl

/-- Searches that do the same with every successor come to the same. -/
theorem outcome_reachability_comparingAll {expansions : Nat}
    (alike : ∀ initial, a.ConsidersAlike refiner other task limits first initial) :
    (a.reachability refiner task limits expansions).outcome first =
      (a.comparingAll.reachability other task limits expansions).outcome first := by
  refine Run.eq_of_matches ((Run.matches_refl _).bind fun states _ middle began same => ?_)
  subst same
  have started : SearchState.Mirrors
      { states.foldl SearchSets.insert ({} : SearchSets a.partitionKey) with }
      { states.foldl SearchSets.insert ({} : SearchSets (noKey : σ → PartitionKey)) with } :=
    ⟨.start states, rfl, rfl⟩
  exact matches_search (m := .start states) (alike states) (.start began) rfl started

end Searches

end Analysis

namespace Verification

variable {σ : Type} [DecidableEq σ] {setting : Setting σ} {s t : State σ}

/-- How the standard stack that compares all states is refined. -/
def Setting.comparingRefiner (setting : Setting σ) : Refiner (noKey : State σ → PartitionKey) :=
  Refiner.abstraction setting.analysis.comparingAll setting.domain.solver

/-! ### Judgements -/

section Sets

variable {reached : Reached setting.analysis.withStatistics.partitionKey}
variable {whole : Reached (noKey : State σ → PartitionKey)}

/-- What is asked of the reached states does not depend on the partitions: states that were merged
from a common one are in one partition, and so are those without predecessors. -/
structure Setting.Blind (setting : Setting σ)
    (reached : Reached setting.analysis.withStatistics.partitionKey) : Prop where
  own : ∀ s ∈ reached.toList, s.id ∈ s.inner.provenance.mergeOf
  kindred : ∀ s ∈ reached.toList, ∀ t ∈ reached.toList, ∀ id ∈ s.inner.provenance.mergeOf,
    id ∈ t.inner.provenance.mergeOf → s.threads = t.threads
  roots : ∀ s ∈ reached.toList, ∀ t ∈ reached.toList, s.IsRoot → t.IsRoot → s.threads = t.threads

/-- Related states are in the same order in both. -/
theorem filter_of_related (mirrors : reached.Mirrors whole) {p : State σ → Bool}
    (related : ∀ s ∈ reached.toList, ∀ t ∈ reached.toList, p s = true → p t = true →
      s.threads = t.threads) : reached.toList.filter p = whole.toList.filter p := by
  by_cases some : ∃ t ∈ reached.toList, p t = true
  · obtain ⟨t, member, holds⟩ := some
    exact mirrors.filter_eq fun s inside here =>
      @key_of_threads _ _ setting _ _ (related s inside t member here holds)
  · exact mirrors.filter_eq (k := []) fun s inside here => absurd ⟨s, inside, here⟩ some

theorem Setting.Blind.rearranged (blind : setting.Blind reached) (mirrors : reached.Mirrors whole) :
    Rearranged (reached.toList.map (·.inner.provenance))
      (whole.toList.map (·.inner.provenance)) := by
  refine ⟨List.forall_mem_map.2 blind.own,
    List.forall_mem_map.2 fun s member => blind.own s (mirrors.mem_iff.2 member), fun k => ?_⟩
  rw [List.filter_map, List.filter_map]
  refine congrArg _ (filter_of_related mirrors fun s inside t member here there => ?_)
  exact blind.kindred s inside t member k (of_decide_eq_true here) (of_decide_eq_true there)

theorem Setting.Blind.accessibility_eq (blind : setting.Blind reached)
    (mirrors : reached.Mirrors whole) :
    setting.analysis.withStatistics.accessibility reached =
      setting.analysis.withStatistics.comparingAll.accessibility whole := by
  have provenances : ∀ states : List (State σ),
      states.filterMap setting.analysis.withStatistics.provenance =
        states.map (·.inner.provenance) := fun states => congrFun List.filterMap_eq_map' states
  show Accessibility.ofProvenances (reached.toList.filterMap _) =
    Accessibility.ofProvenances (whole.toList.filterMap _)
  rw [provenances, provenances, (blind.rearranged mirrors).ofProvenances_eq]

theorem Setting.Blind.statesById_eq (blind : setting.Blind reached)
    (mirrors : reached.Mirrors whole) :
    ErrorWitness.statesById setting.analysis.withStatistics reached.toList =
      ErrorWitness.statesById setting.analysis.withStatistics.comparingAll whole.toList := by
  have numbers : ∀ states : List (State σ),
      (states.filterMap fun s => (setting.analysis.withStatistics.provenance s).map (·.id, s)) =
        states.map fun s => (s.id, s) := fun states => congrFun List.filterMap_eq_map' states
  show SortedMap.ofList (reached.toList.filterMap _) = SortedMap.ofList (whole.toList.filterMap _)
  rw [numbers, numbers]
  refine SortedMap.ofList_congr fun k => ?_
  rw [List.filter_map, List.filter_map]
  refine congrArg _ (filter_of_related mirrors fun s inside t member here there => ?_)
  have first : s.id = k := of_decide_eq_true here
  have second : t.id = k := of_decide_eq_true there
  refine blind.kindred s inside t member k (first ▸ blind.own s inside) ?_
  exact second ▸ blind.own t member

/-- The witness to a violation is the same. -/
theorem Setting.Blind.build_eq (blind : setting.Blind reached) (mirrors : reached.Mirrors whole)
    (task : Task) (accessibility : Accessibility) (properties : SortedSet Property)
    (model : Model) :
    ErrorWitness.build setting.analysis.withStatistics task reached.toList accessibility s
        properties model =
      ErrorWitness.build setting.analysis.withStatistics.comparingAll task whole.toList
        accessibility s properties model := by
  unfold ErrorWitness.build
  rw [blind.statesById_eq mirrors]
  rfl

end Sets

section Searches

variable {sets : SearchSets setting.analysis.withStatistics.partitionKey}
variable {whole : SearchSets (noKey : State σ → PartitionKey)}
variable {search : SearchState setting.analysis.withStatistics.partitionKey}
variable {other : SearchState (noKey : State σ → PartitionKey)}
variable {task : Task} {limits : SearchLimits}

/-- Both start over with the same states, or not at all, if they have the same roots. -/
theorem refinePrecision_agrees {sets : SearchSets setting.analysis.partitionKey}
    (mirrors : sets.Mirrors whole)
    (roots : sets.reached.toList.filter (·.inner.provenance.predecessors.isEmpty) =
      whole.reached.toList.filter (·.inner.provenance.predecessors.isEmpty)) :
    Agree (fun found found' => found.1 = found'.1 ∧ found.2.Mirrors found'.2)
      (Refiner.refinePrecision setting.analysis sets s)
      (Refiner.refinePrecision setting.analysis.comparingAll whole s) := by
  unfold Refiner.refinePrecision
  refine (agree_refl (setting.analysis.formula s)).bind fun f _ _ same => ?_
  subst same
  dsimp only
  split
  · exact Or.inl ⟨_, _, rfl, rfl, rfl, mirrors⟩
  · rw [initialStates_eq fun _ => rfl, initialStates_eq fun _ => rfl, roots]
    cases whole.reached.toList.filter (·.inner.provenance.predecessors.isEmpty) with
    | nil => exact Or.inr ⟨_, rfl, rfl⟩
    | cons first rest =>
      refine Or.inl ⟨_, _, rfl, rfl, rfl, ?_⟩
      have started := @SearchSets.Mirrors.start _ setting.analysis.partitionKey _
        ((first :: rest).map (·.withPrecision (s.precision ∪
          (Refiner.predicatesOf f).filter (!s.precision.contains ·))))
      rwa [List.foldl_map, List.foldl_map] at started

theorem Setting.Blind.refine_agrees (blind : setting.Blind sets.reached)
    (mirrors : sets.Mirrors whole) :
    Agree (fun found found' => found.1 = found'.1 ∧ found.2.Mirrors found'.2)
      (setting.refiner.refine sets s) (setting.comparingRefiner.refine whole s) := by
  refine refinePrecision_agrees mirrors (filter_of_related mirrors.reached ?_)
  intro s inside t member here there
  exact blind.roots s inside t member (SortedSet.isEmpty_iff.1 here) (SortedSet.isEmpty_iff.1 there)

theorem Setting.Blind.refineFor_agrees (blind : setting.Blind search.reached)
    (mirrors : search.Mirrors other) :
    Agree SearchStep.Mirrors
      (setting.analysis.withStatistics.refineFor setting.refiner limits search s)
      (setting.analysis.withStatistics.comparingAll.refineFor setting.comparingRefiner limits other
        s) := by
  unfold Analysis.refineFor
  rw [← mirrors.refinements]
  split
  · rw [mirrors.finish]
    exact Or.inl ⟨_, _, rfl, rfl, .finished _⟩
  · refine (blind.refine_agrees mirrors.sets).bind fun found found' _ related => ?_
    obtain ⟨progress, (sets : SearchSets setting.analysis.withStatistics.partitionKey)⟩ := found
    obtain ⟨_, whole⟩ := found'
    obtain ⟨rfl, left⟩ := related
    have refined : SearchState.Mirrors
        { search with refinements := search.refinements + 1, toSearchSets := sets }
        { other with refinements := search.refinements + 1, toSearchSets := whole } :=
      ⟨left, rfl, mirrors.undecided⟩
    cases progress with
    | false =>
      dsimp only
      rw [refined.finish]
      exact Or.inl ⟨_, _, rfl, rfl, .finished _⟩
    | true => exact Or.inl ⟨_, _, rfl, rfl, .restart refined⟩

/-- Violations are judged alike. -/
theorem Setting.Blind.judge_agrees (blind : setting.Blind search.reached)
    (mirrors : search.Mirrors other) :
    Agree SearchStep.Mirrors
      (setting.analysis.withStatistics.judge setting.refiner task limits search s)
      (setting.analysis.withStatistics.comparingAll.judge setting.comparingRefiner task limits other
        s) := by
  unfold Analysis.judge
  rw [blind.accessibility_eq mirrors.sets.reached]
  refine (agree_refl _).bind fun accessibility _ _ same => ?_
  subst same
  have asked : setting.refiner.feasibility search.reached accessibility s =
    setting.comparingRefiner.feasibility other.reached accessibility s := rfl
  rw [asked]
  refine (agree_refl _).bind fun feasibility _ _ same => ?_
  subst same
  cases feasibility with
  | feasible model =>
    dsimp only
    rw [blind.build_eq mirrors.sets.reached]
    refine (agree_refl _).bind fun witness _ _ same => ?_
    subst same
    rw [mirrors.finish]
    exact Or.inl ⟨_, _, rfl, rfl, .finished _⟩
  | infeasible => exact blind.refineFor_agrees mirrors
  | inconclusive reason =>
    refine Or.inl ⟨_, _, rfl, rfl, .next { mirrors with undecided := ?_ }⟩
    rw [mirrors.undecided]

end Searches

/-! ### Searches -/

section Courses

variable {limits : SearchLimits} {task : Task} {first before after : Context}
variable {states rest : List (State σ)} {successor : State σ}
variable {m : Course setting.analysis.withStatistics.partitionKey}
variable {whole : SearchState (noKey : State σ → PartitionKey)}

theorem blind_of_comes
    (comes : setting.analysis.withStatistics.Comes setting.refiner limits first states after m) :
    setting.Blind m.search.reached where
  own s member := ((placed_of_comes comes).origins.named s member).own
  kindred s left t right := (kindred_of_comes comes).threads s t (Or.inl left) (Or.inl right)
  roots _ left _ right root other := threads_of_isRoot comes left right root other

/-- Whether a state is covered does not depend on the states of other partitions. -/
theorem stop_comparingAll {sets : SearchSets setting.analysis.withStatistics.partitionKey}
    {all : SearchSets (noKey : State σ → PartitionKey)} (mirrors : sets.Mirrors all)
    (obtained : ∀ r ∈ sets.reached.toList, r.summary.Obtained) :
    setting.analysis.withStatistics.stop s (sets.reached.partitionOf s) =
      setting.analysis.withStatistics.comparingAll.stop s (all.reached.partitionOf s) := by
  rw [mirrors.reached.partitionOf]
  refine stop_partition fun r member => obtained r (mirrors.reached.mem_iff.2 ?_)
  exact mirrors.reached.mem_whole.2 member

/-- Both searches do the same with a successor. -/
theorem matches_consider
    (comes : setting.analysis.withStatistics.Comes setting.refiner limits first states before m)
    (expanding : m.phase = .expanding (successor :: rest)) (mirrors : m.search.Mirrors whole) :
    Run.Matches SearchStep.Mirrors
      (setting.analysis.withStatistics.consider setting.refiner task limits m.search successor)
      (setting.analysis.withStatistics.comparingAll.consider setting.comparingRefiner task limits
        whole successor) before := by
  unfold Analysis.consider
  rw [← mirrors.sets.reached.size]
  split
  · rw [mirrors.finish]
    exact Run.matches_pure (.finished _)
  · rename_i room
    have widens : setting.analysis.withStatistics.widen successor
        (m.search.reached.partitionOf successor) =
      setting.analysis.withStatistics.comparingAll.widen successor
        (whole.reached.partitionOf successor) := rfl
    rw [← widens]
    refine (Run.matches_refl _).bind fun w _ middle widened same => ?_
    subst same
    have apart : ∀ r, setting.analysis.partitionKey r ≠ setting.analysis.partitionKey w →
        setting.analysis.shouldMerge w r = .ok false := fun r other =>
      if_neg fun both => other both.2.2.2.symm
    refine (Analysis.matches_mergeInto mirrors.sets apart).bind
      fun sets all merged given mirrors' => ?_
    have comes := comes.step (.merge expanding (Nat.lt_of_not_le room) widened given)
    dsimp only
    rw [← stop_comparingAll mirrors' (obtained_of_comes comes)]
    refine (Run.matches_refl _).bind fun covered _ last stopped same => ?_
    subst same
    cases covered with
    | true => exact Run.matches_pure (.next { mirrors with sets := mirrors' })
    | false =>
      have admitted := mirrors'.reached.insert (s := w)
      simp only [Bool.false_eq_true, if_false]
      split
      · exact Run.matches_pure (.next ⟨⟨admitted, mirrors'.frontier.insert⟩, mirrors.refinements,
          mirrors.undecided⟩)
      · rename_i violation
        have comes := comes.step (.violate rfl stopped (by simpa using violation))
        refine Run.matches_ofExcept ((blind_of_comes comes).judge_agrees ?_)
        exact ⟨⟨admitted, mirrors'.frontier⟩, mirrors.refinements, mirrors.undecided⟩

/-- The search that compares all states comes to the same outcome in the same context. -/
theorem outcome_comparingAll {expansions : Nat} :
    (setting.analysis.withStatistics.reachability setting.refiner task limits expansions).outcome
        first =
      (setting.analysis.withStatistics.comparingAll.reachability setting.comparingRefiner task
        limits expansions).outcome first :=
  Analysis.outcome_reachability_comparingAll fun _ => matches_consider

end Courses

/-- States that merge are in one partition, and so is their merge. -/
theorem key_of_merge {u : State σ} {before after : Context}
    (wanted : setting.analysis.shouldMerge s t = .ok true)
    (given : (setting.analysis.merge s t).Yields before u after) :
    setting.analysis.partitionKey u = setting.analysis.partitionKey s := by
  obtain ⟨_, _, same, _⟩ := shouldMerge_eq_true wanted
  exact key_of_threads ((yields_merge wanted given).1.trans same.symm)

/-- The states of the partition of a state say all that the reached states say: whether it is
covered, and with what it is merged. So searches come to the same if they compare all states. -/
theorem partitions_suffice (setting : Setting σ) :
    (∀ (s : State σ) (states : List (State σ)), (∀ r ∈ states, r.summary.Obtained) →
      setting.analysis.withStatistics.stop s
          (states.filter (setting.analysis.partitionKey · = setting.analysis.partitionKey s)) =
        setting.analysis.withStatistics.stop s states) ∧
    (∀ s : State σ, setting.Occurs s → s.summary.Obtained) ∧
    (∀ (reached : Reached setting.analysis.partitionKey) (s : State σ),
      reached.groups.Keyed setting.analysis.partitionKey → reached.partitionOf s =
        reached.toList.filter (setting.analysis.partitionKey · = setting.analysis.partitionKey s)) ∧
    (∀ s r : State σ, setting.analysis.withStatistics.shouldMerge s r = .ok true →
      setting.analysis.partitionKey r = setting.analysis.partitionKey s ∧
      ∀ before u after, (setting.analysis.merge s r).Yields before u after →
        setting.analysis.partitionKey u = setting.analysis.partitionKey s) ∧
    (∀ s r : State σ, setting.analysis.partitionKey r ≠ setting.analysis.partitionKey s →
      setting.analysis.withStatistics.shouldMerge s r = .ok false) ∧
    ∀ (task : Task) (limits : SearchLimits) (expansions : Nat) (first : Context),
      (setting.analysis.withStatistics.reachability setting.refiner task limits expansions).outcome
          first =
        (setting.analysis.withStatistics.comparingAll.reachability setting.comparingRefiner task
          limits expansions).outcome first := by
  refine ⟨fun s states => stop_partition, fun s => obtained_of_occurs, fun reached s keyed => ?_,
    fun s r wanted => ⟨?_, fun before u after => key_of_merge wanted⟩, fun s r other => ?_,
    fun task limits expansions first => outcome_comparingAll⟩
  · exact (Reached.filter_toList keyed (setting.analysis.partitionKey s)).symm
  · exact key_of_threads (shouldMerge_eq_true wanted).2.2.1.symm
  · exact if_neg fun both => other both.2.2.2.symm

/-- Whether the program is well formed and its two branches merge, and not with the state before
them, which is in another partition. -/
def setOrAskParts : Bool :=
  setOrAsk.toOption.any fun task =>
    match (Setting.joining task).analysis.initial.outcome {},
      (Setting.joining task).branches.outcome {} with
    | (.ok [r], _), (.ok (s, t, _), _) =>
      ((Setting.joining task).analysis.shouldMerge s t).toOption == some true &&
        (Setting.joining task).analysis.partitionKey r !=
          (Setting.joining task).analysis.partitionKey s
    | _, _ => false

theorem setOrAskParts_eq_true : setOrAskParts = true := by decide +kernel

/-- The branches of the program are in one partition with their merge, and the state before them
says nothing about it. -/
theorem partitions_suffice_setOrAsk : ∃ (setting : Setting Formula) (r s t u : State Formula)
    (before after : Context), setOrAsk = .ok setting.task ∧
      setting.Occurs r ∧ setting.Occurs s ∧ setting.Occurs t ∧
      setting.analysis.withStatistics.shouldMerge s t = .ok true ∧
      setting.analysis.withStatistics.shouldMerge s r = .ok false ∧
      (setting.analysis.merge s t).Yields before u after ∧
      setting.analysis.partitionKey t = setting.analysis.partitionKey s ∧
      setting.analysis.partitionKey u = setting.analysis.partitionKey s ∧
      setting.analysis.partitionKey r ≠ setting.analysis.partitionKey s ∧
      setting.analysis.withStatistics.stop u [s, t] =
        setting.analysis.withStatistics.stop u [r, s, t] := by
  obtain ⟨task, created, checked⟩ := (Option.any_eq_true _ _).1 setOrAskParts_eq_true
  have made := toOption_eq_some_iff.1 created
  split at checked
  · rename_i r _ s t u _ begun run
    simp only [Bool.and_eq_true, beq_iff_eq, bne_iff_ne] at checked
    obtain ⟨wanted, other⟩ := checked
    have wanted := toOption_eq_some_iff.1 wanted
    obtain ⟨first, second, before, after, merged⟩ := occurs_of_branches run
    have root : (Setting.joining task).Occurs r := .initial begun (by simp)
    obtain ⟨covers, obtained, _, merges, apart, _⟩ := partitions_suffice (Setting.joining task)
    obtain ⟨same, kept⟩ := merges s t wanted
    have key := kept before u after merged
    have covered := covers u [r, s, t] fun v member => obtained v (by
      simp only [List.mem_cons, List.not_mem_nil, or_false] at member
      rcases member with rfl | rfl | rfl <;> assumption)
    refine ⟨.joining task, r, s, t, u, before, after, made, root, first, second, wanted,
      apart s r other, merged, same, key, other, ?_⟩
    simpa [key, same, other] using covered
  · cases checked

end Verification

end EventCheck
