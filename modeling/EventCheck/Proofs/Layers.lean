import EventCheck.Proofs.Following
import EventCheck.Proofs.Predicates
import EventCheck.Search.Verify

/-!
The layers of the standard stack, one by one: what the results of each operation have to do with
its arguments. Counting changes nothing, provenance numbers the states, and abstraction splits
paths into blocks.
-/

namespace EventCheck

variable {σ : Type} {before after : Context}

/-! ### Provenance -/

namespace ProvenanceState

variable {predecessors mergeOf : SortedSet Nat}

theorem yields_fresh {inner : σ} {t : ProvenanceState σ}
    (given : (fresh predecessors mergeOf inner).Yields before t after) :
    t = { provenance := { id := before.states, predecessors,
                          mergeOf := mergeOf.insert before.states }, inner } ∧
      after.states = before.states + 1 := by
  unfold fresh at given
  obtain ⟨id, middle, numbered, built⟩ := Run.yields_bind.1 given
  obtain ⟨rfl, rfl⟩ := Run.yields_newState.1 numbered
  obtain ⟨rfl, rfl⟩ := Run.yields_pure.1 built
  exact ⟨rfl, rfl⟩

/-- The states of the list are numbered in order. -/
inductive Numbered (predecessors : SortedSet Nat) : Nat → List σ → List (ProvenanceState σ) → Prop
  | nil {n : Nat} : Numbered predecessors n [] []
  | cons {n : Nat} {i : σ} {inner : List σ} {t : ProvenanceState σ}
    {states : List (ProvenanceState σ)} (same : t.inner = i)
    (id : t.provenance.id = n) (origin : t.provenance.predecessors = predecessors)
    (alone : ∀ m, m ∈ t.provenance.mergeOf ↔ m = n) (later : Numbered predecessors (n + 1) inner states) :
    Numbered predecessors n (i :: inner) (t :: states)

theorem yields_mapM_fresh {inner : List σ} {states : List (ProvenanceState σ)}
    (given : (inner.mapM (fresh predecessors ∅)).Yields before states after) :
    Numbered predecessors before.states inner states ∧
      after.states = before.states + inner.length := by
  induction inner generalizing before states with
  | nil =>
    rw [List.mapM_nil, Run.yields_pure] at given
    obtain ⟨rfl, rfl⟩ := given
    exact ⟨.nil, rfl⟩
  | cons i rest ih =>
    simp only [List.mapM_cons, Run.yields_bind, Run.yields_pure] at given
    obtain ⟨t, middle, first, later, last, others, rfl, rfl⟩ := given
    obtain ⟨rfl, next⟩ := yields_fresh first
    obtain ⟨numbered, count⟩ := ih others
    rw [next] at numbered count
    exact ⟨.cons rfl rfl rfl (by simp) numbered, by rw [count, List.length_cons]; omega⟩

theorem Numbered.exists_of_mem {n : Nat} {inner : List σ} {states : List (ProvenanceState σ)}
    (numbered : Numbered predecessors n inner states) {t : ProvenanceState σ}
    (member : t ∈ states) : t.inner ∈ inner ∧ t.provenance.predecessors = predecessors ∧
      (∀ m ∈ t.provenance.mergeOf, m = t.provenance.id) ∧
      n ≤ t.provenance.id ∧ t.provenance.id < n + inner.length := by
  induction numbered with
  | nil => simp at member
  | cons same id origin alone _ ih =>
    rcases List.mem_cons.1 member with rfl | member
    · exact ⟨by simp [same], origin, fun m merged => id ▸ (alone m).1 merged, by omega,
        by rw [List.length_cons]; omega⟩
    · obtain ⟨inside, begun, own, low, high⟩ := ih member
      exact ⟨by simp [inside], begun, own, by omega, by rw [List.length_cons]; omega⟩

/-- A numbered state is merged from itself. -/
theorem Numbered.own {n : Nat} {inner : List σ} {states : List (ProvenanceState σ)}
    (numbered : Numbered predecessors n inner states) {t : ProvenanceState σ}
    (member : t ∈ states) : t.provenance.id ∈ t.provenance.mergeOf := by
  induction numbered with
  | nil => simp at member
  | cons _ id _ alone _ ih =>
    rcases List.mem_cons.1 member with rfl | member
    · exact (alone _).2 id
    · exact ih member

theorem Numbered.exists_of_inner {n : Nat} {inner : List σ} {states : List (ProvenanceState σ)}
    (numbered : Numbered predecessors n inner states) {i : σ} (member : i ∈ inner) :
    ∃ t ∈ states, t.inner = i := by
  induction numbered with
  | nil => simp at member
  | cons same _ _ _ _ ih =>
    rcases List.mem_cons.1 member with rfl | member
    · exact ⟨_, by simp, same⟩
    · obtain ⟨t, inside, found⟩ := ih member
      exact ⟨t, by simp [inside], found⟩

theorem Numbered.length {n : Nat} {inner : List σ} {states : List (ProvenanceState σ)}
    (numbered : Numbered predecessors n inner states) : inner.length = states.length := by
  induction numbered with
  | nil => rfl
  | cons _ _ _ _ _ ih => rw [List.length_cons, List.length_cons, ih]

theorem Numbered.pairwise {n : Nat} {inner : List σ} {states : List (ProvenanceState σ)}
    (numbered : Numbered predecessors n inner states) :
    states.Pairwise fun s t => s.provenance.id < t.provenance.id := by
  induction numbered with
  | nil => exact .nil
  | cons _ id _ _ later ih =>
    refine .cons (fun t member => ?_) ih
    have := (later.exists_of_mem member).2.2.2.1
    omega

end ProvenanceState

section Provenance

variable [DecidableEq σ] {a : Analysis σ} {s t u : ProvenanceState σ}
variable {states : List (ProvenanceState σ)}

theorem yields_initial_withProvenance (given : a.withProvenance.initial.Yields before states after) :
    ∃ inner middle, a.initial.Yields before inner middle ∧
      ProvenanceState.Numbered ∅ middle.states inner states ∧
      after.states = middle.states + inner.length := by
  obtain ⟨inner, middle, first, later⟩ := Run.yields_bind.1 given
  obtain ⟨numbered, count⟩ := ProvenanceState.yields_mapM_fresh later
  exact ⟨inner, middle, first, numbered, count⟩

theorem yields_successors_withProvenance
    (given : (a.withProvenance.successors s).Yields before states after) :
    ∃ inner middle, (a.successors s.inner).Yields before inner middle ∧
      ProvenanceState.Numbered (.singleton s.provenance.id) middle.states inner states ∧
      after.states = middle.states + inner.length := by
  obtain ⟨inner, middle, first, later⟩ := Run.yields_bind.1 given
  obtain ⟨numbered, count⟩ := ProvenanceState.yields_mapM_fresh later
  exact ⟨inner, middle, first, numbered, count⟩

/-- A merge is the second state, or a new one with the predecessors of both that is merged from
both. -/
theorem yields_merge_withProvenance (given : (a.withProvenance.merge s t).Yields before u after) :
    ∃ middle, (a.merge s.inner t.inner).Yields before u.inner middle ∧
      (u = t ∧ after = middle ∨ after.states = middle.states + 1 ∧ u.inner ≠ t.inner ∧
        u.provenance =
          { id := middle.states
            predecessors := s.provenance.predecessors ∪ t.provenance.predecessors
            mergeOf := (s.provenance.mergeOf ∪ t.provenance.mergeOf).insert middle.states }) := by
  obtain ⟨inner, middle, merged, given⟩ := Run.yields_bind.1 given
  split at given
  · rename_i same
    obtain ⟨rfl, rfl⟩ := Run.yields_pure.1 given
    exact ⟨middle, same ▸ merged, Or.inl ⟨rfl, rfl⟩⟩
  · rename_i changed
    obtain ⟨rfl, count⟩ := ProvenanceState.yields_fresh given
    exact ⟨middle, merged, Or.inr ⟨count, changed, rfl⟩⟩

end Provenance

/-! ### Counting -/

section Statistics

variable {a : Analysis σ} {s t : σ}

theorem yields_successors_withStatistics {states : List σ}
    (given : (a.withStatistics.successors s).Yields before states after) :
    ∃ middle, (a.successors s).Yields before states middle ∧ after.states = middle.states := by
  obtain ⟨results, middle, first, given⟩ := Run.yields_bind.1 given
  obtain ⟨_, counted, count, built⟩ := Run.yields_bind.1 given
  obtain ⟨rfl, rfl⟩ := Run.yields_pure.1 built
  obtain rfl := Run.yields_count.1 count
  exact ⟨middle, first, rfl⟩

theorem yields_merge_withStatistics
    (given : (a.withStatistics.merge s t).Yields before u after) :
    ∃ middle, (a.merge s t).Yields middle u after ∧ middle.states = before.states := by
  obtain ⟨_, middle, count, given⟩ := Run.yields_bind.1 given
  obtain rfl := Run.yields_count.1 count
  exact ⟨_, given, rfl⟩

theorem yields_widen_withStatistics {reached : List σ}
    (given : (a.withStatistics.widen s reached).Yields before t after) :
    ∃ middle, (a.widen s reached).Yields middle t after ∧ middle.states = before.states := by
  obtain ⟨_, middle, count, given⟩ := Run.yields_bind.1 given
  obtain rfl := Run.yields_count.1 count
  exact ⟨_, given, rfl⟩

theorem yields_stop_withStatistics {reached : List σ} {covered : Bool}
    (given : (a.withStatistics.stop s reached).Yields before covered after) :
    ∃ first last, (a.stop s reached).Yields first covered last ∧ first.states = before.states ∧
      after.states = last.states := by
  obtain ⟨_, middle, count, given⟩ := Run.yields_bind.1 given
  obtain rfl := Run.yields_count.1 count
  obtain ⟨found, last, stopped, given⟩ := Run.yields_bind.1 given
  cases found with
  | false =>
    obtain ⟨rfl, rfl⟩ := Run.yields_pure.1 given
    exact ⟨_, last, stopped, rfl, rfl⟩
  | true =>
    simp only [if_true] at given
    obtain ⟨_, _, counted, built⟩ := Run.yields_bind.1 given
    obtain ⟨rfl, rfl⟩ := Run.yields_pure.1 built
    obtain rfl := Run.yields_count.1 counted
    exact ⟨_, last, stopped, rfl, rfl⟩

end Statistics

/-! ### Abstraction -/

namespace Abstraction

variable {a : Analysis σ} {s t u : AbstractionState σ} {states : List (AbstractionState σ)}

theorem yields_successors (given : (successors a s).Yields before states after) :
    (s.summary.isFalse = true ∧ states = [] ∧ before = after) ∨
      s.summary.isFalse = false ∧ ∃ inner, (a.successors s.inner).Yields before inner after ∧
        states = inner.map fun inner => { s with inner } := by
  unfold successors at given
  split at given
  · rename_i false
    obtain ⟨rfl, rfl⟩ := Run.yields_pure.1 given
    exact Or.inl ⟨false, rfl, rfl⟩
  · rename_i possible
    obtain ⟨inner, _, followed, built⟩ := Run.yields_bind.1 given
    obtain ⟨rfl, rfl⟩ := Run.yields_pure.1 built
    exact Or.inr ⟨by simpa using possible, inner, followed, rfl⟩

theorem shouldMerge_eq_true (wanted : shouldMerge a s t = .ok true) :
    s.blockId = t.blockId ∧ s.precision = t.precision ∧ s.summary = t.summary ∧
      a.shouldMerge s.inner t.inner = .ok true := by
  unfold shouldMerge at wanted
  split at wanted
  · rename_i same
    exact ⟨same.1, same.2.1, same.2.2.1, wanted⟩
  · cases wanted

/-- A merge is the second state, or has the paths of both states. -/
theorem yields_merge [DecidableEq σ] (given : (merge a s t).Yields before u after) :
    (a.merge s.inner t.inner).Yields before u.inner after ∧
      u.summary = s.summary.disjunction t.summary ∧
      (u = t ∨ u = { t with summary := u.summary, inner := u.inner
                            path := s.path.disjunction t.path }) := by
  unfold merge at given
  dsimp only at given
  obtain ⟨inner, _, merged, given⟩ := Run.yields_bind.1 given
  split at given
  · rename_i same
    obtain ⟨rfl, rfl⟩ := Run.yields_pure.1 given
    exact ⟨same.2 ▸ merged, same.1.symm, Or.inl rfl⟩
  · obtain ⟨rfl, rfl⟩ := Run.yields_pure.1 given
    exact ⟨merged, rfl, Or.inr rfl⟩

/-- Looking for a cover hands out no numbers. -/
theorem keepsStates_stop {domain : PredicateDomain}
    (inside : ∀ s states, (a.stop s states).KeepsStates) :
    (stop domain a s states).KeepsStates := by
  have look : ∀ summary states, (coveredIn domain a s summary states).KeepsStates := by
    intro summary states
    induction states with
    | nil => exact .pure _
    | cons r rest ih =>
      unfold coveredIn
      split
      · exact ih
      · refine (Run.keepsStates_ofExcept _).bind fun other =>
          (Run.keepsStates_ofExcept _).bind fun included => ?_
        split
        · refine (inside _ _).bind fun covered => ?_
          split
          · exact .pure _
          · exact ih
        · exact ih
  unfold stop
  split
  · exact .pure _
  · exact (Run.keepsStates_ofExcept _).bind fun summary => look summary states

/-- What covers a state is a reached one of the same block whose summary includes its summary. -/
theorem yields_coveredIn {domain : PredicateDomain} {summary : Formula}
    (given : (coveredIn domain a s summary states).Yields before true after) :
    ∃ r ∈ states, ∃ other, r.summary.stripVersions = .ok other ∧
      domain.included summary other = .ok true ∧
      ∃ c d, (a.stop s.inner [r.inner]).Yields c true d := by
  induction states generalizing before with
  | nil => cases (Run.yields_pure.1 given).1
  | cons r rest ih =>
    have later : ∀ {middle}, (coveredIn domain a s summary rest).Yields middle true after →
        ∃ r' ∈ r :: rest, ∃ other, r'.summary.stripVersions = .ok other ∧
          domain.included summary other = .ok true ∧
          ∃ c d, (a.stop s.inner [r'.inner]).Yields c true d := by
      intro middle found
      obtain ⟨r', inside, rest⟩ := ih found
      exact ⟨r', by simp [inside], rest⟩
    unfold coveredIn at given
    split at given
    · exact later given
    · obtain ⟨other, _, stripped, given⟩ := Run.yields_bind.1 given
      obtain ⟨inclusion, _, included, given⟩ := Run.yields_bind.1 given
      cases inclusion with
      | false => exact later given
      | true =>
        obtain ⟨covered, middle, stopped, given⟩ := Run.yields_bind.1 given
        cases covered with
        | false => exact later given
        | true =>
          exact ⟨r, by simp, other, (Run.yields_ofExcept.1 stripped).1,
            (Run.yields_ofExcept.1 included).1, _, _, stopped⟩

theorem yields_stop {domain : PredicateDomain}
    (given : (stop domain a s states).Yields before true after) :
    s.summary.isFalse = true ∨ ∃ summary, s.summary.stripVersions = .ok summary ∧
      ∃ r ∈ states, ∃ other, r.summary.stripVersions = .ok other ∧
        domain.included summary other = .ok true ∧
        ∃ c d, (a.stop s.inner [r.inner]).Yields c true d := by
  unfold stop at given
  split at given
  · rename_i false
    exact Or.inl false
  · obtain ⟨summary, _, stripped, given⟩ := Run.yields_bind.1 given
    exact Or.inr ⟨summary, (Run.yields_ofExcept.1 stripped).1, yields_coveredIn given⟩

/-- A state is left alone away from abstraction points; at them it starts a new block. -/
theorem summarize_eq_ok {domain : PredicateDomain} {points : AbstractionPoints}
    (given : summarize domain a points s = .ok t) :
    (isPoint a points s = false ∧ t = s) ∨ isPoint a points s = true ∧
      ∃ block summary inner, a.formula s.inner = .ok block ∧
        domain.widen (s.summary.conjunction block)
          (.ofList (s.precision.toList.map (a.instantiate s.inner))) = .ok summary ∧
        a.resetPath s.inner = .ok inner ∧
        t = { s with summary, path := s.path.conjunction block, inner,
                     blockId := a.partitionKey inner } := by
  unfold summarize at given
  split at given
  · rename_i away
    obtain rfl := Except.ok.inj given
    exact Or.inl ⟨by simpa using away, rfl⟩
  · rename_i point
    obtain ⟨block, formed, given⟩ := bind_eq_ok_iff.1 given
    obtain ⟨summary, widened, given⟩ := bind_eq_ok_iff.1 given
    obtain ⟨inner, reset, built⟩ := bind_eq_ok_iff.1 given
    obtain rfl := pure_eq_ok_iff.1 built
    exact Or.inr ⟨by simpa using point, block, summary, inner, formed, widened, reset, rfl⟩

end Abstraction

/-! ### Control -/

namespace Control

variable {a : LabeledAnalysis σ} {s t u : ControlState σ}

theorem merge_eq_ok (given : merge a s t = .ok u) (same : s.threads = t.threads) :
    u.threads = t.threads ∧ u.targets = s.targets ∪ t.targets ∧
      a.merge s.inner t.inner = .ok u.inner := by
  unfold merge at given
  split at given
  · rename_i different
    exact absurd same different
  · obtain ⟨inner, merged, built⟩ := bind_eq_ok_iff.1 given
    obtain rfl := pure_eq_ok_iff.1 built
    exact ⟨rfl, rfl, merged⟩

theorem coveredBy_eq_true {r : ControlState σ} (covered : coveredBy a s r = .ok true) :
    r.threads = s.threads ∧ a.stop s.inner [r.inner] = .ok true := by
  unfold coveredBy at covered
  split at covered
  · rename_i same
    exact ⟨same, covered⟩
  · cases covered

end Control

end EventCheck
