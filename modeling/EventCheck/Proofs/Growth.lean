import EventCheck.Proofs.Encounters
import EventCheck.Proofs.Refinements

/-!
The predicates of a search. At every moment all its states track the same predicates, and with
every refinement there are more of them, so a search has been refined at most as often as there are
predicates. The reached states are grouped as refinements in place need them to be.
-/

namespace EventCheck

/-! ### The groups of reached states -/

namespace Analysis

variable {σ : Type} [DecidableEq σ] {a : Analysis σ} {refiner : Refiner a.partitionKey}
variable {limits : SearchLimits} {first before after : Context} {states : List σ}
variable {m next : Course a.partitionKey}

theorem proper_of_mergeInto {s : σ} {sets later : SearchSets a.partitionKey}
    (proper : sets.reached.Proper) (given : (a.mergeInto s sets).Yields before later after) :
    later.reached.Proper :=
  @mergeInto_induction _ _ a _ _ _ _ _ (fun sets => sets.reached.Proper) given proper
    fun _ _ _ proper _ _ => proper.erase.insert

/-- The groups of reached states stay proper if refinements leave them so. -/
theorem proper_of_advances (restarts : ∀ sets s begun, refiner.refine sets s = .ok (true, begun) →
      begun.reached.Proper) (proper : m.search.reached.Proper)
    (advances : a.Advances refiner limits before m after next) : next.search.reached.Proper := by
  cases advances with
  | pop | follow | cover | doubt | finish => exact proper
  | merge _ _ _ merged => exact proper_of_mergeInto proper merged
  | accept | violate => exact proper.insert
  | refine _ _ _ refined => exact restarts _ _ _ refined

end Analysis

/-! ### Along a search -/

namespace Verification

variable {σ : Type} [DecidableEq σ] {setting : Setting σ} {precision : Precision}
variable {limits : SearchLimits} {first before after : Context} {states : List (State σ)}
variable {m next : Course setting.analysis.withStatistics.partitionKey}

/-- At every moment of a search the reached states are such as can be refined in place. -/
theorem proper_of_comes
    (comes : setting.analysis.withStatistics.Comes setting.refiner limits first states after m) :
    m.search.reached.Proper := by
  induction comes with
  | start =>
    exact @Refiner.proper_foldl_insert _ _ setting.analysis.withStatistics {} states
      Reached.proper_empty
  | step _ advances ih =>
    refine Analysis.proper_of_advances (fun _ _ _ refined => ?_) ih advances
    obtain ⟨_, _, _, refines⟩ := Refiner.refines_of_refinePrecision refined
    exact refines.proper

/-- Only refinements change the predicates of a state. -/
theorem handsOn_precision (setting : Setting σ) (precision : Precision) :
    setting.HandsOn (·.precision = precision) where
  successor same given member := by
    rw [(succeeds_of_mem given member).1]
    exact same
  widened same given := by
    rcases yields_widen given with ⟨_, rfl⟩ | ⟨_, _, _, _, _, _, kept, _⟩
    · exact same
    · exact kept.trans same
  merged _ same wanted given := by
    obtain ⟨_, _, _, _, kept, _⟩ := yields_merge wanted given
    exact kept.trans same

/-- One operation of a search leaves all its states the predicates that they have, or gives all of
them more, which is a refinement. -/
theorem precision_of_advances (placed : Placed before.states m)
    (same : Everywhere (·.precision = precision) m)
    (advances : setting.analysis.withStatistics.Advances setting.refiner limits before m after
      next) :
    Everywhere (·.precision = precision) next ∧ next.search.refinements = m.search.refinements ∨
      ∃ larger, Everywhere (·.precision = larger) next ∧ precision ⊆ larger ∧
        precision ≠ larger ∧ next.search.refinements = m.search.refinements + 1 := by
  rcases same.advance (handsOn_precision setting precision) placed advances with
    kept | ⟨w, judged, idle, refined, count⟩
  · exact Or.inl kept
  · obtain ⟨f, larger, _, refines⟩ := Refiner.refines_of_refinePrecision refined
    have before := same.atHand w judged
    refine Or.inr ⟨larger, ⟨fun t member => ?_, by rw [idle]; nofun, by rw [idle]; nofun⟩,
      before ▸ refines.grows.1, before ▸ refines.grows.2, count⟩
    obtain ⟨_, _, _, rfl⟩ := (refines.reached t).1 member
    rfl

/-- At every moment of a search all its states track the same predicates. There are at least as many
as there have been refinements. -/
theorem refinements_le_of_comes
    (comes : setting.analysis.withStatistics.Comes setting.refiner limits first states after m) :
    ∃ precision, Everywhere (·.precision = precision) m ∧
      m.search.refinements ≤ precision.size := by
  induction comes with
  | start given =>
    obtain ⟨_, members, _⟩ := @SearchSets.sound_start _
      setting.analysis.withStatistics.partitionKey _ states
    refine ⟨∅, ⟨fun s member => ?_, nofun, nofun⟩, Nat.zero_le _⟩
    obtain ⟨_, _, _, _, _, _, _, none⟩ := yields_initial given ((members s).1 member)
    exact none
  | step comes advances ih =>
    obtain ⟨precision, same, bound⟩ := ih
    rcases precision_of_advances (placed_of_comes comes) same advances with
      ⟨kept, count⟩ | ⟨larger, all, contained, differ, count⟩
    · exact ⟨precision, kept, count ▸ bound⟩
    · have more := SortedSet.isProperSubset_iff.2 ⟨contained, differ⟩
      rw [SortedSet.isProperSubset, Bool.and_eq_true, decide_eq_true_iff] at more
      exact ⟨larger, all, count ▸ bound.trans_lt more.1⟩

end Verification

end EventCheck
