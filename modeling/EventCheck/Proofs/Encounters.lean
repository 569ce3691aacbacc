import EventCheck.Proofs.Origins
import EventCheck.Proofs.Summaries

/-!
What a search comes across. At every moment each state that is reached, expanded, judged or yet to
come occurs, so whatever the operations keep holds of it; among other things its summary comes from
an expression.
-/

namespace EventCheck

/-- The state that the search has just taken or admitted. -/
def Phase.atHand {σ : Type} : Phase σ → List σ
  | .popped s | .judging s _ => [s]
  | .idle | .expanding _ | .merged _ _ => []

namespace Verification

variable {σ : Type} [DecidableEq σ] {setting : Setting σ} {s t : State σ}
variable {limits : SearchLimits} {first before after : Context} {states : List (State σ)}

/-- All states of the search have the property. -/
structure Everywhere {key : State σ → PartitionKey} (p : State σ → Prop) (m : Course key) :
    Prop where
  reached : ∀ s ∈ m.search.reached.toList, p s
  coming : ∀ s ∈ m.phase.coming, p s
  atHand : ∀ s ∈ m.phase.atHand, p s

variable {m next : Course setting.analysis.withStatistics.partitionKey}

/-- The operations of the analysis hand the property on. -/
structure Setting.HandsOn (setting : Setting σ) (p : State σ → Prop) : Prop where
  successor : ∀ {before after : Context} {states : List (State σ)} {s t : State σ}, p s →
    (setting.analysis.successors s).Yields before states after → t ∈ states → p t
  widened : ∀ {before after : Context} {reached : List (State σ)} {s t : State σ}, p s →
    (setting.analysis.widen s reached).Yields before t after → p t
  merged : ∀ {before after : Context} {s t u : State σ}, p s → p t →
    setting.analysis.shouldMerge s t = .ok true →
    (setting.analysis.merge s t).Yields before u after → p u

theorem Setting.HandsOn.mergeInto {p : State σ → Prop} (handsOn : setting.HandsOn p)
    {sets later : SearchSets setting.analysis.withStatistics.partitionKey}
    (sound : sets.Sound) (holds : ∀ s ∈ sets.reached.toList, p s) (here : p s)
    (given : (setting.analysis.withStatistics.mergeInto s sets).Yields before later after) :
    ∀ t ∈ later.reached.toList, p t := by
  refine (Analysis.mergeInto_rule (a := setting.analysis.withStatistics)
    (fun _ current => current.Sound ∧ ∀ t ∈ current.reached.toList, p t)
    given ⟨sound, holds⟩ ?_).2
  rintro c d current old merged ⟨sound, all⟩ inside wanted merge
  split
  · exact ⟨sound, all⟩
  · rename_i changed
    obtain ⟨substituted, members, _⟩ := sound.substitute changed
    obtain ⟨_, merge, _⟩ := yields_merge_withStatistics merge
    refine ⟨substituted, fun t member => ?_⟩
    rcases (members t).1 member with rfl | ⟨member, _⟩
    · exact handsOn.merged here (holds old inside) wanted merge
    · exact all t member

/-- What all states of the search have and the operations hand on all of them have one operation
later, unless the search starts over. -/
theorem Everywhere.advance {p : State σ → Prop} (everywhere : Everywhere p m)
    (handsOn : setting.HandsOn p) (placed : Placed before.states m)
    (advances : setting.analysis.withStatistics.Advances setting.refiner limits before m after
      next) :
    Everywhere p next ∧ next.search.refinements = m.search.refinements ∨
      ∃ w ∈ m.phase.atHand, next.phase = .idle ∧
        Refiner.refinePrecision setting.analysis m.search.toSearchSets w =
          .ok (true, next.search.toSearchSets) ∧
        next.search.refinements = m.search.refinements + 1 := by
  have sound := placed.origins.sound
  have admitted : ∀ {w : State σ}, p w →
      ∀ s ∈ (m.search.reached.insert w).toList, p s := by
    intro w here s member
    rcases (Reached.mem_insert sound.reached).1 member with rfl | member
    · exact here
    · exact everywhere.reached s member
  obtain ⟨reached, coming, atHand⟩ := everywhere
  cases advances with
  | pop idle taken =>
    refine Or.inl ⟨⟨reached, nofun, List.forall_mem_singleton.2 ?_⟩, rfl⟩
    obtain ⟨queue, _⟩ := sound.frontier.pop taken
    exact reached _ (placed.origins.waits _ (queue ▸ List.mem_cons_self))
  | follow taken followed =>
    rw [taken] at atHand
    obtain ⟨_, followed, _⟩ := yields_successors_withStatistics followed
    refine Or.inl ⟨⟨reached, fun t member => ?_, nofun⟩, rfl⟩
    exact handsOn.successor (atHand _ (List.mem_singleton_self _)) followed member
  | merge expanding _ widened merged =>
    rw [expanding] at coming
    obtain ⟨here, later⟩ := List.forall_mem_cons.1 coming
    obtain ⟨_, widened, _⟩ := yields_widen_withStatistics widened
    have here := handsOn.widened here widened
    exact Or.inl ⟨⟨handsOn.mergeInto sound reached here merged,
      List.forall_mem_cons.2 ⟨here, later⟩, nofun⟩, rfl⟩
  | cover merged =>
    rw [merged] at coming
    exact Or.inl ⟨⟨reached, (List.forall_mem_cons.1 coming).2, nofun⟩, rfl⟩
  | accept merged =>
    rw [merged] at coming
    obtain ⟨here, later⟩ := List.forall_mem_cons.1 coming
    exact Or.inl ⟨⟨admitted here, later, nofun⟩, rfl⟩
  | violate merged =>
    rw [merged] at coming
    obtain ⟨here, later⟩ := List.forall_mem_cons.1 coming
    exact Or.inl ⟨⟨admitted here, later, List.forall_mem_singleton.2 here⟩, rfl⟩
  | doubt judging =>
    rw [judging] at coming
    exact Or.inl ⟨⟨reached, coming, nofun⟩, rfl⟩
  | @refine _ w _ _ judging check budget refined =>
    exact Or.inr ⟨w, by rw [judging]; exact List.mem_singleton_self w, rfl, refined, rfl⟩
  | finish expanding => exact Or.inl ⟨⟨reached, nofun, nofun⟩, rfl⟩

/-- A search starts over with reached states that have no predecessors, to which predicates of the
violation have been added. -/
theorem exists_of_refine
    {sets later : SearchSets setting.analysis.withStatistics.partitionKey}
    (refined : @Refiner.refine _ setting.analysis.withStatistics.partitionKey setting.refiner sets s =
      .ok (true, later)) :
    ∃ f found, setting.analysis.formula s = .ok f ∧ (∀ e ∈ found, e ∈ Refiner.predicatesOf f) ∧
      ∀ u ∈ later.reached.toList, ∃ t ∈ sets.reached.toList,
        t.inner.provenance.predecessors = ∅ ∧ u = t.withPrecision (s.precision ∪ found) := by
  obtain ⟨f, found, initial, formed, predicates, _, rootless, rfl⟩ := refinePrecision_eq_ok refined
  obtain ⟨_, members, _⟩ := @SearchSets.sound_start _
    setting.analysis.withStatistics.partitionKey _
      (initial.map (·.withPrecision (s.precision ∪ found)))
  refine ⟨f, found, formed, predicates, fun u member => ?_⟩
  obtain ⟨t, listed, rfl⟩ := List.mem_map.1 ((members u).1 member)
  obtain ⟨inside, root⟩ := rootless t listed
  exact ⟨t, inside, root, rfl⟩

theorem occurs_of_advances (placed : Placed before.states m) (occurs : Everywhere setting.Occurs m)
    (advances : setting.analysis.withStatistics.Advances setting.refiner limits before m after
      next) : Everywhere setting.Occurs next := by
  have handsOn : setting.HandsOn setting.Occurs :=
    ⟨fun occurs => .successor occurs, fun occurs => .widened occurs, fun left => .merged left⟩
  rcases occurs.advance handsOn placed advances with ⟨kept, _⟩ | ⟨w, judged, idle, refined, _⟩
  · exact kept
  · obtain ⟨f, found, formed, predicates, again⟩ := exists_of_refine refined
    refine ⟨fun u member => ?_, by rw [idle]; nofun, by rw [idle]; nofun⟩
    obtain ⟨t, inside, _, rfl⟩ := again u member
    exact .refined (occurs.atHand w judged) formed predicates (occurs.reached t inside)

theorem occurs_of_comes
    (comes : setting.analysis.withStatistics.Comes setting.refiner limits first states after m) :
    Everywhere setting.Occurs m := by
  induction comes with
  | start given =>
    obtain ⟨_, members, _⟩ := @SearchSets.sound_start _
      setting.analysis.withStatistics.partitionKey _ states
    exact ⟨fun s member => .initial given ((members s).1 member), nofun, nofun⟩
  | step comes advances ih => exact occurs_of_advances (placed_of_comes comes) ih advances

/-! ### Summaries -/

/-- The summaries of all states that occur come from expressions. -/
theorem obtained_of_occurs (occurs : setting.Occurs s) : s.summary.Obtained := by
  induction occurs with
  | initial given member =>
    obtain ⟨_, _, _, _, _, summary, _⟩ := yields_initial given member
    exact summary ▸ .top
  | successor _ given member obtained =>
    rw [(succeeds_of_mem given member).1]
    exact obtained
  | widened _ given obtained =>
    rcases yields_widen given with ⟨_, rfl⟩ | ⟨_, _, _, widened, rfl, _⟩
    · exact obtained
    · exact PredicateDomain.obtained_of_widen widened
  | merged _ _ wanted given _ obtained =>
    obtain ⟨_, _, _, summary, _⟩ := yields_merge wanted given
    rw [summary, Formula.disjunction_self]
    exact obtained
  | refined _ _ _ _ _ obtained => exact obtained

theorem obtained_of_comes
    (comes : setting.analysis.withStatistics.Comes setting.refiner limits first states after m) :
    ∀ s ∈ m.search.reached.toList, s.summary.Obtained := fun s member =>
  obtained_of_occurs ((occurs_of_comes comes).reached s member)

end Verification

end EventCheck
