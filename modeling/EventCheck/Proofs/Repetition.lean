import EventCheck.Proofs.Admissions
import EventCheck.Proofs.Encounters
import EventCheck.Proofs.Kinship
import EventCheck.Proofs.Partitions
import Mathlib.Data.List.ProdSigma

/-!
Searches that summarise every step and merge nothing. All reached states have been reset, so
whatever their versions are, a state is covered by another one with the same threads whose summary
includes its own. No state that is admitted repeats an earlier one, and there are no more reached
states than ways to combine the threads with what the predicates can say.
-/

namespace EventCheck

open PredicateDomain SingleAssignment

/-! ### Covers -/

namespace Abstraction

variable {σ : Type} {a : Analysis σ} {domain : PredicateDomain} {s r : AbstractionState σ}
variable {states : List (AbstractionState σ)} {before after : Context}

/-- A state of the same block that includes the summary and covers what is inside is found. -/
theorem not_uncovered_of_mem {summary : Formula} (obtained : ∀ r ∈ states, r.summary.Obtained)
    (member : r ∈ states) (block : r.blockId = s.blockId)
    (included : domain.included summary (r.summary.rename Variable.base) = .ok true)
    (inside : a.stop s.inner [r.inner] = pure true) :
    ¬(coveredIn domain a s summary states).Yields before false after := by
  induction states generalizing before with
  | nil => cases member
  | cons t rest ih =>
    obtain ⟨here, others⟩ := List.forall_mem_cons.1 obtained
    have stripped := here.stripVersions_eq
    intro given
    unfold coveredIn at given
    rcases List.mem_cons.1 member with rfl | later
    · rw [if_neg (not_not.2 block)] at given
      simp only [stripped, included, inside, Run.ofExcept, pure_bind, if_true] at given
      cases (Run.yields_pure.1 given).1
    · have deeper : ∀ start, ¬(coveredIn domain a s summary rest).Yields start false after :=
        fun start => ih others later
      split at given
      · exact deeper before given
      · obtain ⟨answer, compared⟩ :=
          domain.exists_included summary (here.rename (r := Variable.base) fun _ => rfl)
        simp only [stripped, compared, Run.ofExcept, pure_bind] at given
        cases answer with
        | false => exact deeper before given
        | true =>
          obtain ⟨covers, middle, _, given⟩ := Run.yields_bind.1 given
          cases covers with
          | false => exact deeper middle given
          | true => cases (Run.yields_pure.1 given).1

end Abstraction

namespace Verification

variable {σ : Type} [DecidableEq σ] {setting : Setting σ} {blank : σ} {precision : Precision}
variable {r s t w : State σ} {limits : SearchLimits} {first before after : Context}
variable {states : List (State σ)}

/-- Every step is summarised, and a reset leaves nothing known of the data, as at the start. -/
structure Setting.Resets (setting : Setting σ) (blank : σ) : Prop where
  points : setting.points = .always
  separate : setting.Separate
  initial : setting.data.initial = [blank]
  reset : ∀ m, setting.data.resetPath m = blank
  covers : setting.data.stop blank [blank] = .ok true
  formula : setting.data.formula blank = .ok .top

/-- The state is at the start of a block, and its summary says what the predicates can say. -/
structure Setting.AtStart (setting : Setting σ) (blank : σ) (precision : Precision) (s : State σ) :
    Prop where
  blockId : s.blockId = setting.analysis.partitionKey s
  block : s.ssa.block = .top
  data : s.ssa.inner = blank
  summary : s.summary.rename Variable.base ∈ summariesOver precision

/-- The state has the threads of the other one, whose summary includes its own but for versions. -/
def Setting.Repeats (setting : Setting σ) (r s : State σ) : Prop :=
  r.threads = s.threads ∧ ∃ f g, s.summary.stripVersions = .ok f ∧
    r.summary.stripVersions = .ok g ∧ setting.domain.included f g = .ok true

/-- At the starts of blocks, states with the same threads cover each other inside, whatever their
versions are. -/
theorem stop_of_atStart (resets : setting.Resets blank) (left : setting.AtStart blank precision s)
    (right : setting.AtStart blank precision r) (same : r.threads = s.threads) :
    ((setting.data.withVersions.withLabels.scheduled setting.task
      setting.policy).withProvenance).stop s.inner [r.inner] = pure true := by
  have versions : SingleAssignment.coveredBy setting.data s.ssa r.ssa = .ok true := by
    have nothing : Formula.top.isTrue = true := Formula.isTrue_iff.2 rfl
    unfold SingleAssignment.coveredBy
    rw [right.block, left.data, right.data, resets.covers, resets.formula]
    simp [bind, Except.bind, pure, Except.pure, nothing]
  have threads : Control.coveredBy setting.data.withVersions.withLabels s.inner.inner
      r.inner.inner = [r.ssa].anyM (SingleAssignment.coveredBy setting.data s.ssa) := if_pos same
  show Run.ofExcept ([r.inner.inner].anyM
    (Control.coveredBy setting.data.withVersions.withLabels s.inner.inner)) = pure true
  rw [List.anyM_cons, threads, List.anyM_cons, versions]
  rfl

/-- A state that is not covered repeats no reached state. -/
theorem not_repeats_of_uncovered (resets : setting.Resets blank)
    {reached : Reached setting.analysis.partitionKey}
    (keyed : reached.groups.Keyed setting.analysis.partitionKey)
    (starts : ∀ r ∈ reached.toList, setting.AtStart blank precision r)
    (obtained : ∀ r ∈ reached.toList, r.summary.Obtained)
    (here : setting.AtStart blank precision w)
    (given : (setting.analysis.withStatistics.stop w (reached.partitionOf w)).Yields before false
      after) : ∀ r ∈ reached.toList, ¬setting.Repeats r w := by
  rintro r member ⟨same, f, g, stripped, other, included⟩
  obtain ⟨_, _, stopped, _⟩ := yields_stop_withStatistics given
  have stopped : (Abstraction.stop setting.domain _ w (reached.partitionOf w)).Yields _ false _ :=
    stopped
  have partition : r ∈ reached.partitionOf w := by
    have group := keyed.mem_iff.1 (Reached.mem_toList.1 member)
    rwa [key_of_threads same] at group
  unfold Abstraction.stop at stopped
  split at stopped
  · cases (Run.yields_pure.1 stopped).1
  · rw [stripped] at stopped
    refine Abstraction.not_uncovered_of_mem
      (fun t inside => obtained t (Reached.mem_of_partitionOf inside)) partition ?_ ?_
      (stop_of_atStart resets here (starts r member) same) stopped
    · rw [(starts r member).blockId, here.blockId, key_of_threads same]
    · rw [(obtained r member).stripVersions_eq] at other
      rw [Except.ok.inj other]
      exact included

/-! ### The operations -/

theorem top_mem_summariesOver : Formula.top ∈ summariesOver precision := by
  have trivial : .top ∈ cubesOver precision := mem_cubesOver (List.forall_mem_nil _)
  exact mem_summariesOver (List.forall_mem_singleton.2 trivial)

/-- Predicates that are found have no versions. -/
theorem unversioned_predicatesOf {f : Formula} : Unversioned (Refiner.predicatesOf f) :=
  fun _ member => (Refiner.mem_predicatesOf.1 member).unversioned

theorem atStart_initial (resets : setting.Resets blank)
    (given : setting.analysis.initial.Yields before states after) (member : s ∈ states) :
    setting.AtStart blank precision s := by
  obtain ⟨i, listed, _, _, ssa, summary, _⟩ := yields_initial given member
  rw [resets.initial] at listed
  obtain rfl := List.mem_singleton.1 listed
  obtain ⟨_, _, inner, _, _, _, rfl⟩ := numbered_initial given
  obtain ⟨p, _, rfl⟩ := List.mem_map.1 member
  exact ⟨rfl, by rw [ssa], by rw [ssa], summary ▸ top_mem_summariesOver⟩

theorem length_initial (resets : setting.Resets blank)
    (given : setting.analysis.initial.Yields before states after) : states.length = 1 := by
  obtain ⟨_, _, inner, _, numbered, _, rfl⟩ := numbered_initial given
  have data : (setting.data.withVersions.withLabels.initial).length = setting.data.initial.length :=
    List.length_map _ |>.trans (List.length_map _)
  rw [List.length_map, ← numbered.length, List.length_map, data, resets.initial]
  rfl

/-- Widening ends the block and begins the next one. -/
theorem atStart_widen (resets : setting.Resets blank) (unversioned : Unversioned precision)
    (same : s.precision = precision) {reached : List (State σ)}
    (given : (setting.analysis.withStatistics.widen s reached).Yields before t after) :
    setting.AtStart blank precision t ∧ t.precision = precision := by
  obtain ⟨_, given, _⟩ := yields_widen_withStatistics given
  have summarized := (Run.yields_ofExcept.1 given).1
  rcases Abstraction.summarize_eq_ok summarized with ⟨away, _⟩ | ⟨_, block, summary, inner, _,
    widened, reset, rfl⟩
  · rw [resets.points] at away
    cases away
  · obtain ⟨control, reset, built⟩ := bind_eq_ok_iff.1 reset
    obtain rfl := Except.ok.inj reset
    obtain rfl := pure_eq_ok_iff.1 built
    subst same
    exact ⟨⟨rfl, rfl, resets.reset _, rename_widen_mem unversioned widened⟩, rfl⟩

/-! ### Along a search -/

/-- Where a search stands: all its states have the same predicates, and the reached ones and the one
under consideration are at the start of a block. -/
structure Setting.Resetting (setting : Setting σ) (blank : σ) (precision : Precision)
    (m : Course setting.analysis.withStatistics.partitionKey) : Prop where
  unversioned : Unversioned precision
  same : Everywhere (·.precision = precision) m
  reached : ∀ s ∈ m.search.reached.toList, setting.AtStart blank precision s
  merged : ∀ w rest, m.phase = .merged w rest → setting.AtStart blank precision w

variable {m next : Course setting.analysis.withStatistics.partitionKey}

theorem Setting.Resetting.admit (resetting : setting.Resetting blank precision m)
    (sound : m.search.toSearchSets.Sound) {rest : List (State σ)}
    (merged : m.phase = .merged w rest) :
    ∀ s ∈ (m.search.reached.insert w).toList,
      setting.AtStart blank precision s ∧ s.precision = precision := by
  intro s member
  rcases (Reached.mem_insert sound.reached).1 member with rfl | member
  · refine ⟨resetting.merged _ _ merged, resetting.same.coming _ ?_⟩
    rw [merged]
    exact List.mem_cons_self
  · exact ⟨resetting.reached s member, resetting.same.reached s member⟩

/-- A reached state without predecessors has no summary yet, so it is at its start with whatever
predicates a search starts over. -/
theorem Setting.Resetting.root (resetting : setting.Resetting blank precision m)
    (comes : setting.analysis.withStatistics.Comes setting.refiner limits first states before m)
    (inside : t ∈ m.search.reached.toList) (root : t.IsRoot) (predicates : Precision) :
    setting.AtStart blank predicates (t.withPrecision predicates) := by
  have start := resetting.reached t inside
  have roots := roots_of_comes comes
  obtain ⟨_, began⟩ := exists_initial_of_comes comes
  obtain ⟨b, given, _, same⟩ := roots.initial t (roots.rooted t inside root)
  obtain ⟨_, _, _, _, _, top, _⟩ := yields_initial began given
  refine ⟨start.blockId, start.block, start.data, ?_⟩
  rw [same]
  show b.summary.rename Variable.base ∈ _
  rw [top]
  exact top_mem_summariesOver

theorem resetting_of_advances (resets : setting.Resets blank)
    (comes : setting.analysis.withStatistics.Comes setting.refiner limits first states before m)
    (resetting : setting.Resetting blank precision m)
    (advances : setting.analysis.withStatistics.Advances setting.refiner limits before m after
      next) : ∃ precision, setting.Resetting blank precision next := by
  have origins := (placed_of_comes comes).origins
  obtain ⟨unversioned, ⟨reached, coming, atHand⟩, starts, merges⟩ := id resetting
  cases advances with
  | pop idle taken =>
    refine ⟨precision, unversioned, ⟨reached, nofun, List.forall_mem_singleton.2 ?_⟩, starts, nofun⟩
    obtain ⟨queue, _⟩ := origins.sound.frontier.pop taken
    exact reached _ (origins.waits _ (queue ▸ List.mem_cons_self))
  | @follow _ _ s _ taken followed =>
    rw [taken] at atHand
    obtain ⟨_, followed, _⟩ := yields_successors_withStatistics followed
    refine ⟨precision, unversioned, ⟨reached, fun t member => ?_, nofun⟩, starts, nofun⟩
    rw [(succeeds_of_mem followed member).1]
    exact atHand s (List.mem_singleton_self s)
  | merge expanding room widened merged =>
    rename_i successor w rest sets
    rw [expanding] at coming
    obtain ⟨here, later⟩ := List.forall_mem_cons.1 coming
    obtain ⟨rfl, _⟩ := Analysis.mergeInto_of_apart
      (a := setting.analysis.withStatistics) (resets.separate.apart w) merged
    obtain ⟨start, same⟩ := atStart_widen resets unversioned here widened
    refine ⟨precision, unversioned, ⟨reached, List.forall_mem_cons.2 ⟨same, later⟩, nofun⟩, starts,
      fun v others equal => ?_⟩
    obtain ⟨rfl, rfl⟩ := Phase.merged.inj equal
    exact start
  | cover merged =>
    rw [merged] at coming
    obtain ⟨_, later⟩ := List.forall_mem_cons.1 coming
    exact ⟨precision, unversioned, ⟨reached, later, nofun⟩, starts, nofun⟩
  | accept merged =>
    have admitted := resetting.admit origins.sound merged
    rw [merged] at coming
    exact ⟨precision, unversioned, ⟨fun s member => (admitted s member).2,
      (List.forall_mem_cons.1 coming).2, nofun⟩, fun s member => (admitted s member).1, nofun⟩
  | violate merged =>
    have admitted := resetting.admit origins.sound merged
    rw [merged] at coming
    obtain ⟨here, later⟩ := List.forall_mem_cons.1 coming
    exact ⟨precision, unversioned, ⟨fun s member => (admitted s member).2, later,
      List.forall_mem_singleton.2 here⟩, fun s member => (admitted s member).1, nofun⟩
  | doubt judging =>
    rw [judging] at coming
    exact ⟨precision, unversioned, ⟨reached, coming, nofun⟩, starts, nofun⟩
  | @refine _ w _ _ judging check budget refined =>
    rw [judging] at atHand
    obtain ⟨f, found, _, predicates, again⟩ := exists_of_refine refined
    refine ⟨w.precision ∪ found, fun e member v occurs => ?_, ⟨fun s member => ?_, nofun, nofun⟩,
      fun s member => ?_, nofun⟩
    · rcases SortedSet.mem_union.1 member with known | new
      · exact unversioned e (atHand w (List.mem_singleton_self w) ▸ known) v occurs
      · exact unversioned_predicatesOf e (predicates e new) v occurs
    · obtain ⟨_, _, _, rfl⟩ := again s member
      rfl
    · obtain ⟨t, inside, root, rfl⟩ := again s member
      exact resetting.root comes inside root _
  | finish => exact ⟨precision, unversioned, ⟨reached, nofun, nofun⟩, starts, nofun⟩

theorem resetting_of_comes (resets : setting.Resets blank)
    (comes : setting.analysis.withStatistics.Comes setting.refiner limits first states after m) :
    ∃ precision, setting.Resetting blank precision m := by
  induction comes with
  | start given =>
    obtain ⟨_, members, _⟩ := @SearchSets.sound_start _
      setting.analysis.withStatistics.partitionKey _ states
    refine ⟨∅, fun e member => absurd member (SortedSet.not_mem_empty e),
      ⟨fun s member => ?_, nofun, nofun⟩,
      fun s member => atStart_initial resets given ((members s).1 member), nofun⟩
    obtain ⟨_, _, _, _, _, _, _, none⟩ := yields_initial given ((members s).1 member)
    exact none
  | step comes advances ih =>
    obtain ⟨precision, resetting⟩ := ih
    exact resetting_of_advances resets comes resetting advances

/-! ### Without repetition -/

/-- The thread lists of the states, each of them once. -/
def threadsOf (states : List (State σ)) : List (List Thread) := (states.map State.threads).dedup

/-- The summaries of the states without their versions, each of them once. -/
def summariesOf (states : List (State σ)) : List Formula :=
  (states.filterMap (·.summary.stripVersions.toOption)).dedup

/-- What holds of the states that a search has admitted since it last started: none repeats an
earlier one, so there are at most as many as pairs of their thread lists and their summaries without
versions, and the latter are among those that their common predicates can say. -/
structure Setting.AdmitsOnce (setting : Setting σ)
    (m : Course setting.analysis.withStatistics.partitionKey) : Prop where
  perm : m.admitted.Perm m.search.reached.toList
  fresh : m.admitted.Pairwise fun r s => ¬setting.Repeats r s
  size : m.search.reached.size ≤
    (threadsOf m.search.reached.toList).length * (summariesOf m.search.reached.toList).length
  summaries : ∃ precision, (∀ s ∈ m.search.reached.toList, s.precision = precision ∧
    ∃ f ∈ summariesOver precision, s.summary.stripVersions = .ok f) ∧
    (summariesOf m.search.reached.toList).length ≤ (summariesOver precision).length

omit [DecidableEq σ] in
/-- A state with the threads and, but for versions, the summary of another one repeats it. -/
theorem repeats_of_eq (left : r.summary.Obtained) (right : s.summary.Obtained)
    (threads : r.threads = s.threads)
    (same : r.summary.rename Variable.base = s.summary.rename Variable.base) :
    setting.Repeats r s :=
  ⟨threads, _, _, right.stripVersions_eq, left.stripVersions_eq, by
    rw [same]
    exact if_pos (Formula.implies_refl _)⟩

omit [DecidableEq σ] in
/-- States that do not repeat each other differ in their threads or their summaries. -/
theorem size_le_of_pairwise {admitted : List (State σ)} (perm : admitted.Perm states)
    (obtained : ∀ s ∈ states, s.summary.Obtained)
    (fresh : admitted.Pairwise fun r s => ¬setting.Repeats r s) :
    states.length ≤ (threadsOf states).length * (summariesOf states).length := by
  let pair := fun s : State σ => (s.threads, s.summary.rename Variable.base)
  have distinct : (states.map pair).Nodup := by
    refine (perm.map pair).nodup_iff.1 (List.pairwise_map.2 ?_)
    refine fresh.imp_of_mem fun left right apart same => apart ?_
    obtain ⟨threads, summaries⟩ := Prod.mk.inj same
    exact repeats_of_eq (obtained _ (perm.mem_iff.1 left)) (obtained _ (perm.mem_iff.1 right))
      threads summaries
  have inside : states.map pair ⊆ threadsOf states ×ˢ summariesOf states := by
    intro entry listed
    obtain ⟨s, member, rfl⟩ := List.mem_map.1 listed
    refine List.mem_product.2 ⟨List.mem_dedup.2 (List.mem_map_of_mem member),
      List.mem_dedup.2 (List.mem_filterMap.2 ⟨s, member, ?_⟩)⟩
    rw [(obtained s member).stripVersions_eq]
    rfl
  have few := (List.subperm_of_subset distinct inside).length_le
  rwa [List.length_map, List.length_product] at few

/-- No admitted state repeats an earlier one. -/
theorem pairwise_of_comes (resets : setting.Resets blank)
    (comes : setting.analysis.withStatistics.Comes setting.refiner limits first states after m) :
    m.admitted.Pairwise fun r s => ¬setting.Repeats r s := by
  refine Analysis.pairwise_admitted (a := setting.analysis.withStatistics) resets.separate.apart
    widensAnew_standard restartsWithin_standard (fun context m comes => ?_)
    (fun context m w rest c d comes merged given => ?_) comes
  · obtain ⟨_, began⟩ := exists_initial_of_comes comes
    have few := Analysis.size_begun_le (a := setting.analysis.withStatistics)
      restartsWithin_standard (Nat.le_refl _) comes
    rw [length_initial resets began, Reached.size] at few
    generalize m.begun.reached.toList = begun at few ⊢
    rcases begun with _ | ⟨b, _ | _⟩
    · exact .nil
    · exact List.pairwise_singleton _ b
    · simp at few
  · obtain ⟨precision, resetting⟩ := resetting_of_comes resets comes
    exact not_repeats_of_uncovered resets (placed_of_comes comes).origins.sound.reached
      resetting.reached (obtained_of_comes comes) (resetting.merged w rest merged) given

/-- At every moment of a search that resets its states no admitted state repeats an earlier one. -/
theorem admitsOnce_of_comes (resets : setting.Resets blank)
    (comes : setting.analysis.withStatistics.Comes setting.refiner limits first states after m) :
    setting.AdmitsOnce m := by
  have records := Analysis.records_of_comes (a := setting.analysis.withStatistics)
    resets.separate.apart widensAnew_standard restartsWithin_standard comes
  have fresh := pairwise_of_comes resets comes
  have obtained := obtained_of_comes comes
  obtain ⟨precision, resetting⟩ := resetting_of_comes resets comes
  have listed : ∀ s ∈ m.search.reached.toList, ∃ f ∈ summariesOver precision,
      s.summary.stripVersions = .ok f := fun s member =>
    ⟨_, (resetting.reached s member).summary, (obtained s member).stripVersions_eq⟩
  refine ⟨records.perm_admitted, fresh, size_le_of_pairwise records.perm_admitted obtained fresh,
    precision, fun s member => ⟨resetting.same.reached s member, listed s member⟩, ?_⟩
  refine (List.subperm_of_subset (List.nodup_dedup _) fun f member => ?_).length_le
  obtain ⟨s, inside, stripped⟩ := List.mem_filterMap.1 (List.mem_dedup.1 member)
  obtain ⟨g, known, same⟩ := listed s inside
  rw [same] at stripped
  exact Option.some.inj stripped ▸ known

/-! ### The standard domains -/

theorem resets_symbolicMemory (task : Task) (policy : WaitPolicy) (domain : PredicateDomain) :
    Setting.Resets ⟨task, policy, domain, .always, symbolicMemory .sep⟩ .top :=
  ⟨rfl, fun _ _ => rfl, rfl, fun _ => rfl, rfl, rfl⟩

theorem resets_knownValues (task : Task) (policy : WaitPolicy) (domain : PredicateDomain) :
    Setting.Resets ⟨task, policy, domain, .always, knownValues .sep⟩ .top :=
  ⟨rfl, fun _ _ => rfl, rfl, fun _ => rfl, rfl, rfl⟩

/-- At every moment no admitted state repeats one that was admitted before it, and what is done next
admits states in the recorded order. -/
def Setting.NeverRepeats (setting : Setting σ) : Prop :=
  ∀ (limits : SearchLimits) (first : Context) (states : List (State σ)) (context : Context)
    (m : Course setting.analysis.withStatistics.partitionKey),
    setting.analysis.withStatistics.Comes setting.refiner limits first states context m →
    setting.AdmitsOnce m ∧ ∀ after next,
      setting.analysis.withStatistics.Advances setting.refiner limits context m after next →
      setting.analysis.withStatistics.Admits m next

theorem neverRepeats_of_resets (resets : setting.Resets blank) : setting.NeverRepeats := by
  intro limits first states context m comes
  refine ⟨admitsOnce_of_comes resets comes, fun after next advances => ?_⟩
  have records := Analysis.records_of_comes (a := setting.analysis.withStatistics)
    resets.separate.apart widensAnew_standard restartsWithin_standard comes
  exact (Analysis.records_of_advances (a := setting.analysis.withStatistics) resets.separate.apart
    (widensAnew_standard _ _ (comes.step advances))
    (fun w rest begun judging refined =>
      (restartsWithin_standard _ _ w rest begun comes judging refined).1) advances records).2

/-- With either domain, searches that summarise every step and merge nothing never repeat
themselves. -/
theorem neverRepeats_standard (task : Task) (policy : WaitPolicy) (domain : PredicateDomain) :
    Setting.NeverRepeats ⟨task, policy, domain, .always, symbolicMemory .sep⟩ ∧
      Setting.NeverRepeats ⟨task, policy, domain, .always, knownValues .sep⟩ :=
  ⟨neverRepeats_of_resets (resets_symbolicMemory task policy domain),
    neverRepeats_of_resets (resets_knownValues task policy domain)⟩

/-- The moment of a search of a program with a loop at which it has come round once. -/
def roundsSettle : Bool :=
  roundsThenFails.toOption.any fun task =>
    match (Setting.separating task).analysis.withStatistics.initial.outcome {} with
    | (.ok states, context) =>
      ((Setting.separating task).analysis.withStatistics.advanceTimes
        (Setting.separating task).refiner {} 12 context (.start states)).any fun (_, m) =>
          m.search.reached.size == 3 && m.widened.length == 3
    | _ => false

theorem roundsSettle_eq_true : roundsSettle = true := by decide +kernel

/-- The state after the round is not admitted again. -/
theorem exists_admitsOnce : ∃ (task : Task) (states : List (State Formula)) (context : Context)
    (m : Course (Setting.separating task).analysis.withStatistics.partitionKey),
    roundsThenFails = .ok task ∧ m.search.reached.size = 3 ∧ m.widened.length = 3 ∧
      (Setting.separating task).analysis.withStatistics.Comes (Setting.separating task).refiner {}
        {} states context m ∧ (Setting.separating task).AdmitsOnce m := by
  obtain ⟨task, created, checked⟩ := (Option.any_eq_true _ _).1 roundsSettle_eq_true
  have made := toOption_eq_some_iff.1 created
  split at checked
  · rename_i states start began
    obtain ⟨⟨context, m⟩, reached, checked⟩ := (Option.any_eq_true _ _).1 checked
    have comes := Analysis.comes_of_advanceTimes (.start began) reached
    rw [Bool.and_eq_true, beq_iff_eq, beq_iff_eq] at checked
    obtain ⟨size, widened⟩ := checked
    have never : (Setting.separating task).NeverRepeats :=
      (neverRepeats_standard task .approximate ⟨.enumeration 8, .boolean⟩).1
    exact ⟨task, states, context, m, made, size, widened, comes,
      (never {} {} states context m comes).1⟩
  · cases checked

end Verification

end EventCheck
