import EventCheck.Proofs.Coverage
import EventCheck.Proofs.Enumeration
import EventCheck.Proofs.Occurring
import EventCheck.Proofs.Search

/-!
Soundness of the verdict that a program is safe. A state covers configurations by its threads and
by the environments that its summary and its data allow, whatever its path is. Every operation of
the search is sound for that, so once no state waits, the reached ones cover all that runs of the
program come to.
-/

namespace EventCheck

open SingleAssignment

namespace Verification

variable {σ : Type} [DecidableEq σ] {setting : Setting σ} {meaning : Meaning setting.data}
variable {s t u : State σ} {c d : Configuration} {before after : Context}

/-- The state has the threads of the configuration, and its summary and data allow the values. -/
def State.Covers {data : LabeledAnalysis σ} (meaning : Meaning data) (s : State σ)
    (c : Configuration) : Prop :=
  s.threads = c.threads ∧ ∃ assigned : Environment, assigned.Typed ∧
    s.summary.Holds assigned.lookup ∧ s.ssa.Admits meaning assigned ∧
    s.ssa.versions.Reads assigned c.env

omit [DecidableEq σ] in
theorem State.Covers.possible {data : LabeledAnalysis σ} {meaning : Meaning data} (covers : s.Covers meaning c) : s.summary.isFalse = false := by
  obtain ⟨_, assigned, _, holds, _⟩ := covers
  exact Formula.not_isFalse_of_holds holds

/-- The initial state covers all configurations that runs start from. -/
theorem covers_initial {states : List (State σ)}
    (given : setting.analysis.initial.Yields {} states after) (member : s ∈ states)
    (starts : setting.task.Starts c) : s.Covers meaning c := by
  obtain ⟨i, listed, started, _, ssa, summary, _⟩ := yields_initial given member
  obtain ⟨only, same, admits, _⟩ := meaning.initial
  obtain rfl := List.mem_singleton.1 (same ▸ listed)
  refine ⟨Except.ok.inj (started.symm.trans starts.threads), c.env.unversioned,
    starts.typed.unversioned, ?_, ?_, s.ssa.versions.reads_unversioned c.env⟩
  · rw [summary]
    exact Formula.holds_top
  · rw [ssa]
    exact ⟨admits _, Formula.holds_top⟩

/-! ### States of plain programs -/

/-- The state occurs in searches through a plain program. -/
abbrev State.Plain {data : LabeledAnalysis σ} (meaning : Meaning data) (s : State σ) : Prop :=
  s.Formed meaning (TotalOver fun _ => True) fun v => v.version = none

variable (meaning) in
theorem plain_of_occurs (plain : setting.task.Plain) (occurs : setting.Occurs s) :
    s.Plain meaning := by
  have anything : setting.task.PlainOver fun _ => True :=
    Task.Uses.imp (fun _ target => ⟨target, trivial⟩) (fun _ source => ⟨source, fun _ _ => trivial⟩)
      plain
  have formed := formed_of_occurs meaning
    (setting.obeys_totalOver anything fun _ _ => trivial) occurs
  exact { formed with returns := formed.returns.imp fun _ both => both.1 }

theorem allowed_plain {statement : Statement} (plain : statement.Plain) :
    Allowed (TotalOver fun _ => True) statement :=
  allowed_totalOver (plain.imp (fun _ target => ⟨target, trivial⟩)
    fun _ source => ⟨source, fun _ _ => trivial⟩)

omit [DecidableEq σ] in
theorem State.Formed.decided {data : LabeledAnalysis σ} {meaning : Meaning data}
    (formed : s.Plain meaning) : s.summary.Decided :=
  formed.summary.imp fun _ bounded => bounded.1.1

/-! ### Successors -/

/-- What the states inside describe while a step from the given state is followed. -/
def State.Follows {data : LabeledAnalysis σ} (meaning : Meaning data) (s : State σ)
    (l : LabelState (SsaState σ)) (env : Environment) : Prop :=
  l.inner.Fits meaning (TotalOver fun _ => True) ∧ s.ssa.versions.Below l.inner.versions ∧
    ∃ assigned : Environment, assigned.Typed ∧ s.summary.Holds assigned.lookup ∧
      l.inner.Admits meaning assigned ∧ l.inner.versions.Reads assigned env

omit [DecidableEq σ] in
theorem advances_follows {data : LabeledAnalysis σ} {meaning : Meaning data}
    (formed : s.Plain meaning) :
    Control.Advances data.withVersions.withLabels (s.Follows meaning) := by
  rintro l operation next env after ⟨fits, below, assigned, typed, holds, admits, reads⟩ plain
    executed stepped
  obtain ⟨inner, transfers, followed, rfl⟩ := StepLabel.step_eq_ok stepped
  obtain ⟨t, member, extended, typedAfter, same, admitsAfter, readsAfter⟩ :=
    exists_mem_step fits plain typed admits reads executed followed
  obtain ⟨_, _, versions, _⟩ := mem_step followed member
  have rule : AtomRule (TotalOver fun _ => True) := AtomRule.total.and (AtomRule.over _)
  refine ⟨_, List.mem_map.2 ⟨t, member, rfl⟩,
    step_fits rule (allowed_plain plain) followed fits t member, fun v => ?_, extended, typedAfter,
    ?_, admitsAfter, readsAfter⟩
  · rw [versions]
    exact Nat.le_trans (below v) (below_versionsAfter _ _ v)
  · have within := (formed.summary.imp fun _ bounded => bounded.2).within
    exact (within.holds_iff fun v covers => congrArg some (same v (covers.mono below))).1 holds

/-- A move from a covered configuration leads to one that a successor covers. -/
theorem covers_successor (formed : s.Plain meaning) (plain : setting.task.Plain)
    {states : List (State σ)}
    (given : (setting.analysis.successors s).Yields before states after)
    (covers : s.Covers meaning c) (moves : setting.task.Moves setting.policy c d) :
    ∃ t ∈ states, t.Covers meaning d := by
  have possible := covers.possible
  obtain ⟨threads, assigned, typed, holds, admits, reads⟩ := covers
  rcases yields_successors given with ⟨false, _⟩ | ⟨_, controls, middle, inner, succeeded, numbered,
    _, rfl⟩
  · simp [possible] at false
  · have start : s.Follows meaning s.inner.inner.inner c.env :=
      ⟨formed.ssa, fun _ => Nat.le_refl _, assigned, typed, holds, admits, reads⟩
    have moves : setting.task.Moves setting.policy ⟨s.inner.inner.threads, c.env⟩ d :=
      (show s.inner.inner.threads = c.threads from threads) ▸ moves
    obtain ⟨k, member, same, _, _, assigned, typed, holds, admits, reads⟩ :=
      Control.exists_successor (advances_follows formed) plain formed.returns succeeded moves start
    obtain ⟨p, inside, rfl⟩ := numbered.exists_of_inner member
    exact ⟨_, List.mem_map.2 ⟨p, inside, rfl⟩, same, assigned, typed, holds, admits, reads⟩

/-! ### Widening and coverage -/

/-- The state has just been widened: all that it knows is in its summary, over current versions. -/
structure State.Widened (data : LabeledAnalysis σ) (s : State σ) : Prop where
  block : s.ssa.block = .top
  inner : ∃ before, s.ssa.inner = data.resetPath before
  summary : s.summary.Within fun v => ∃ w, v = s.ssa.versions.current w

/-- At an abstraction point a widened state covers what the state did. -/
theorem covers_widen (sound : setting.domain.solver.Sound) (points : setting.points = .always)
    (formed : s.Plain meaning) {reached : List (State σ)}
    (given : (setting.analysis.widen s reached).Yields before t after) :
    t.Widened setting.data ∧ t.inner.provenance = s.inner.provenance ∧
      ∀ c, s.Covers meaning c → t.Covers meaning c := by
  rcases yields_widen given with ⟨away, _⟩ | ⟨block, summary, built, widened, rfl, _, _, threads, _,
    provenance, ssa⟩
  · cases points.symm.trans away
  · have versions : t.ssa.versions = s.ssa.versions := by rw [ssa]; rfl
    refine ⟨⟨by rw [ssa]; rfl, ⟨s.ssa.inner, by rw [ssa]; rfl⟩, ?_⟩, provenance, fun c covers => ?_⟩
    · have rule := AtomRule.over fun v => ∃ w, v = s.ssa.versions.current w
      rw [versions]
      refine Formula.Fits.within (PredicateDomain.allAtoms_widen rule.operand rule.negation widened
        fun e member v occurs => ?_)
      obtain ⟨predicate, _, rfl⟩ := List.mem_map.1 (SortedSet.mem_ofList.1 member)
      obtain ⟨w, _, same⟩ := Expression.exists_of_mem_rename occurs
      exact ⟨w, same⟩
    · obtain ⟨same, assigned, typed, holds, admits, reads⟩ := covers
      refine ⟨threads.trans same, assigned, typed, ?_, ?_, versions ▸ reads⟩
      · refine PredicateDomain.widen_holds sound typed (fun e member => ?_) widened ?_
        · obtain ⟨predicate, inside, rfl⟩ := List.mem_map.1 (SortedSet.mem_ofList.1 member)
          exact (formed.precision predicate inside).1.rename fun v =>
            VersionMap.dataType_current _ v
        · obtain ⟨f, other, true⟩ := (SsaState.admits_iff meaning typed).1 admits
          obtain rfl := Except.ok.inj (built.symm.trans other)
          exact Formula.holds_conjunction.2 ⟨holds, true⟩
      · rw [ssa]
        exact ⟨meaning.reset_admits _ _, Formula.holds_top⟩

theorem yields_stop {reached : List (State σ)}
    (given : (setting.analysis.stop s reached).Yields before true after) :
    s.summary.isFalse = true ∨ ∃ summary, s.summary.stripVersions = .ok summary ∧
      ∃ r ∈ reached, ∃ other, r.summary.stripVersions = .ok other ∧
        setting.domain.included summary other = .ok true ∧ r.threads = s.threads ∧
        setting.data.withVersions.stop s.ssa [r.ssa] = .ok true := by
  refine (Abstraction.yields_stop given).imp id fun ⟨summary, stripped, r, member, other, same,
    included, c, d, stopped⟩ => ?_
  have covered := (Run.yields_ofExcept.1 stopped).1
  obtain ⟨found, one, rest⟩ := bind_eq_ok_iff.1 covered
  cases found with
  | false => cases rest
  | true =>
    obtain ⟨threads, inner⟩ := Control.coveredBy_eq_true one
    exact ⟨summary, stripped, r, member, other, same, included, threads, inner⟩

/-- What a widened state covers that is found covered, a reached state covers. -/
theorem covers_stop (sound : setting.domain.solver.Sound) (plain : s.Plain meaning)
    (widened : s.Widened setting.data) {reached : List (State σ)}
    (all : ∀ r ∈ reached, r.Plain meaning)
    (given : (setting.analysis.stop s reached).Yields before true after)
    (covers : s.Covers meaning c) : ∃ r ∈ reached, r.Covers meaning c := by
  have possible := covers.possible
  obtain ⟨threads, assigned, typed, holds, _, reads⟩ := covers
  rcases yields_stop given with false | ⟨summary, stripped, r, member, other, strippedOther,
    included, same, stopped⟩
  · simp [possible] at false
  · -- where all versions have the current values the summary holds as well
    let current : Environment := c.env.unversioned
    have typedCurrent : current.Typed := reads.typed_unversioned typed
    have holdsCurrent : s.summary.Holds current.unversioned.lookup := by
      refine (widened.summary.holds_iff fun v found => ?_).1 holds
      obtain ⟨w, rfl⟩ := found
      exact congrArg some (reads w.base rfl).symm
    obtain ⟨_, first⟩ := plain.decided.stripVersions stripped
    obtain ⟨decided, second⟩ := (all r member).decided.stripVersions strippedOther
    have wider := PredicateDomain.holds_of_included sound decided typedCurrent included
      ((first current typedCurrent).2 holdsCurrent)
    obtain ⟨blocks, inner, _⟩ := stop_eq_true stopped
    obtain ⟨before, reset⟩ := widened.inner
    refine ⟨r, member, same.trans threads, current, typedCurrent,
      (second current typedCurrent).1 wider, ⟨?_, ?_⟩, r.ssa.versions.reads_unversioned c.env⟩
    · exact meaning.stop_admits inner (reset ▸ meaning.reset_admits before current)
    · refine block_of_stop blocks ?_
      rw [widened.block]
      exact Formula.holds_top

/-! ### Merging -/

/-- A merge covers what the second state does. -/
theorem covers_merge (right : t.Plain meaning)
    (wanted : setting.analysis.shouldMerge s t = .ok true)
    (given : (setting.analysis.merge s t).Yields before u after) (covers : t.Covers meaning c) :
    u.Covers meaning c := by
  obtain ⟨_, _, _, data⟩ := shouldMerge_eq_true wanted
  obtain ⟨same, _, combined, summary, _⟩ := yields_merge wanted given
  obtain ⟨threads, assigned, typed, holds, admits, reads⟩ := covers
  rw [meaning.merge_eq data] at combined
  obtain ⟨admitsAfter, readsAfter⟩ :=
    combine_describes_right combined right.ssa meaning.join_admits typed admits reads
  refine ⟨same.trans threads, _, VersionMap.typed_extend typed, ?_, admitsAfter, readsAfter⟩
  have within := (right.summary.imp fun _ bounded => bounded.2).within
  rw [summary, Formula.holds_disjunction, or_self]
  exact (within.holds_iff fun v covers => congrArg some (VersionMap.extend_of_covers covers)).1 holds

theorem target_eq_empty_iff : setting.analysis.target s = ∅ ↔
    (s.summary.isFalse = false → s.inner.inner.targets = ∅) := by
  show (if s.summary.isFalse then ∅ else s.inner.inner.targets : SortedSet Property) = ∅ ↔ _
  cases s.summary.isFalse <;> simp

/-- If the second state violates nothing neither does a merge. -/
theorem target_merge (left : s.Plain meaning) (right : t.Plain meaning)
    (wanted : setting.analysis.shouldMerge s t = .ok true)
    (given : (setting.analysis.merge s t).Yields before u after)
    (empty : setting.analysis.target t = ∅) :
    setting.analysis.target u = ∅ := by
  obtain ⟨_, _, same, _⟩ := shouldMerge_eq_true wanted
  obtain ⟨_, targets, _, summary, _⟩ := yields_merge wanted given
  refine target_eq_empty_iff.2 fun possible => ?_
  have both : s.inner.inner.targets = t.inner.inner.targets := by
    rw [left.targets, right.targets, same]
  have union : u.inner.inner.targets = t.inner.inner.targets := by
    rw [targets, both]
    exact SortedSet.ext_mem fun p => by simp
  rw [union]
  refine target_eq_empty_iff.1 empty (Bool.not_eq_true _ ▸ fun false => ?_)
  -- the disjunction of a false formula with itself is false
  rw [summary, Formula.isFalse_iff.1 false] at possible
  cases possible

/-! ### The search -/

/-- Where a search stands that may still find the program safe. What is reached covers all starts
and, but for states that wait, where their moves lead; some may lead to the states to come. -/
structure Explores (meaning : Meaning setting.data) (rest : List (State σ))
    (sets : SearchSets setting.analysis.partitionKey) : Prop where
  sound : sets.Sound
  occurs : ∀ s ∈ sets.reached.toList, setting.Occurs s
  waits : ∀ s ∈ sets.frontier.queue, setting.Occurs s
  starts : ∀ c, setting.task.Starts c → ∃ s ∈ sets.reached.toList, s.Covers meaning c
  /-- Only what searches start from has no predecessors. -/
  origins : ∀ s ∈ sets.reached.toList, s.inner.provenance.predecessors = ∅ →
    ∀ c, setting.task.Starts c → s.Covers meaning c
  quiet : ∀ s ∈ sets.reached.toList, setting.analysis.target s = ∅
  closed : ∀ s ∈ sets.reached.toList, s ∈ sets.frontier.queue ∨
    ∀ c d, s.Covers meaning c → setting.task.Moves setting.policy c d →
      ∃ t, (t ∈ sets.reached.toList ∨ t ∈ rest) ∧ t.Covers meaning d
  later : ∀ s ∈ rest, setting.Occurs s ∧ s.inner.provenance.predecessors ≠ ∅

variable {rest : List (State σ)} {sets : SearchSets setting.analysis.partitionKey}

/-- A state with predecessors that violates nothing may be admitted. -/
theorem Explores.insert (explores : Explores meaning rest sets) (occurs : setting.Occurs s)
    (origin : s.inner.provenance.predecessors ≠ ∅)
    (quiet : setting.analysis.target s = ∅) :
    Explores meaning rest (sets.insert s) := by
  obtain ⟨sound, reached, waiting⟩ := explores.sound.insert (s := s)
  have kept : ∀ t, t ∈ sets.reached.toList → t ∈ (sets.insert s).reached.toList :=
    fun t member => (reached t).2 (Or.inr member)
  refine ⟨sound, fun t member => ?_, fun t member => ?_, fun c start => ?_,
    fun t member none c start => ?_, fun t member => ?_, fun t member => ?_, explores.later⟩
  · exact ((reached t).1 member).elim (fun same => same ▸ occurs) (explores.occurs t)
  · exact ((waiting t).1 member).elim (fun same => same ▸ occurs) (explores.waits t)
  · obtain ⟨t, member, covers⟩ := explores.starts c start
    exact ⟨t, kept t member, covers⟩
  · rcases (reached t).1 member with rfl | member
    · exact absurd none origin
    · exact explores.origins t member none c start
  · exact ((reached t).1 member).elim (fun same => same ▸ quiet) (explores.quiet t)
  · rcases (reached t).1 member with rfl | member
    · exact Or.inl ((waiting t).2 (Or.inl rfl))
    · refine (explores.closed t member).imp (fun queued => (waiting t).2 (Or.inr queued)) ?_
      intro closed c d covers moves
      obtain ⟨r, inside, covers⟩ := closed c d covers moves
      exact ⟨r, inside.imp_left (kept r), covers⟩

/-- A state that was reached may give way to a merge. -/
theorem Explores.substitute (plain : setting.task.Plain) (explores : Explores meaning rest sets)
    {earlier : SearchSets setting.analysis.partitionKey} (began : Explores meaning rest earlier)
    (member : t ∈ earlier.reached.toList) (occurs : setting.Occurs s)
    (replaces : setting.analysis.Replaces s t u) :
    Explores meaning rest (sets.substitute t u) := by
  obtain ⟨wanted, ⟨before, after, given⟩, changed⟩ := replaces
  obtain ⟨sound, reached, waiting⟩ := explores.sound.substitute changed
  have left := plain_of_occurs meaning plain occurs
  have right := plain_of_occurs meaning plain (began.occurs t member)
  have merged := Setting.Occurs.merged occurs (began.occurs t member) wanted given
  -- what a state covers is covered afterwards, by the merge if the state gave way to it
  have kept : ∀ {c}, (∃ r ∈ sets.reached.toList, r.Covers meaning c) →
      ∃ r ∈ (sets.substitute t u).reached.toList, r.Covers meaning c := by
    rintro c ⟨r, inside, covers⟩
    by_cases same : r = t
    · exact ⟨u, (reached u).2 (Or.inl rfl), covers_merge right wanted given (same ▸ covers)⟩
    · exact ⟨r, (reached r).2 (Or.inr ⟨inside, same⟩), covers⟩
  refine ⟨sound, fun r inside => ?_, fun r inside => ?_, fun c start => kept (explores.starts c start),
    fun r inside none c start => ?_, fun r inside => ?_, fun r inside => ?_, explores.later⟩
  · exact ((reached r).1 inside).elim (fun same => same ▸ merged)
      fun both => explores.occurs r both.1
  · exact ((waiting r).1 inside).elim (fun same => same ▸ merged) fun both => explores.waits r both.1
  · rcases (reached r).1 inside with rfl | ⟨inside, _⟩
    · refine covers_merge right wanted given (began.origins t member ?_ c start)
      refine SortedSet.ext_mem fun id => ⟨fun before => ?_, fun impossible => by simp at impossible⟩
      exact none ▸ predecessors_merge given before
    · exact explores.origins r inside none c start
  · rcases (reached r).1 inside with rfl | ⟨inside, _⟩
    · exact target_merge left right wanted given (began.quiet t member)
    · exact explores.quiet r inside
  · rcases (reached r).1 inside with rfl | ⟨inside, different⟩
    · exact Or.inl ((waiting r).2 (Or.inl rfl))
    · refine (explores.closed r inside).imp
        (fun queued => (waiting r).2 (Or.inr ⟨queued, different⟩)) fun closed c d covers moves => ?_
      obtain ⟨q, either, covers⟩ := closed c d covers moves
      rcases either with inside | inside
      · obtain ⟨p, inside, covers⟩ := kept ⟨q, inside, covers⟩
        exact ⟨p, Or.inl inside, covers⟩
      · exact ⟨q, Or.inr inside, covers⟩

/-- What a state to come covers may be covered by reached ones instead. -/
theorem Explores.advance (explores : Explores meaning (s :: rest) sets)
    (covered : ∀ c, s.Covers meaning c → ∃ r ∈ sets.reached.toList, r.Covers meaning c) :
    Explores meaning rest sets :=
  { explores with
    closed := fun t member => (explores.closed t member).imp_right fun closed c d covers moves => by
      obtain ⟨r, either, covers⟩ := closed c d covers moves
      rcases either with inside | inside
      · exact ⟨r, Or.inl inside, covers⟩
      · rcases List.mem_cons.1 inside with rfl | inside
        · obtain ⟨q, inside, covers⟩ := covered d covers
          exact ⟨q, Or.inl inside, covers⟩
        · exact ⟨r, Or.inr inside, covers⟩
    later := fun t member => explores.later t (List.mem_cons_of_mem s member) }

/-- The first state of the queue may be expanded. -/
theorem Explores.pop (plain : setting.task.Plain) {frontier : Frontier setting.analysis.partitionKey}
    (explores : Explores meaning [] sets) (popped : sets.frontier.pop? = some (s, frontier))
    {states : List (State σ)}
    (given : (setting.analysis.successors s).Yields before states after) :
    Explores meaning states { sets with frontier } := by
  obtain ⟨queue, sound⟩ := explores.sound.frontier.pop popped
  have occurs := explores.waits s (by simp [queue])
  refine ⟨⟨explores.sound.reached, sound⟩, explores.occurs,
    fun t member => explores.waits t (by simp [queue, member]), explores.starts, explores.origins,
    explores.quiet, fun t member => ?_, fun t member => ⟨.successor occurs given member, ?_⟩⟩
  · have leads : ∀ c d, s.Covers meaning c → setting.task.Moves setting.policy c d →
        ∃ t ∈ states, t.Covers meaning d := fun c d covers moves =>
      covers_successor (plain_of_occurs meaning plain occurs) plain given covers moves
    rcases explores.closed t member with queued | closed
    · rw [queue] at queued
      rcases List.mem_cons.1 queued with rfl | queued
      · refine Or.inr fun c d covers moves => ?_
        obtain ⟨r, inside, covers⟩ := leads c d covers moves
        exact ⟨r, Or.inr inside, covers⟩
      · exact Or.inl queued
    · refine Or.inr fun c d covers moves => ?_
      obtain ⟨r, either, covers⟩ := closed c d covers moves
      exact ⟨r, either.imp_right fun none => by simp at none, covers⟩
  · rcases yields_successors given with ⟨_, rfl, _⟩ | ⟨_, _, _, _, _, numbered, _, rfl⟩
    · simp at member
    · obtain ⟨p, inside, rfl⟩ := List.mem_map.1 member
      show p.provenance.predecessors ≠ ∅
      rw [(numbered.exists_of_mem inside).2.1]
      intro none
      cases congrArg SortedSet.toList none

/-- A search may begin with states that cover the starts. -/
theorem explores_of_states {states : List (State σ)} (some : states ≠ [])
    (occurs : ∀ s ∈ states, setting.Occurs s)
    (starts : ∀ s ∈ states, ∀ c, setting.task.Starts c → s.Covers meaning c)
    (quiet : ∀ s ∈ states, setting.analysis.target s = ∅) :
    Explores meaning [] (states.foldl SearchSets.insert {}) := by
  obtain ⟨sound, reached, waiting⟩ :=
    (SearchSets.sound_empty : ({} : SearchSets setting.analysis.partitionKey).Sound).insertAll states
  have inside : ∀ t, t ∈ (states.foldl SearchSets.insert
      ({} : SearchSets setting.analysis.partitionKey)).reached.toList → t ∈ states :=
    fun t member => ((reached t).1 member).resolve_right fun none => by cases none
  refine ⟨sound, fun t member => occurs t (inside t member), fun t member => ?_, fun c start => ?_,
    fun t member _ => starts t (inside t member), fun t member => quiet t (inside t member),
    fun t member => Or.inl ((waiting t).2 (Or.inl (inside t member))), by simp⟩
  · exact occurs t (((waiting t).1 member).resolve_right fun none => by cases none)
  · obtain ⟨first, rest, rfl⟩ := List.exists_cons_of_ne_nil some
    exact ⟨first, (reached first).2 (by simp), starts first (by simp) c start⟩

/-- After an infeasible violation the search may start over. -/
theorem Explores.restart (explores : Explores meaning rest sets) (violation : setting.Occurs s)
    (origin : s.inner.provenance.predecessors ≠ ∅)
    {next : SearchSets setting.analysis.partitionKey}
    (given : Refiner.refinePrecision setting.analysis
      { reached := sets.reached.insert s, frontier := sets.frontier } s = .ok (true, next)) :
    Explores meaning [] next := by
  obtain ⟨f, found, initial, formed, predicates, some, initials, rfl⟩ := refinePrecision_eq_ok given
  have inside : ∀ t ∈ initial, t ∈ sets.reached.toList ∧ t.inner.provenance.predecessors = ∅ := by
    intro t member
    obtain ⟨inside, none⟩ := initials t member
    rcases (Reached.mem_insert explores.sound.reached).1 inside with rfl | inside
    · exact absurd none origin
    · exact ⟨inside, none⟩
  refine explores_of_states (by simpa using some) ?_ ?_ ?_ <;> intro t member <;>
    obtain ⟨r, listed, rfl⟩ := List.mem_map.1 member <;> obtain ⟨inside, none⟩ := inside r listed
  · exact .refined violation formed predicates (explores.occurs r inside)
  · exact explores.origins r inside none
  · exact explores.quiet r inside

/-- Widening and merging a state to come. -/
theorem Explores.widen (sound : setting.domain.solver.Sound) (points : setting.points = .always)
    (plain : setting.task.Plain) (explores : Explores meaning (s :: rest) sets)
    {reached : List (State σ)} {next : SearchSets setting.analysis.partitionKey}
    {middle last : Context}
    (widened : (setting.analysis.widen s reached).Yields before t after)
    (merged : (setting.analysis.withStatistics.mergeInto t sets).Yields middle next last) :
    Explores meaning (s :: rest) next ∧ setting.Occurs t ∧
      t.inner.provenance.predecessors ≠ ∅ ∧ t.Widened setting.data ∧
      ∀ c, s.Covers meaning c → t.Covers meaning c := by
  obtain ⟨occurs, origin⟩ := explores.later s (by simp)
  obtain ⟨form, provenance, covers⟩ :=
    covers_widen sound points (plain_of_occurs meaning plain occurs) widened
  have after : setting.Occurs t := .widened occurs widened
  refine ⟨Analysis.mergeInto_induction (a := setting.analysis.withStatistics) merged explores
    fun current old new kept inside replaces => ?_, after, provenance ▸ origin, form, covers⟩
  obtain ⟨wanted, ⟨_, _, given⟩, changed⟩ := replaces
  obtain ⟨_, given, _⟩ := yields_merge_withStatistics given
  exact kept.substitute plain explores inside after ⟨wanted, ⟨_, _, given⟩, changed⟩

/-- Once no state waits, all that runs come to is covered. -/
theorem Explores.exists_covers (explores : Explores meaning [] sets)
    (done : sets.frontier.queue = []) (reaches : setting.task.Reaches setting.policy c) :
    ∃ s ∈ sets.reached.toList, s.Covers meaning c := by
  induction reaches with
  | start starts => exact explores.starts _ starts
  | step _ moves covered =>
    obtain ⟨s, member, covers⟩ := covered
    rcases explores.closed s member with queued | closed
    · simp [done] at queued
    · obtain ⟨t, either, covers⟩ := closed _ _ covers moves
      exact ⟨t, either.resolve_right (by simp), covers⟩

/-- A thread of a covered configuration has reported no violation that the state does not. -/
theorem State.Covers.failedFor (plain : s.Plain meaning) (covers : s.Covers meaning c)
    (quiet : setting.analysis.target s = ∅) : ∀ t ∈ c.threads, t.failedFor = ∅ := by
  intro t member
  have none := target_eq_empty_iff.1 quiet covers.possible
  rw [plain.targets, covers.1] at none
  refine SortedSet.ext_mem fun p => ⟨fun reported => ?_, fun impossible => by simp at impossible⟩
  exact none ▸ SortedSet.mem_unionMap.2 ⟨t, member, reported⟩

end Verification

/-! ### Verdicts -/

open Verification

section Verdicts

variable {σ : Type} [DecidableEq σ] {setting : Setting σ} {meaning : Meaning setting.data}
variable {before after : Context}

/-- What a search that may find the program safe keeps while it considers successors. -/
def Searches (meaning : Meaning setting.data) (rest : List (State σ))
    (search : SearchState setting.analysis.partitionKey) : Prop :=
  search.undecided = none → Explores meaning rest search.toSearchSets

/-- What there is to say about the outcome: no run reports a violation if it is safe. -/
def Vouches (setting : Setting σ) (outcome : SearchOutcome) : Prop :=
  outcome.verdict = .safe → ∀ c, setting.task.Reaches setting.policy c →
    ∀ t ∈ c.threads, t.failedFor = ∅

theorem continues_of_consider (sound : setting.domain.solver.Sound)
    (points : setting.points = .always) (plain : setting.task.Plain) {limits : SearchLimits}
    {search : SearchState setting.analysis.partitionKey} {successor : State σ}
    {rest : List (State σ)} {step : SearchStep setting.analysis.partitionKey}
    (searches : Searches meaning (successor :: rest) search)
    (given : (setting.analysis.withStatistics.consider setting.refiner setting.task limits search
      successor).Yields before step after) :
    @Analysis.Continues _ setting.analysis.withStatistics
      (fun _ search => Searches meaning [] search) (fun _ search => Searches meaning rest search)
      (Vouches setting) after step := by
  rcases Analysis.yields_consider given with ⟨reason, rfl⟩ | ⟨s, widened, sets, merged, covered,
    widen, merge, stop, form⟩
  · nofun
  · obtain ⟨_, widen, _⟩ := yields_widen_withStatistics widen
    obtain ⟨_, _, stop, _⟩ := yields_stop_withStatistics stop
    have admitted := fun decided => (searches decided).widen sound points plain widen merge
    rcases form with ⟨rfl, rfl⟩ | ⟨_, quiet, rfl⟩ | ⟨_, _, judged⟩
    · intro decided
      obtain ⟨explores, occurs, _, form, covers⟩ := admitted decided
      refine explores.advance fun c before => ?_
      obtain ⟨r, member, after⟩ := covers_stop sound (plain_of_occurs meaning plain occurs) form
        (fun r member => plain_of_occurs meaning plain
          (explores.occurs r (Reached.mem_of_partitionOf member))) stop (covers c before)
      exact ⟨r, Reached.mem_of_partitionOf member, after⟩
    · intro decided
      obtain ⟨explores, occurs, origin, _, covers⟩ := admitted decided
      refine (explores.insert occurs origin (SortedSet.isEmpty_iff.1 quiet)).advance
        fun c before => ⟨s, ?_, covers c before⟩
      exact (explores.sound.insert.2.1 s).2 (Or.inl rfl)
    · rcases Analysis.judge_eq_ok judged with ⟨_, _, _, _, _, _, rfl⟩ | ⟨_, _, rfl, _⟩ |
        ⟨next, _, _, refined, rfl⟩ | ⟨reason, _, rfl⟩
      · nofun
      · nofun
      · intro decided
        obtain ⟨explores, occurs, origin, _⟩ := admitted decided
        exact explores.restart occurs origin refined
      · intro decided
        simp at decided

variable (meaning) in
/-- A search that may find the program safe is right when it does. -/
theorem vouches_of_search (sound : setting.domain.solver.Sound)
    (points : setting.points = .always) (plain : setting.task.Plain) {limits : SearchLimits}
    {search : SearchState setting.analysis.partitionKey} {expansions : Nat}
    {outcome : SearchOutcome} (searches : Searches meaning [] search)
    (given : (setting.analysis.withStatistics.search setting.refiner setting.task limits expansions
      search).Yields before (some outcome) after) : Vouches setting outcome := by
  refine @Analysis.search_induction _ _ setting.analysis.withStatistics setting.refiner
    setting.task limits search before after (fun _ search => Searches meaning [] search)
    (fun _ _ _ rest search => Searches meaning rest search) (Vouches setting) expansions outcome
    ?_ ?_ ?_ ?_ given searches
  · intro before search s frontier states after searches popped given decided
    obtain ⟨_, given, _⟩ := yields_successors_withStatistics given
    exact (searches decided).pop plain popped given
  · intro s states before search successor rest step after searches given
    exact continues_of_consider sound points plain searches given
  · exact fun _ _ _ _ searches => searches
  · intro context search searches done safe c reaches
    have explores := searches (Analysis.undecided_of_exhausted safe)
    obtain ⟨s, member, covers⟩ := explores.exists_covers (Frontier.queue_eq_nil done) reaches
    exact covers.failedFor (plain_of_occurs meaning plain (explores.occurs s member))
      (explores.quiet s member)

/-- A search from the start is right about a program that it finds safe. -/
theorem vouches_of_finds (meaning : Meaning setting.data)
    (sound : setting.domain.solver.Sound) (points : setting.points = .always)
    (plain : setting.task.Plain) {limits : SearchLimits} {expansions : Nat}
    {outcome : SearchOutcome} (finds : setting.Finds limits expansions outcome after) :
    Vouches setting outcome := by
  unfold Setting.Finds Analysis.reachability at finds
  obtain ⟨states, _, began, given⟩ := Run.yields_bind.1 finds
  have began : setting.analysis.initial.Yields {} states _ := began
  refine vouches_of_search meaning sound points plain (fun _ => ?_) given
  refine explores_of_states ?_ (fun s member => .initial began member)
    (fun s member c starts => covers_initial began member starts) fun s member => ?_
  · obtain ⟨s, member⟩ := exists_initial meaning began
    exact List.ne_nil_of_mem member
  · obtain ⟨_, _, started, targets, _⟩ := yields_initial began member
    refine target_eq_empty_iff.2 fun _ => targets.trans ?_
    refine SortedSet.ext_mem fun p => ⟨fun reported => ?_, fun impossible => by simp at impossible⟩
    obtain ⟨t, inside, reported⟩ := SortedSet.mem_unionMap.1 reported
    exact Task.failedFor_startThreads started t inside ▸ reported

end Verdicts

/-- In no run of a plain program that is found safe, with summaries at every state, does a thread
report the violation of a property. -/
theorem failedFor_of_safe {task : Task} {config : Config} {runSolver : String → Option String}
    {expansions : Nat} {result : AnalysisResult} {c : Configuration} (plain : task.Plain)
    (points : config.abstraction.abstractionPoints = .always)
    (kind : config.solver.kind = .enumeration)
    (given : verify task config runSolver expansions = .ok (some result))
    (safe : result.verdict = .safe) (reaches : task.Reaches config.control.waitPolicy c) :
    ∀ t ∈ c.threads, t.failedFor = ∅ := by
  have sound : (config.solver.solver runSolver).Sound := by
    unfold SolverOptions.solver
    rw [kind]
    exact Solver.sound_enumeration _
  rcases verify_eq_ok given with ⟨reason, other⟩ | ⟨operator, abstraction, outcome,
    after, _, same, finds | finds⟩
  · cases safe.symm.trans other
  · exact vouches_of_finds (.symbolicMemory operator) sound points plain finds (same ▸ safe) c reaches
  · exact vouches_of_finds (.knownValues operator) sound points plain finds (same ▸ safe) c reaches

/-! ### A failure without a violation -/

/-- A program with one statement, which reports the violation of no property. -/
def reportsNothing : Except Error Task := do
  let flow ← ControlFlow.ofTransitions [0] [(0, 1, 1)]
  Task.create "t" [{ name := "A", scripts := [{ id := 0, event := .bootstrap, flow }] }]
    [⟨1, .signalFailure ∅⟩]

/-- Whether the program is well formed and found safe, and its only thread fails in its first
step. -/
def failsSafely (program : Except Error Task) : Bool :=
  match program with
  | .ok task =>
    match (settingOf task {} (.enumeration 8) .boolean (symbolicMemory .sep)).trace {} 3,
        task.startThreads (task.newThreads 0) with
    | some (outcome, _), .ok [thread] =>
      match task.leavingSteps thread with
      | .ok [step] =>
        match task.applyStep .approximate [thread] 0 step with
        | .ok threads =>
          outcome.verdict.isSafe && (task.chooseStepping [thread]).toOption == some (some 0)
            && step.operations.map (·.2) == [.signalFailure ∅]
            && threads.any (·.status == .failure)
        | _ => false
      | _ => false
    | _, _ => false
  | _ => false

theorem failsSafely_reportsNothing : failsSafely reportsNothing = true := by decide +kernel

theorem plain_reportsNothing {task : Task} (created : reportsNothing = .ok task) :
    task.Plain := by
  obtain ⟨flow, _, created⟩ := bind_eq_ok_iff.1 created
  refine Task.uses_of_create created ?_ ?_
  · simp [Statement.Uses]
  · intro actor member name method found
    rw [List.mem_singleton.1 member] at found
    cases found

/-- The program is found safe although its thread comes to fail. -/
theorem reaches_failure : ∃ (task : Task) (result : AnalysisResult) (c : Configuration),
    reportsNothing = .ok task ∧ task.Plain ∧
      verify task {} (fun _ => none) 3 = .ok (some result) ∧ result.verdict = .safe ∧
      task.Reaches .approximate c ∧ ∃ t ∈ c.threads, t.status = .failure := by
  have checked := failsSafely_reportsNothing
  unfold failsSafely at checked
  split at checked
  · rename_i task created
    split at checked
    · rename_i outcome after thread traced started
      split at checked
      · rename_i step leaving
        split at checked
        · rename_i threads applied
          simp only [Bool.and_eq_true, beq_iff_eq, List.any_eq_true] at checked
          obtain ⟨⟨⟨safe, chosen⟩, operations⟩, failed⟩ := checked
          have chosen : task.chooseStepping [thread] = .ok (some 0) := by
            cases choice : task.chooseStepping [thread] <;>
              simp_all [Except.toOption]
          have safe := Verdict.eq_safe safe
          let start : Configuration := ⟨[thread], fun v => v.dataType.default⟩
          have starts : task.Starts start := ⟨started, fun v => DataType.dataType_default v.dataType⟩
          have moves : task.Moves .approximate start ⟨threads, start.env⟩ := by
            refine ⟨0, thread, [step], step, chosen, rfl, leaving, by simp, ?_, applied⟩
            rw [operations]
            rfl
          exact ⟨task, resultOf outcome after, _, created, plain_reportsNothing created,
            verify_of_finds (finds_of_trace traced), safe, .step (.start starts) moves, failed⟩
        · cases checked
      · cases checked
    · cases checked
  · cases checked

/-- The thread that fails there has reported no violation. -/
theorem exists_failedFor_of_safe : ∃ (task : Task) (result : AnalysisResult) (c : Configuration),
    reportsNothing = .ok task ∧ task.Plain ∧
      verify task {} (fun _ => none) 3 = .ok (some result) ∧ result.verdict = .safe ∧
      task.Reaches .approximate c ∧ (∃ t ∈ c.threads, t.status = .failure) ∧
      ∀ t ∈ c.threads, t.failedFor = ∅ := by
  obtain ⟨task, result, c, created, plain, given, safe, reaches, failed⟩ := reaches_failure
  exact ⟨task, result, c, created, plain, given, safe, reaches, failed,
    failedFor_of_safe plain rfl rfl given safe reaches⟩

/-- So threads do fail in programs that are found safe. -/
theorem not_failure_of_safe : ¬∀ (task : Task) (config : Config)
    (runSolver : String → Option String) (expansions : Nat) (result : AnalysisResult)
    (c : Configuration), task.Plain → config.abstraction.abstractionPoints = .always →
      config.solver.kind = .enumeration →
      verify task config runSolver expansions = .ok (some result) → result.verdict = .safe →
      task.Reaches config.control.waitPolicy c → ∀ t ∈ c.threads, t.status ≠ .failure := by
  intro never
  obtain ⟨task, result, c, _, plain, given, safe, reaches, t, member, failed⟩ := reaches_failure
  exact never task {} _ _ result c plain rfl rfl given safe reaches t member failed

end EventCheck
