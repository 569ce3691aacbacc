import EventCheck.Proofs.Origins
import EventCheck.Proofs.Refinements
import EventCheck.Proofs.Violations

/-!
What a search can start over from. The reached states without predecessors are initial states of the
search, perhaps with more predicates. A merge has the predecessors of both states, so an initial state
is lost when another one is merged into it; once all of them are, the search cannot be refined.
-/

namespace EventCheck

namespace Verification

variable {σ : Type} [DecidableEq σ] {setting : Setting σ}
variable {s t u w old merged : State σ} {before middle after : Context}
variable {states coming rest : List (State σ)}

/-- The state was computed from no other one. -/
def State.IsRoot (s : State σ) : Prop := s.inner.provenance.predecessors = ∅

/-- The refiner finds new predicates but nothing to start over from exactly if all states without
predecessors are gone. -/
theorem refine_eq_noInitialState_iff {sets : SearchSets setting.analysis.partitionKey} {f : Formula}
    (formed : setting.analysis.formula s = .ok f) :
    setting.refiner.refine sets s = .error .noInitialState ↔
      (∃ e ∈ Refiner.predicatesOf f, e ∉ s.precision) ∧
        ∀ r ∈ sets.reached.toList, ¬r.IsRoot := by
  have anew : ((Refiner.predicatesOf f).filter (!s.precision.contains ·)).isEmpty = true ↔
      ¬∃ e ∈ Refiner.predicatesOf f, e ∉ s.precision := by
    rw [Refiner.newPredicates_eq_empty]
    simp only [Refiner.mem_predicatesOf, not_exists, not_and, not_not]
  have rootless : sets.reached.toList.filter (·.inner.provenance.predecessors.isEmpty) = [] ↔
      ∀ r ∈ sets.reached.toList, ¬r.IsRoot := by
    rw [List.filter_eq_nil_iff]
    exact forall₂_congr fun r _ => not_congr SortedSet.isEmpty_iff
  show Refiner.refinePrecision setting.analysis sets s = _ ↔ _
  unfold Refiner.refinePrecision
  simp only [formed, initialStates_eq (a := setting.analysis) fun _ => rfl]
  by_cases known : ((Refiner.predicatesOf f).filter (!s.precision.contains ·)).isEmpty = true
  · simp only [bind, Except.bind, known, if_true]
    exact iff_of_false nofun fun both => anew.1 known both.1
  · rw [and_iff_right (not_not.1 fun none => known (anew.2 none)), ← rootless]
    simp only [bind, Except.bind, known]
    cases sets.reached.toList.filter (·.inner.provenance.predecessors.isEmpty) with
    | nil => exact iff_of_true rfl rfl
    | cons first rest => exact iff_of_false nofun nofun

/-! ### What is left of the initial states -/

section Sets

variable {key : State σ → PartitionKey} {begun reached : Reached key} {sets : SearchSets key}

omit [DecidableEq σ] in
/-- The state is still there, or else, in searches with merges, in a state with predecessors that was
merged from it. -/
def Setting.Remains (setting : Setting σ) (reached : Reached key) (b : State σ) : Prop :=
  b ∈ reached.toList ∨ ¬setting.Separate ∧
    ∃ r ∈ reached.toList, ¬r.IsRoot ∧ b.id ∈ r.inner.provenance.mergeOf

/-- What the reached states have to do with those that the search started from, or started over
from, while some states may yet be admitted. -/
structure Setting.Roots (setting : Setting σ) (states coming : List (State σ))
    (begun reached : Reached key) : Prop where
  nonempty : states ≠ [] → begun.toList ≠ []
  initial : ∀ b ∈ begun.toList, ∃ s ∈ states, ∃ precision, b = s.withPrecision precision
  origin : ∀ b ∈ begun.toList, b.IsRoot ∧ b.id ∈ b.inner.provenance.mergeOf
  later : ∀ s ∈ coming, ¬s.IsRoot
  rooted : ∀ s ∈ reached.toList, s.IsRoot → s ∈ begun.toList
  kept : ∀ b ∈ begun.toList, setting.Remains reached b

/-- Whatever a search starts from, all of that is there. -/
theorem roots_start {given : List (State σ)} (nonempty : states ≠ [] → given ≠ [])
    (initial : ∀ b ∈ given, ∃ s ∈ states, ∃ precision, b = s.withPrecision precision)
    (origin : ∀ b ∈ given, b.IsRoot ∧ b.id ∈ b.inner.provenance.mergeOf) :
    setting.Roots states [] (given.foldl SearchSets.insert ({} : SearchSets key)).reached
      (given.foldl SearchSets.insert ({} : SearchSets key)).reached := by
  obtain ⟨_, reached, _⟩ := @SearchSets.sound_start _ key _ given
  refine ⟨fun some none => ?_, fun b member => initial b ((reached b).1 member),
    fun b member => origin b ((reached b).1 member), nofun, fun s member _ => member,
    fun b member => Or.inl member⟩
  obtain ⟨b, member⟩ := List.exists_mem_of_ne_nil given (nonempty some)
  exact List.not_mem_nil (none ▸ (reached b).2 member)

omit [DecidableEq σ] in
theorem Setting.Roots.skip (roots : setting.Roots states (s :: rest) begun reached) :
    setting.Roots states rest begun reached :=
  { roots with later := fun t member => roots.later t (List.mem_cons_of_mem s member) }

omit [DecidableEq σ] in
/-- States that were computed from another one may come. -/
theorem Setting.Roots.follow (roots : setting.Roots states [] begun reached)
    (later : ∀ s ∈ coming, ¬s.IsRoot) : setting.Roots states coming begun reached :=
  { roots with later }

omit [DecidableEq σ] in
theorem Setting.Roots.widen (roots : setting.Roots states (s :: rest) begun reached)
    (same : w.inner.provenance = s.inner.provenance) :
    setting.Roots states (w :: rest) begun reached := by
  obtain ⟨first, others⟩ := List.forall_mem_cons.1 roots.later
  refine { roots with later := List.forall_mem_cons.2 ⟨?_, others⟩ }
  rw [State.IsRoot, same]
  exact first

theorem Setting.Roots.accept (roots : setting.Roots states (w :: rest) begun sets.reached)
    (sound : sets.Sound) : setting.Roots states rest begun (sets.reached.insert w) := by
  have members := fun s => @Reached.mem_insert _ _ sets.reached w s _ sound.reached
  obtain ⟨first, later⟩ := List.forall_mem_cons.1 roots.later
  refine { roots with
    later
    rooted := fun s member root => ?_
    kept := fun b member => ?_ }
  · rcases (members s).1 member with rfl | member
    · exact absurd root first
    · exact roots.rooted s member root
  · rcases roots.kept b member with still | ⟨merges, r, inside, form⟩
    · exact Or.inl ((members b).2 (Or.inr still))
    · exact Or.inr ⟨merges, r, (members r).2 (Or.inr inside), form⟩

/-- A merge into a state with predecessors takes the place of a state. -/
theorem Setting.Roots.substitute (roots : setting.Roots states coming begun sets.reached)
    (sound : sets.Sound) (merges : ¬setting.Separate) (changed : merged ≠ old) (later : ¬w.IsRoot)
    (predecessors : merged.inner.provenance.predecessors =
      w.inner.provenance.predecessors ∪ old.inner.provenance.predecessors)
    (mergeOf : old.inner.provenance.mergeOf ⊆ merged.inner.provenance.mergeOf) :
    setting.Roots states coming begun (sets.substitute old merged).reached := by
  obtain ⟨_, reached, _⟩ := sound.substitute changed
  have rootless : ¬merged.IsRoot := by
    refine fun none => later (SortedSet.ext_mem fun id => iff_of_false (fun member => ?_) (by simp))
    rw [State.IsRoot, predecessors] at none
    exact SortedSet.not_mem_empty id (none ▸ SortedSet.mem_union.2 (Or.inl member))
  refine { roots with
    rooted := fun s member root => ?_
    kept := fun b member => ?_ }
  · rcases (reached s).1 member with rfl | ⟨member, _⟩
    · exact absurd root rootless
    · exact roots.rooted s member root
  · have replaced : b.id ∈ old.inner.provenance.mergeOf →
        setting.Remains (sets.substitute old merged).reached b := fun inside =>
      Or.inr ⟨merges, merged, (reached merged).2 (Or.inl rfl), rootless, mergeOf b.id inside⟩
    rcases roots.kept b member with still | ⟨_, r, inside, form, merge⟩
    · by_cases same : b = old
      · exact replaced (same ▸ (roots.origin b member).2)
      · exact Or.inl ((reached b).2 (Or.inr ⟨still, same⟩))
    · by_cases same : r = old
      · exact replaced (same ▸ merge)
      · exact Or.inr ⟨merges, r, (reached r).2 (Or.inr ⟨inside, same⟩), form, merge⟩

end Sets

/-! ### Along a search -/

variable {limits : SearchLimits} {first : Context}
variable {m next : Course setting.analysis.withStatistics.partitionKey}

theorem Setting.Roots.merge {begun : Reached setting.analysis.withStatistics.partitionKey}
    {sets next : SearchSets setting.analysis.withStatistics.partitionKey}
    (roots : setting.Roots states (w :: rest) begun sets.reached) (sound : sets.Sound)
    (given : (setting.analysis.withStatistics.mergeInto w sets).Yields before next after) :
    setting.Roots states (w :: rest) begun next.reached := by
  have later := roots.later w List.mem_cons_self
  refine (Analysis.mergeInto_rule (a := setting.analysis.withStatistics)
    (fun _ current => current.Sound ∧ setting.Roots states (w :: rest) begun current.reached)
    given ⟨sound, roots⟩ ?_).2
  rintro c d current old merged ⟨sound, roots⟩ _ wanted merge
  split
  · exact ⟨sound, roots⟩
  · rename_i changed
    rcases provenance_merge wanted merge with ⟨same, _⟩ | ⟨_, provenance⟩
    · exact absurd same changed
    · refine ⟨(sound.substitute changed).1, roots.substitute sound
        (fun separate => separate.apart w old wanted) changed later (by rw [provenance])
        fun id member => ?_⟩
      rw [provenance]
      exact SortedSet.mem_insert.2 (Or.inr (SortedSet.mem_union.2 (Or.inr member)))

theorem Setting.Roots.restart {begun : Reached setting.analysis.withStatistics.partitionKey}
    {sets next : SearchSets setting.analysis.withStatistics.partitionKey}
    (roots : setting.Roots states coming begun sets.reached)
    (refined : @Refiner.refine _ setting.analysis.withStatistics.partitionKey setting.refiner sets s =
      .ok (true, next)) : setting.Roots states [] next.reached next.reached := by
  obtain ⟨_, found, initial, _, _, some, rootless, rfl⟩ := refinePrecision_eq_ok refined
  refine roots_start (fun _ => mt List.map_eq_nil_iff.1 some) (fun b member => ?_) fun b member => ?_
  · obtain ⟨t, inside, rfl⟩ := List.mem_map.1 member
    obtain ⟨reached, root⟩ := rootless t inside
    obtain ⟨s, start, precision, rfl⟩ := roots.initial t (roots.rooted t reached root)
    exact ⟨s, start, _, rfl⟩
  · obtain ⟨t, inside, rfl⟩ := List.mem_map.1 member
    obtain ⟨reached, root⟩ := rootless t inside
    exact roots.origin t (roots.rooted t reached root)

theorem roots_of_advances (placed : Placed before.states m)
    (roots : setting.Roots states m.phase.coming m.begun.reached m.search.reached)
    (advances : setting.analysis.withStatistics.Advances setting.refiner limits before m after next) :
    setting.Roots states next.phase.coming next.begun.reached next.search.reached := by
  have sound := placed.origins.sound
  cases advances with
  | pop idle =>
    rw [idle] at roots
    exact roots
  | follow popped followed =>
    rw [popped] at roots
    refine roots.follow fun s member root => ?_
    have origin := ((named_successors followed).2.2 s member).2.2
    cases congrArg SortedSet.toList (origin.symm.trans root)
  | merge expanding room widened merged =>
    rw [expanding] at roots
    exact (roots.widen (provenance_widen widened).1).merge sound merged
  | cover merged =>
    rw [merged] at roots
    exact roots.skip
  | accept merged | violate merged =>
    rw [merged] at roots
    exact roots.accept sound
  | doubt judging =>
    rw [judging] at roots
    exact roots
  | refine judging check budget refined => exact roots.restart refined
  | finish expanding =>
    rw [expanding] at roots
    exact roots

theorem roots_of_comes
    (comes : setting.analysis.withStatistics.Comes setting.refiner limits first states after m) :
    setting.Roots states m.phase.coming m.begun.reached m.search.reached := by
  induction comes with
  | start given =>
    obtain ⟨_, named⟩ := named_initial given
    exact roots_start id (fun s member => ⟨s, member, s.precision, rfl⟩) fun s member =>
      ⟨(named s member).2, (named s member).1.own⟩
  | step comes advances ih => exact roots_of_advances (placed_of_comes comes) ih advances

/-! ### Starting over -/

/-- What a search that has begun with the states can start over from at one of its moments: those
that it started from and that are still there. -/
structure Setting.Restarts (setting : Setting σ) (states : List (State σ))
    (m : Course setting.analysis.withStatistics.partitionKey) : Prop where
  initial : ∀ b ∈ m.begun.reached.toList,
    b.IsRoot ∧ ∃ s ∈ states, ∃ precision, b = s.withPrecision precision
  nonempty : states ≠ [] → m.begun.reached.toList ≠ []
  roots : ∀ s ∈ m.search.reached.toList, s.IsRoot ↔ s ∈ m.begun.reached.toList
  kept : ∀ b ∈ m.begun.reached.toList, setting.Remains m.search.reached b
  fails : ∀ w f, setting.analysis.formula w = .ok f →
    (setting.refiner.refine m.search.toSearchSets w = .error .noInitialState ↔
      (∃ e ∈ Refiner.predicatesOf f, e ∉ w.precision) ∧
        ∀ b ∈ m.begun.reached.toList, b ∉ m.search.reached.toList)
  separate : setting.Separate → states ≠ [] → ∃ s ∈ m.search.reached.toList, s.IsRoot

/-- At every moment of a search the states without predecessors are those of the initial states that
have not been merged. A refinement with new predicates fails for want of a state to start over from
exactly if all of them have been, which never happens to searches without merges. -/
theorem restarts_of_comes
    (comes : setting.analysis.withStatistics.Comes setting.refiner limits first states after m) :
    setting.Restarts states m := by
  have roots := roots_of_comes comes
  have same : ∀ s ∈ m.search.reached.toList, s.IsRoot ↔ s ∈ m.begun.reached.toList :=
    fun s member => ⟨roots.rooted s member, fun begun => (roots.origin s begun).1⟩
  refine ⟨fun b member => ⟨(roots.origin b member).1, roots.initial b member⟩, roots.nonempty, same,
    roots.kept, fun w f formed => ?_, fun separate some => ?_⟩
  · refine (refine_eq_noInitialState_iff formed).trans (and_congr_right fun _ => ?_)
    constructor
    · exact fun none b begun member => none b member (roots.origin b begun).1
    · exact fun gone s member root => gone s ((same s member).1 root) member
  · obtain ⟨b, member⟩ := List.exists_mem_of_ne_nil _ (roots.nonempty some)
    rcases roots.kept b member with still | ⟨merges, _⟩
    · exact ⟨b, still, (roots.origin b member).1⟩
    · exact absurd separate merges

/-! ### A search that cannot start over -/

/-- A program that may go round at its entry, and that fails if a variable is both one and two. -/
def roundsThenFails : Except Error Task := do
  let flow ← ControlFlow.ofTransitions [0] [(0, 1, 1), (1, 1, 0), (0, 2, 2), (2, 3, 3), (3, 4, 4)]
  Task.create "t" [{ name := "A", scripts := [{ id := 0, event := .bootstrap, flow }] }]
    [⟨1, .nop⟩,
     ⟨2, .assume (.binary .eq (.var counter) (.const (.int 1)))⟩,
     ⟨3, .assume (.binary .eq (.var counter) (.const (.int 2)))⟩,
     ⟨4, .signalFailure (.singleton ⟨"P"⟩)⟩]

/-- The moment of a search at which it judges its first violation and has nothing to start over
from. -/
def roundsJoined : Bool :=
  roundsThenFails.toOption.any fun task =>
    match (Setting.joining task).analysis.withStatistics.initial.outcome {} with
    | (.ok states, context) =>
      ((Setting.joining task).analysis.withStatistics.advanceTimes (Setting.joining task).refiner {}
        28 context (.start states)).any fun (_, m) =>
          match m.phase with
          | .judging w _ =>
            match (Setting.joining task).refiner.refine m.search.toSearchSets w with
            | .error error => error = .noInitialState
            | .ok _ => false
          | _ => false
    | _ => false

theorem roundsJoined_eq_true : roundsJoined = true := by decide +kernel

/-- The state that the search has started from is merged with the one after a round. -/
theorem exists_restarts_joined : ∃ (task : Task) (states : List (State Formula))
    (context : Context) (m : Course (Setting.joining task).analysis.withStatistics.partitionKey)
    (w : State Formula) (rest : List (State Formula)), roundsThenFails = .ok task ∧
      (Setting.joining task).analysis.withStatistics.Comes (Setting.joining task).refiner {} {} states
        context m ∧ m.phase = .judging w rest ∧
      (Setting.joining task).refiner.refine m.search.toSearchSets w = .error .noInitialState ∧
      (Setting.joining task).Restarts states m := by
  obtain ⟨task, created, checked⟩ := (Option.any_eq_true _ _).1 roundsJoined_eq_true
  have made := toOption_eq_some_iff.1 created
  split at checked
  · rename_i states start began
    obtain ⟨⟨context, m⟩, reached, checked⟩ := (Option.any_eq_true _ _).1 checked
    have comes := Analysis.comes_of_advanceTimes (.start began) reached
    dsimp only at checked
    split at checked
    · rename_i w rest judging
      split at checked
      · rename_i error refined
        obtain rfl := of_decide_eq_true checked
        exact ⟨task, states, context, m, w, rest, made, comes, judging, refined,
          restarts_of_comes comes⟩
      · cases checked
    · cases checked
  · cases checked

/-- How the search of the standard stack comes out, expansion by expansion. -/
def Setting.evaluate (setting : Setting σ) (limits : SearchLimits) (expansions : Nat) :
    Except Error (Option SearchOutcome) × Context :=
  match setting.analysis.withStatistics.initial.outcome {} with
  | (.ok states, context) =>
    setting.analysis.withStatistics.evaluate setting.refiner setting.task limits expansions
      { states.foldl SearchSets.insert {} with } context
  | (.error error, context) => (.error error, context)

theorem outcome_reachability {limits : SearchLimits} {expansions : Nat} :
    (setting.analysis.withStatistics.reachability setting.refiner setting.task limits
      expansions).outcome {} = setting.evaluate limits expansions := by
  unfold Setting.evaluate Analysis.reachability
  rw [Run.outcome_bind]
  rcases setting.analysis.withStatistics.initial.outcome {} with ⟨_ | states, middle⟩
  · rfl
  · exact Analysis.outcome_search

/-- Whether the program is well formed and its verification with merges fails. -/
def roundsFail : Bool :=
  roundsThenFails.toOption.any fun task =>
    match (Setting.joining task).evaluate {} 5 with
    | (.error error, _) => error = .noInitialState
    | _ => false

theorem roundsFail_eq_true : roundsFail = true := by decide +kernel

/-- If the search with merges fails, then so does the verification, unless it has come to something
that is not modelled. -/
theorem verify_of_evaluate {task : Task} {expansions : Nat} {error : Error}
    (failed : (Setting.joining task).evaluate {} expansions = (.error error, after))
    (kind : error.kind ≠ .unimplemented) :
    verify task { data := { mergeOperator := "JOIN" } } (fun _ => none) expansions =
      .error error := by
  have searched : ((Setting.joining task).analysis.withStatistics.reachability
      (Setting.joining task).refiner task {} expansions).outcome {} = (.error error, after) :=
    outcome_reachability.trans failed
  let config : Config := { data := { mergeOperator := "JOIN" } }
  have ran : (runConfigured config (config.solver.solver fun _ => none) task expansions).run.run {} =
    (.error error, after) := searched
  show verify task config _ expansions = _
  unfold verify
  simp only [ran]
  rw [if_neg kind]

/-- Refinements do fail for want of a state to start over from. -/
theorem not_verify_ne_noInitialState : ¬∀ (task : Task) (config : Config)
    (runSolver : String → Option String) (expansions : Nat),
      verify task config runSolver expansions ≠ .error .noInitialState := by
  intro never
  obtain ⟨task, _, checked⟩ := (Option.any_eq_true _ _).1 roundsFail_eq_true
  split at checked
  · rename_i error after evaluated
    obtain rfl := of_decide_eq_true checked
    exact never task _ _ 5 (verify_of_evaluate evaluated nofun)
  · cases checked

end Verification

end EventCheck
