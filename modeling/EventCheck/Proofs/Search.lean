import EventCheck.Proofs.Membership
import EventCheck.Proofs.Runs
import EventCheck.Search.Reachability

/-!
How searches go. A property of searches that taking a state out of the frontier and considering
its successors one by one keep holds until the search ends, and an outcome has what it ends with.
-/

namespace EventCheck

theorem Verdict.eq_safe {verdict : Verdict} (checked : verdict.isSafe = true) : verdict = .safe := by
  cases verdict with
  | safe => rfl
  | violated _ _ | inconclusive _ => cases checked

namespace Analysis

variable {σ : Type} [DecidableEq σ] {a : Analysis σ} {refiner : Refiner a.partitionKey}
variable {task : Task} {limits : SearchLimits} {search : SearchState a.partitionKey}
variable {s successor : σ} {before after : Context}

/-! ### Merges -/

/-- The merge changes a state that the analysis wants merged with the new one. -/
structure Replaces (a : Analysis σ) (s old result : σ) : Prop where
  wanted : a.shouldMerge s old = .ok true
  merged : ∃ c d, (a.merge s old).Yields c result d
  changed : result ≠ old

/-- What each merge with a reached state keeps, from the context that it is computed in to the one
after it, the merges into a new state keep. -/
theorem mergeInto_rule {sets next : SearchSets a.partitionKey}
    (kept : Context → SearchSets a.partitionKey → Prop)
    (given : (a.mergeInto s sets).Yields before next after) (start : kept before sets)
    (step : ∀ c d current old merged, kept c current → old ∈ sets.reached.toList →
      a.shouldMerge s old = .ok true → (a.merge s old).Yields c merged d →
      kept d (if merged = old then current else current.substitute old merged)) :
    kept after next := by
  have folded : ∀ (states : List σ) (before after : Context) (changed : List (σ × σ))
      (current : SearchSets a.partitionKey), (∀ r ∈ states, r ∈ sets.reached.toList) →
      (a.replacements s states).Yields before changed after → kept before current →
      kept after (changed.foldl (fun sets entry => sets.substitute entry.1 entry.2) current) := by
    intro states
    induction states with
    | nil =>
      intro before after changed current _ given holds
      obtain ⟨rfl, rfl⟩ := Run.yields_pure.1 given
      exact holds
    | cons r rest ih =>
      intro before after changed current inside given holds
      unfold replacements at given
      obtain ⟨wanted, _, asked, given⟩ := Run.yields_bind.1 given
      obtain ⟨answer, rfl⟩ := Run.yields_ofExcept.1 asked
      have later := fun member => inside member ∘ List.mem_cons_of_mem r
      cases wanted with
      | false => exact ih _ _ _ _ later given holds
      | true =>
        simp only [if_true] at given
        obtain ⟨merged, middle, first, given⟩ := Run.yields_bind.1 given
        obtain ⟨others, _, more, built⟩ := Run.yields_bind.1 given
        obtain ⟨rfl, rfl⟩ := Run.yields_pure.1 built
        have one := step _ _ _ r merged holds (inside r List.mem_cons_self) answer first
        by_cases same : merged = r
        · rw [if_pos same] at one ⊢
          exact ih _ _ _ _ later more one
        · rw [if_neg same] at one ⊢
          exact ih middle _ others (current.substitute r merged) later more one
  obtain ⟨changed, _, replaced, built⟩ := Run.yields_bind.1 given
  obtain ⟨rfl, rfl⟩ := Run.yields_pure.1 built
  exact folded _ _ _ _ _ (fun r member => Reached.mem_of_partitionOf member) replaced start

/-- Where nothing is to be merged, nothing changes. -/
theorem mergeInto_of_apart {sets next : SearchSets a.partitionKey}
    (apart : ∀ t, a.shouldMerge s t ≠ .ok true)
    (given : (a.mergeInto s sets).Yields before next after) : next = sets ∧ after = before := by
  refine mergeInto_rule (fun context current => current = sets ∧ context = before) given
    ⟨rfl, rfl⟩ ?_
  intro _ _ _ old _ _ _ wanted
  exact absurd wanted (apart old)

/-- What every replacement keeps the merges into a new state keep. -/
theorem mergeInto_induction {sets next : SearchSets a.partitionKey}
    {kept : SearchSets a.partitionKey → Prop}
    (given : (a.mergeInto s sets).Yields before next after) (start : kept sets)
    (step : ∀ current old merged, kept current → old ∈ sets.reached.toList →
      a.Replaces s old merged → kept (current.substitute old merged)) : kept next := by
  refine mergeInto_rule (fun _ sets => kept sets) given start ?_
  intro c d current old merged holds inside wanted first
  split
  · exact holds
  · exact step current old merged holds inside ⟨wanted, ⟨c, d, first⟩, ‹_›⟩

/-! ### Successors -/

/-- The check of a violation comes to the result. -/
def Checks (a : Analysis σ) (refiner : Refiner a.partitionKey) (reached : Reached a.partitionKey)
    (s : σ) (result : Feasibility) : Prop :=
  ∃ accessibility, a.accessibility reached = .ok accessibility ∧
    refiner.feasibility reached accessibility s = .ok result

omit [DecidableEq σ] in
/-- How a violation is judged: a feasible one ends the search, an infeasible one refines it, and one
that is neither is remembered. -/
theorem judge_eq_ok {step : SearchStep a.partitionKey}
    (judged : a.judge refiner task limits search s = .ok step) :
    (∃ accessibility model witness, a.accessibility search.reached = .ok accessibility ∧
      refiner.feasibility search.reached accessibility s = .ok (.feasible model) ∧
      ErrorWitness.build a task search.reached.toList accessibility s (a.target s) model =
        .ok witness ∧ step = .finished (search.finish (.violated (a.target s) witness))) ∨
    (∃ ended reason, step = .finished (SearchState.finish ended (.inconclusive reason)) ∧
      (ended = search ∨
        refiner.refine search.toSearchSets s = .ok (false, ended.toSearchSets))) ∨
    (∃ sets, a.Checks refiner search.reached s .infeasible ∧
      search.refinements < limits.maxRefinements ∧
      refiner.refine search.toSearchSets s = .ok (true, sets) ∧
      step = .restart
        { search with refinements := search.refinements + 1, toSearchSets := sets }) ∨
    ∃ reason, a.Checks refiner search.reached s (.inconclusive reason) ∧
      step = .next { search with undecided := search.undecided <|> some reason } := by
  unfold judge at judged
  obtain ⟨accessibility, related, judged⟩ := bind_eq_ok_iff.1 judged
  obtain ⟨feasibility, asked, judged⟩ := bind_eq_ok_iff.1 judged
  have check : a.Checks refiner search.reached s feasibility := ⟨accessibility, related, asked⟩
  cases feasibility with
  | feasible model =>
    obtain ⟨witness, built, rest⟩ := bind_eq_ok_iff.1 judged
    exact Or.inl ⟨accessibility, model, witness, related, asked, built,
      (pure_eq_ok_iff.1 rest).symm⟩
  | infeasible =>
    have refined : a.refineFor refiner limits search s = .ok step := judged
    unfold refineFor at refined
    by_cases spent : limits.maxRefinements ≤ search.refinements
    · rw [if_pos spent] at refined
      exact Or.inr (Or.inl ⟨search, _, (pure_eq_ok_iff.1 refined).symm, Or.inl rfl⟩)
    · rw [if_neg spent] at refined
      obtain ⟨⟨progress, sets⟩, found, rest⟩ := bind_eq_ok_iff.1 refined
      cases progress with
      | false => exact Or.inr (Or.inl ⟨_, _, (pure_eq_ok_iff.1 rest).symm, Or.inr found⟩)
      | true =>
        exact Or.inr (Or.inr (Or.inl ⟨sets, check, Nat.lt_of_not_le spent, found,
          (pure_eq_ok_iff.1 rest).symm⟩))
  | inconclusive reason =>
    exact Or.inr (Or.inr (Or.inr ⟨reason, check, (pure_eq_ok_iff.1 judged).symm⟩))

/-- What becomes of a successor: the budget is spent, or it is widened and merged, and then covered,
admitted, or judged as a violation. -/
theorem yields_consider {step : SearchStep a.partitionKey}
    (given : (a.consider refiner task limits search successor).Yields before step after) :
    (∃ reason, step = .finished (search.finish (.inconclusive reason))) ∨
    ∃ s widened sets merged covered,
      (a.widen successor (search.reached.partitionOf successor)).Yields before s widened ∧
      (a.mergeInto s search.toSearchSets).Yields widened sets merged ∧
      (a.stop s (sets.reached.partitionOf s)).Yields merged covered after ∧
      (covered = true ∧ step = .next { search with toSearchSets := sets } ∨
        covered = false ∧ (a.target s).isEmpty = true ∧
          step = .next { search with toSearchSets := sets.insert s } ∨
        covered = false ∧ (a.target s).isEmpty = false ∧ a.judge refiner task limits
          { search with reached := sets.reached.insert s, frontier := sets.frontier } s =
            .ok step) := by
  unfold consider at given
  split at given
  · exact Or.inl ⟨_, (Run.yields_pure.1 given).1.symm⟩
  · obtain ⟨s, widened, first, given⟩ := Run.yields_bind.1 given
    obtain ⟨sets, merged, second, given⟩ := Run.yields_bind.1 given
    obtain ⟨covered, last, third, given⟩ := Run.yields_bind.1 given
    refine Or.inr ⟨s, widened, sets, merged, covered, first, second, ?_⟩
    cases covered with
    | true =>
      obtain ⟨same, rfl⟩ := Run.yields_pure.1 given
      exact ⟨third, Or.inl ⟨rfl, same.symm⟩⟩
    | false =>
      simp only [Bool.false_eq_true, if_false] at given
      split at given
      · rename_i empty
        obtain ⟨same, rfl⟩ := Run.yields_pure.1 given
        exact ⟨third, Or.inr (Or.inl ⟨rfl, empty, same.symm⟩)⟩
      · rename_i some
        obtain ⟨judged, rfl⟩ := Run.yields_ofExcept.1 given
        exact ⟨third, Or.inr (Or.inr ⟨rfl, by simpa using some, judged⟩)⟩

end Analysis

/-- A refinement of predicates that gets through starts over with the initial ones of the reached
states, and there are predicates that the violating state does not have. -/
theorem Refiner.exists_of_refinePrecision {σ : Type} [DecidableEq σ]
    {a : Analysis (AbstractionState σ)} {s : AbstractionState σ}
    {sets next : SearchSets a.partitionKey} (given : refinePrecision a sets s = .ok (true, next)) :
    ∃ f initial, a.formula s = .ok f ∧ initialStates a sets.reached.toList = .ok initial ∧
      initial ≠ [] ∧ ((predicatesOf f).filter (!s.precision.contains ·)).isEmpty = false ∧
      next = (initial.map (·.withPrecision
        (s.precision ∪ (predicatesOf f).filter (!s.precision.contains ·)))).foldl
          SearchSets.insert {} := by
  unfold refinePrecision at given
  obtain ⟨f, formed, given⟩ := bind_eq_ok_iff.1 given
  dsimp only at given
  split at given
  · cases given
  · rename_i new
    obtain ⟨initial, listed, given⟩ := bind_eq_ok_iff.1 given
    cases initial with
    | nil => cases given
    | cons first rest =>
      refine ⟨f, first :: rest, formed, listed, List.cons_ne_nil _ _, Bool.eq_false_iff.2 new, ?_⟩
      rw [List.foldl_map]
      exact (Prod.mk.inj (Except.ok.inj given)).2.symm

/-- A refinement that finds nothing new leaves the sets as they are. -/
theorem Refiner.eq_of_refinePrecision {σ : Type} [DecidableEq σ]
    {a : Analysis (AbstractionState σ)} {s : AbstractionState σ}
    {sets next : SearchSets a.partitionKey} (given : refinePrecision a sets s = .ok (false, next)) :
    next = sets := by
  unfold refinePrecision at given
  obtain ⟨f, _, given⟩ := bind_eq_ok_iff.1 given
  dsimp only at given
  split at given
  · exact (Prod.mk.inj (Except.ok.inj given)).2.symm
  · obtain ⟨initial, _, given⟩ := bind_eq_ok_iff.1 given
    cases initial <;> cases given

namespace Analysis

variable {σ : Type} [DecidableEq σ] {a : Analysis σ} {refiner : Refiner a.partitionKey}
variable {task : Task} {limits : SearchLimits} {search : SearchState a.partitionKey}
variable {s successor : σ} {before after : Context}

/-! ### Searches -/

omit [DecidableEq σ] in
/-- Only a search that has decided everything finds no violation. -/
theorem undecided_of_exhausted (safe : search.exhausted.verdict = .safe) :
    search.undecided = none := by
  cases undecided : search.undecided with
  | none => rfl
  | some reason => simp [SearchState.exhausted, SearchState.finish, undecided] at safe

section Rule

variable {between : Context → SearchState a.partitionKey → Prop}
variable {during : σ → List σ → Context → List σ → SearchState a.partitionKey → Prop}
variable {post : SearchOutcome → Prop}

/-- What holds after a step: between states or with the rest of the successors to come, or at the
end. -/
def Continues (between : Context → SearchState a.partitionKey → Prop)
    (during : Context → SearchState a.partitionKey → Prop) (post : SearchOutcome → Prop)
    (context : Context) : SearchStep a.partitionKey → Prop
  | .next search => during context search
  | .restart search => between context search
  | .finished outcome => post outcome

theorem considerAll_induction {states rest : List σ} {step : SearchStep a.partitionKey}
    (consider : ∀ before search successor rest step after,
      during s states before (successor :: rest) search →
      (a.consider refiner task limits search successor).Yields before step after →
      Continues between (fun context => during s states context rest) post after step)
    (done : ∀ context search, during s states context [] search → between context search)
    (given : (a.considerAll refiner task limits search rest).Yields before step after)
    (start : during s states before rest search) : Continues between between post after step := by
  induction rest generalizing search before with
  | nil =>
    obtain ⟨rfl, rfl⟩ := Run.yields_pure.1 given
    exact done _ _ start
  | cons successor rest ih =>
    obtain ⟨first, middle, considered, given⟩ := Run.yields_bind.1 given
    have reached := consider _ _ _ _ _ _ start considered
    cases first with
    | next search => exact ih given reached
    | restart search =>
      obtain ⟨rfl, rfl⟩ := Run.yields_pure.1 given
      exact reached
    | finished outcome =>
      obtain ⟨rfl, rfl⟩ := Run.yields_pure.1 given
      exact reached

/-- A search keeps what its steps keep. -/
theorem search_induction {expansions : Nat} {outcome : SearchOutcome}
    (pop : ∀ before search s frontier states after, between before search →
      search.frontier.pop? = some (s, frontier) → (a.successors s).Yields before states after →
      during s states after states { search with frontier })
    (consider : ∀ s states before search successor rest step after,
      during s states before (successor :: rest) search →
      (a.consider refiner task limits search successor).Yields before step after →
      Continues between (fun context => during s states context rest) post after step)
    (done : ∀ s states context search, during s states context [] search → between context search)
    (exhausted : ∀ context search, between context search → search.frontier.pop? = none →
      post search.exhausted)
    (given : (a.search refiner task limits expansions search).Yields before (some outcome) after)
    (start : between before search) : post outcome := by
  induction expansions generalizing search before with
  | zero =>
    unfold Analysis.search at given
    split at given
    · rename_i none
      obtain ⟨same, _⟩ := Run.yields_pure.1 given
      exact Option.some.inj same ▸ exhausted _ _ start none
    · cases (Run.yields_pure.1 given).1
    · rename_i impossible
      cases impossible
  | succ expansions ih =>
    unfold Analysis.search at given
    split at given
    · rename_i none
      obtain ⟨same, _⟩ := Run.yields_pure.1 given
      exact Option.some.inj same ▸ exhausted _ _ start none
    · rename_i impossible
      cases impossible
    · rename_i s frontier _ popped count
      obtain rfl := Nat.succ.inj count
      obtain ⟨states, middle, followed, given⟩ := Run.yields_bind.1 given
      obtain ⟨step, last, considered, given⟩ := Run.yields_bind.1 given
      have reached := considerAll_induction (consider s states) (done s states) considered
        (pop _ _ _ _ _ _ start popped followed)
      cases step with
      | next search => exact ih given reached
      | restart search => exact ih given reached
      | finished result =>
        obtain ⟨same, _⟩ := Run.yields_pure.1 given
        exact Option.some.inj same ▸ reached

end Rule

/-! ### Evaluation -/

variable (a refiner task limits) in
/-- What a search comes to, with the results of each expansion at hand before the next one. -/
def trace : Nat → SearchState a.partitionKey → Context → Option (SearchOutcome × Context)
  | expansions, search, context =>
    match search.frontier.pop?, expansions with
    | none, _ => some (search.exhausted, context)
    | some _, 0 => none
    | some (s, frontier), expansions + 1 =>
      match (a.successors s).outcome context with
      | (.ok states, context) =>
        match (a.considerAll refiner task limits { search with frontier } states).outcome context with
        | (.ok (.next search), context) | (.ok (.restart search), context) =>
          trace expansions search context
        | (.ok (.finished outcome), context) => some (outcome, context)
        | _ => none
      | _ => none

theorem yields_of_trace {expansions : Nat} {outcome : SearchOutcome}
    (traced : a.trace refiner task limits expansions search before = some (outcome, after)) :
    (a.search refiner task limits expansions search).Yields before (some outcome) after := by
  induction expansions generalizing search before with
  | zero =>
    unfold trace at traced
    unfold Analysis.search
    cases popped : search.frontier.pop? with
    | none =>
      simp only [popped] at traced ⊢
      obtain ⟨rfl, rfl⟩ := Prod.mk.inj (Option.some.inj traced)
      exact Run.yields_pure.2 ⟨rfl, rfl⟩
    | some next => simp [popped] at traced
  | succ expansions ih =>
    unfold trace at traced
    unfold Analysis.search
    cases popped : search.frontier.pop? with
    | none =>
      simp only [popped] at traced ⊢
      obtain ⟨rfl, rfl⟩ := Prod.mk.inj (Option.some.inj traced)
      exact Run.yields_pure.2 ⟨rfl, rfl⟩
    | some next =>
      obtain ⟨s, frontier⟩ := next
      simp only [popped] at traced ⊢
      split at traced
      · rename_i states middle followed
        refine Run.yields_bind.2 ⟨states, middle, followed, ?_⟩
        split at traced
        · rename_i next last considered
          exact Run.yields_bind.2 ⟨.next next, last, considered, ih traced⟩
        · rename_i next last considered
          exact Run.yields_bind.2 ⟨.restart next, last, considered, ih traced⟩
        · rename_i result last considered
          obtain ⟨rfl, rfl⟩ := Prod.mk.inj (Option.some.inj traced)
          exact Run.yields_bind.2 ⟨.finished result, _, considered, Run.yields_pure.2 ⟨rfl, rfl⟩⟩
        · cases traced
      · cases traced

variable (a refiner task limits) in
/-- How a search comes out, also if it fails, with the results of each expansion at hand before the
next one. -/
def evaluate : Nat → SearchState a.partitionKey → Context →
    Except Error (Option SearchOutcome) × Context
  | expansions, search, context =>
    match search.frontier.pop?, expansions with
    | none, _ => (.ok (some search.exhausted), context)
    | some _, 0 => (.ok none, context)
    | some (s, frontier), expansions + 1 =>
      match (a.successors s).outcome context with
      | (.error error, context) => (.error error, context)
      | (.ok states, context) =>
        match (a.considerAll refiner task limits { search with frontier } states).outcome context with
        | (.error error, context) => (.error error, context)
        | (.ok (.next search), context) | (.ok (.restart search), context) =>
          evaluate expansions search context
        | (.ok (.finished outcome), context) => (.ok (some outcome), context)

theorem outcome_search {expansions : Nat} :
    (a.search refiner task limits expansions search).outcome before =
      a.evaluate refiner task limits expansions search before := by
  induction expansions generalizing search before with
  | zero =>
    unfold evaluate Analysis.search
    cases search.frontier.pop? with
    | none | some _ => rfl
  | succ expansions ih =>
    unfold evaluate Analysis.search
    cases search.frontier.pop? with
    | none => rfl
    | some next =>
      obtain ⟨s, frontier⟩ := next
      simp only [Run.outcome_bind]
      rcases (a.successors s).outcome before with ⟨_ | states, middle⟩
      · rfl
      · dsimp only
        rcases (a.considerAll refiner task limits { search with frontier } states).outcome middle with
          ⟨_ | step, last⟩
        · rfl
        · cases step with
          | next search | restart search => exact ih
          | finished outcome => rfl

/-- A search that ends within the given expansions comes out the same with more of them. -/
theorem outcome_search_of_le {expansions more : Nat} (enough : expansions ≤ more)
    (ends : ∀ after, (a.search refiner task limits expansions search).outcome before ≠
      (.ok none, after)) :
    (a.search refiner task limits more search).outcome before =
      (a.search refiner task limits expansions search).outcome before := by
  simp only [outcome_search] at ends ⊢
  induction expansions generalizing more search before with
  | zero =>
    revert ends
    unfold evaluate
    cases search.frontier.pop? with
    | none => exact fun _ => rfl
    | some next => exact fun ends => absurd rfl (ends before)
  | succ expansions ih =>
    obtain ⟨more, rfl⟩ := Nat.exists_eq_succ_of_ne_zero (Nat.ne_zero_of_lt enough)
    have later := Nat.le_of_succ_le_succ enough
    revert ends
    unfold evaluate
    cases search.frontier.pop? with
    | none => exact fun _ => rfl
    | some next =>
      obtain ⟨s, frontier⟩ := next
      dsimp only
      rcases (a.successors s).outcome before with ⟨_ | states, middle⟩
      · exact fun _ => rfl
      · dsimp only
        rcases (a.considerAll refiner task limits { search with frontier } states).outcome middle with
          ⟨_ | step, last⟩
        · exact fun _ => rfl
        · cases step with
          | next search | restart search => exact ih later
          | finished outcome => exact fun _ => rfl

theorem outcome_reachability {expansions : Nat} {states : List σ}
    (began : a.initial.Yields before states after) :
    (a.reachability refiner task limits expansions).outcome before =
      (a.search refiner task limits expansions
        { states.foldl SearchSets.insert ({} : SearchSets a.partitionKey) with }).outcome after := by
  unfold reachability
  rw [Run.outcome_bind, began]

end Analysis

end EventCheck
