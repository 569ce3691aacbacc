import EventCheck.Proofs.Search

/-!
The course of a search, operation by operation: what each of them finds in which context, how often
a state has been taken from the frontier, and which successors have been widened since the search
last started. What holds at every moment is shown along these steps, also for searches that fail or
do not end; whatever a search comes to, it comes to from such a moment.
-/

namespace EventCheck

/-- What a search does next. -/
inductive Phase (σ : Type) where
  /-- It takes the first waiting state. -/
  | idle
  /-- It computes the successors of the state just taken. -/
  | popped (s : σ)
  /-- It widens the next of the successors still to come and merges it into the reached states. -/
  | expanding (rest : List σ)
  /-- It asks whether the state that has been merged is covered. -/
  | merged (s : σ) (rest : List σ)
  /-- It judges the violation just admitted. -/
  | judging (s : σ) (rest : List σ)

/-- The states that may yet be admitted. -/
def Phase.coming {σ : Type} : Phase σ → List σ
  | .idle | .popped _ => []
  | .expanding rest | .judging _ rest => rest
  | .merged s rest => s :: rest

/-- The successors that have yet to be widened. -/
def Phase.unwidened {σ : Type} : Phase σ → List σ
  | .idle | .popped _ => []
  | .expanding rest | .merged _ rest | .judging _ rest => rest

/-- A moment of a search. -/
structure Course {σ : Type} (key : σ → PartitionKey) where
  search : SearchState key
  phase : Phase σ := .idle
  /-- What the search has started from, or started over from. -/
  begun : SearchSets key
  /-- The successors widened since then, the last one first. -/
  widened : List σ := []
  /-- How many states have been taken from the frontier. -/
  pops : Nat := 0

/-- A search at its start. -/
def Course.start {σ : Type} [DecidableEq σ] {key : σ → PartitionKey} (states : List σ) :
    Course key :=
  let sets := states.foldl SearchSets.insert {}
  { search := { sets with }, begun := sets }

namespace Analysis

variable {σ : Type} [DecidableEq σ] {a : Analysis σ} {refiner : Refiner a.partitionKey}
variable {task : Task} {limits : SearchLimits} {first before middle after : Context}
variable {states : List σ} {m : Course a.partitionKey}

/-- One operation of a search, begun in the first context and ended in the second. -/
inductive Advances (a : Analysis σ) (refiner : Refiner a.partitionKey) (limits : SearchLimits) :
    Context → Course a.partitionKey → Context → Course a.partitionKey → Prop
  | pop {context : Context} {m : Course a.partitionKey} {s : σ} {frontier : Frontier a.partitionKey}
    (idle : m.phase = .idle) (popped : m.search.frontier.pop? = some (s, frontier)) :
    Advances a refiner limits context m context
      { m with search := { m.search with frontier }, phase := .popped s, pops := m.pops + 1 }
  | follow {before after : Context} {m : Course a.partitionKey} {s : σ} {rest : List σ}
    (popped : m.phase = .popped s) (followed : (a.successors s).Yields before rest after) :
    Advances a refiner limits before m after { m with phase := .expanding rest }
  | merge {before middle after : Context} {m : Course a.partitionKey} {successor w : σ}
    {rest : List σ} {sets : SearchSets a.partitionKey}
    (expanding : m.phase = .expanding (successor :: rest))
    (room : m.search.reached.size < limits.maxStates)
    (widened : (a.widen successor (m.search.reached.partitionOf successor)).Yields before w middle)
    (merged : (a.mergeInto w m.search.toSearchSets).Yields middle sets after) :
    Advances a refiner limits before m after
      { m with search := { m.search with toSearchSets := sets }, phase := .merged w rest,
               widened := w :: m.widened }
  | cover {before after : Context} {m : Course a.partitionKey} {w : σ} {rest : List σ}
    (merged : m.phase = .merged w rest)
    (covered : (a.stop w (m.search.reached.partitionOf w)).Yields before true after) :
    Advances a refiner limits before m after { m with phase := .expanding rest }
  | accept {before after : Context} {m : Course a.partitionKey} {w : σ} {rest : List σ}
    (merged : m.phase = .merged w rest)
    (uncovered : (a.stop w (m.search.reached.partitionOf w)).Yields before false after)
    (harmless : (a.target w).isEmpty = true) :
    Advances a refiner limits before m after
      { m with search := { m.search with toSearchSets := m.search.toSearchSets.insert w },
               phase := .expanding rest }
  | violate {before after : Context} {m : Course a.partitionKey} {w : σ} {rest : List σ}
    (merged : m.phase = .merged w rest)
    (uncovered : (a.stop w (m.search.reached.partitionOf w)).Yields before false after)
    (violation : (a.target w).isEmpty = false) :
    Advances a refiner limits before m after
      { m with search := { m.search with reached := m.search.reached.insert w },
               phase := .judging w rest }
  | doubt {context : Context} {m : Course a.partitionKey} {w : σ} {rest : List σ} {reason : String}
    (judging : m.phase = .judging w rest)
    (check : a.Checks refiner m.search.reached w (.inconclusive reason)) :
    Advances a refiner limits context m context
      { m with search := { m.search with undecided := m.search.undecided <|> some reason },
               phase := .expanding rest }
  | refine {context : Context} {m : Course a.partitionKey} {w : σ} {rest : List σ}
    {begun : SearchSets a.partitionKey} (judging : m.phase = .judging w rest)
    (check : a.Checks refiner m.search.reached w .infeasible)
    (budget : m.search.refinements < limits.maxRefinements)
    (refined : refiner.refine m.search.toSearchSets w = .ok (true, begun)) :
    Advances a refiner limits context m context
      { m with search := { m.search with refinements := m.search.refinements + 1,
                                         toSearchSets := begun },
               phase := .idle, begun, widened := [] }
  | finish {context : Context} {m : Course a.partitionKey} (expanding : m.phase = .expanding []) :
    Advances a refiner limits context m context { m with phase := .idle }

/-- A search whose initial states are the given ones, computed in the first context, comes to the
moment in the second one. -/
inductive Comes (a : Analysis σ) (refiner : Refiner a.partitionKey) (limits : SearchLimits)
    (first : Context) (states : List σ) : Context → Course a.partitionKey → Prop
  | start {context : Context} (given : a.initial.Yields first states context) :
    Comes a refiner limits first states context (.start states)
  | step {before after : Context} {m next : Course a.partitionKey}
    (comes : Comes a refiner limits first states before m)
    (advances : a.Advances refiner limits before m after next) :
    Comes a refiner limits first states after next

/-! ### Computing moments -/

variable (a refiner limits) in
/-- The next moment of a search and its context, unless the search ends or fails there. -/
def advance (context : Context) (m : Course a.partitionKey) :
    Option (Context × Course a.partitionKey) :=
  match m.phase with
  | .idle => m.search.frontier.pop?.map fun (s, frontier) => (context,
      { m with search := { m.search with frontier }, phase := .popped s, pops := m.pops + 1 })
  | .popped s =>
    match (a.successors s).outcome context with
    | (.ok rest, after) => some (after, { m with phase := .expanding rest })
    | _ => none
  | .expanding [] => some (context, { m with phase := .idle })
  | .expanding (successor :: rest) =>
    if limits.maxStates ≤ m.search.reached.size then none
    else
      match (a.widen successor (m.search.reached.partitionOf successor)).outcome context with
      | (.ok w, middle) =>
        match (a.mergeInto w m.search.toSearchSets).outcome middle with
        | (.ok sets, after) => some (after,
            { m with search := { m.search with toSearchSets := sets }, phase := .merged w rest,
                     widened := w :: m.widened })
        | _ => none
      | _ => none
  | .merged w rest =>
    match (a.stop w (m.search.reached.partitionOf w)).outcome context with
    | (.ok true, after) => some (after, { m with phase := .expanding rest })
    | (.ok false, after) =>
      if (a.target w).isEmpty then some (after,
        { m with search := { m.search with toSearchSets := m.search.toSearchSets.insert w },
                 phase := .expanding rest })
      else some (after,
        { m with search := { m.search with reached := m.search.reached.insert w },
                 phase := .judging w rest })
    | _ => none
  | .judging w rest =>
    match (a.accessibility m.search.reached).bind (refiner.feasibility m.search.reached · w) with
    | .ok (.inconclusive reason) => some (context,
        { m with search := { m.search with undecided := m.search.undecided <|> some reason },
                 phase := .expanding rest })
    | .ok .infeasible =>
      if limits.maxRefinements ≤ m.search.refinements then none
      else
        match refiner.refine m.search.toSearchSets w with
        | .ok (true, begun) => some (context,
            { m with search := { m.search with refinements := m.search.refinements + 1,
                                               toSearchSets := begun },
                     phase := .idle, begun, widened := [] })
        | _ => none
    | _ => none

theorem advances_of_advance {next : Course a.partitionKey}
    (given : a.advance refiner limits before m = some (after, next)) :
    a.Advances refiner limits before m after next := by
  unfold advance at given
  split at given
  · rename_i idle
    obtain ⟨⟨s, frontier⟩, popped, same⟩ := Option.map_eq_some_iff.1 given
    obtain ⟨rfl, rfl⟩ := Prod.mk.inj same
    exact .pop idle popped
  · rename_i popped
    split at given
    · rename_i followed
      obtain ⟨rfl, rfl⟩ := Prod.mk.inj (Option.some.inj given)
      exact .follow popped followed
    · cases given
  · rename_i expanding
    obtain ⟨rfl, rfl⟩ := Prod.mk.inj (Option.some.inj given)
    exact .finish expanding
  · rename_i expanding
    split at given
    · cases given
    · rename_i room
      split at given
      · rename_i widened
        split at given
        · rename_i merged
          obtain ⟨rfl, rfl⟩ := Prod.mk.inj (Option.some.inj given)
          exact .merge expanding (Nat.lt_of_not_le room) widened merged
        · cases given
      · cases given
  · rename_i merged
    split at given
    · rename_i covered
      obtain ⟨rfl, rfl⟩ := Prod.mk.inj (Option.some.inj given)
      exact .cover merged covered
    · rename_i uncovered
      split at given
      · rename_i harmless
        obtain ⟨rfl, rfl⟩ := Prod.mk.inj (Option.some.inj given)
        exact .accept merged uncovered harmless
      · rename_i violation
        obtain ⟨rfl, rfl⟩ := Prod.mk.inj (Option.some.inj given)
        exact .violate merged uncovered (by simpa using violation)
    · cases given
  · rename_i judging
    split at given
    · rename_i check
      obtain ⟨rfl, rfl⟩ := Prod.mk.inj (Option.some.inj given)
      exact .doubt judging (bind_eq_ok_iff.1 check)
    · rename_i check
      split at given
      · cases given
      · rename_i budget
        split at given
        · rename_i refined
          obtain ⟨rfl, rfl⟩ := Prod.mk.inj (Option.some.inj given)
          exact .refine judging (bind_eq_ok_iff.1 check) (Nat.lt_of_not_le budget) refined
        · cases given
    · cases given

variable (a refiner limits) in
/-- The moment after a number of operations. -/
def advanceTimes : Nat → Context → Course a.partitionKey → Option (Context × Course a.partitionKey)
  | 0, context, m => some (context, m)
  | operations + 1, context, m =>
    match a.advance refiner limits context m with
    | some (context, m) => advanceTimes operations context m
    | none => none

theorem comes_of_advanceTimes {operations : Nat} {next : Course a.partitionKey}
    (comes : a.Comes refiner limits first states before m)
    (given : a.advanceTimes refiner limits operations before m = some (after, next)) :
    a.Comes refiner limits first states after next := by
  induction operations generalizing before m with
  | zero =>
    obtain ⟨rfl, rfl⟩ := Prod.mk.inj (Option.some.inj given)
    exact comes
  | succ operations ih =>
    unfold advanceTimes at given
    split at given
    · rename_i advanced
      exact ih (comes.step (advances_of_advance advanced)) given
    · cases given

/-! ### From runs to moments -/

/-- What a search leaves that ends at the moment: its sets as they are then, or what the refiner has
made of them that found no progress to be made. -/
def Leaves (a : Analysis σ) (refiner : Refiner a.partitionKey) (m : Course a.partitionKey)
    (sets : SearchSets a.partitionKey) : Prop :=
  sets = m.search.toSearchSets ∨ ∃ w rest, m.phase = .judging w rest ∧
    refiner.refine m.search.toSearchSets w = .ok (false, sets)

/-- The outcome is that of a moment by which at most the given number of states have been taken. -/
def Ends (a : Analysis σ) (refiner : Refiner a.partitionKey) (limits : SearchLimits)
    (first : Context) (states : List σ) (pops : Nat) (outcome : SearchOutcome) : Prop :=
  ∃ context last sets, a.Comes refiner limits first states context last ∧ last.pops ≤ pops ∧
    a.Leaves refiner last sets ∧ outcome.reachedStates = sets.reached.size

/-- What a search comes to when it deals with a successor: its end, or the next moment. -/
theorem comes_of_consider {successor : σ} {rest : List σ} {step : SearchStep a.partitionKey}
    (comes : a.Comes refiner limits first states before m)
    (expanding : m.phase = .expanding (successor :: rest))
    (given : (a.consider refiner task limits m.search successor).Yields before step after) :
    (∃ outcome, step = .finished outcome ∧
      a.Ends refiner limits first states m.pops outcome) ∨
    ∃ next, a.Comes refiner limits first states after next ∧ next.pops = m.pops ∧
      (step = .next next.search ∧ next.phase = .expanding rest ∨
        step = .restart next.search ∧ next.phase = .idle) := by
  by_cases full : limits.maxStates ≤ m.search.reached.size
  · unfold consider at given
    rw [if_pos full] at given
    exact Or.inl ⟨_, (Run.yields_pure.1 given).1.symm, _, m, _, comes, Nat.le_refl _, Or.inl rfl, rfl⟩
  have room : m.search.reached.size < limits.maxStates := Nat.lt_of_not_le full
  rcases yields_consider given with ⟨_, rfl⟩ | ⟨w, widened, sets, merged, covered, widen, merge,
    stop, form⟩
  · exact Or.inl ⟨_, rfl, _, m, _, comes, Nat.le_refl _, Or.inl rfl, rfl⟩
  have comes := comes.step (.merge expanding room widen merge)
  rcases form with ⟨rfl, rfl⟩ | ⟨rfl, harmless, rfl⟩ | ⟨rfl, violation, judged⟩
  · exact Or.inr ⟨_, comes.step (.cover rfl stop), rfl, Or.inl ⟨rfl, rfl⟩⟩
  · exact Or.inr ⟨_, comes.step (.accept rfl stop harmless), rfl, Or.inl ⟨rfl, rfl⟩⟩
  · have comes := comes.step (.violate rfl stop violation)
    rcases judge_eq_ok judged with ⟨_, _, _, _, _, _, rfl⟩ | ⟨ended, _, rfl, rfl | refined⟩ |
      ⟨begun, check, budget, refined, rfl⟩ | ⟨reason, check, rfl⟩
    · exact Or.inl ⟨_, rfl, _, _, _, comes, Nat.le_refl _, Or.inl rfl, rfl⟩
    · exact Or.inl ⟨_, rfl, _, _, _, comes, Nat.le_refl _, Or.inl rfl, rfl⟩
    · exact Or.inl ⟨_, rfl, _, _, _, comes, Nat.le_refl _, Or.inr ⟨_, _, rfl, refined⟩, rfl⟩
    · exact Or.inr ⟨_, comes.step (.refine rfl check budget refined), rfl, Or.inr ⟨rfl, rfl⟩⟩
    · exact Or.inr ⟨_, comes.step (.doubt rfl check), rfl, Or.inl ⟨rfl, rfl⟩⟩

/-- What a search comes to when it deals with the successors of a state: its end, or a moment
between two states. -/
theorem comes_of_considerAll {rest : List σ} {step : SearchStep a.partitionKey}
    (comes : a.Comes refiner limits first states before m) (expanding : m.phase = .expanding rest)
    (given : (a.considerAll refiner task limits m.search rest).Yields before step after) :
    (∃ outcome, step = .finished outcome ∧
      a.Ends refiner limits first states m.pops outcome) ∨
    ∃ next, a.Comes refiner limits first states after next ∧ next.pops = m.pops ∧
      next.phase = .idle ∧ step = .restart next.search := by
  induction rest generalizing m before with
  | nil =>
    obtain ⟨rfl, rfl⟩ := Run.yields_pure.1 given
    exact Or.inr ⟨_, comes.step (.finish expanding), rfl, rfl, rfl⟩
  | cons successor rest ih =>
    obtain ⟨reached, middle, considered, given⟩ := Run.yields_bind.1 given
    rcases comes_of_consider comes expanding considered with ⟨outcome, rfl, ends⟩ |
      ⟨next, later, pops, ⟨rfl, still⟩ | ⟨rfl, idle⟩⟩
    · obtain ⟨rfl, rfl⟩ := Run.yields_pure.1 given
      exact Or.inl ⟨outcome, rfl, ends⟩
    · exact pops ▸ ih later still given
    · obtain ⟨rfl, rfl⟩ := Run.yields_pure.1 given
      exact Or.inr ⟨next, later, pops, idle, rfl⟩

/-- A search that ends does so at one of its moments; one that runs out of expansions has taken as
many states and still has some waiting. -/
theorem comes_of_search {expansions : Nat} {result : Option SearchOutcome}
    (comes : a.Comes refiner limits first states before m) (idle : m.phase = .idle)
    (given : (a.search refiner task limits expansions m.search).Yields before result after) :
    (∃ outcome, result = some outcome ∧
      a.Ends refiner limits first states (m.pops + expansions) outcome) ∨
    ∃ last s frontier, result = none ∧ a.Comes refiner limits first states after last ∧
      last.pops = m.pops + expansions ∧ last.phase = .idle ∧
      last.search.frontier.pop? = some (s, frontier) := by
  induction expansions generalizing m before with
  | zero =>
    unfold Analysis.search at given
    split at given
    · exact Or.inl ⟨_, (Run.yields_pure.1 given).1.symm, _, m, _, comes, Nat.le_refl _, Or.inl rfl,
        rfl⟩
    · rename_i next popped _
      obtain ⟨rfl, rfl⟩ := Run.yields_pure.1 given
      exact Or.inr ⟨m, _, _, rfl, comes, rfl, idle, popped⟩
    · rename_i impossible
      cases impossible
  | succ expansions ih =>
    unfold Analysis.search at given
    split at given
    · exact Or.inl ⟨_, (Run.yields_pure.1 given).1.symm, _, m, _, comes, Nat.le_add_right _ _,
        Or.inl rfl, rfl⟩
    · rename_i impossible
      cases impossible
    · rename_i s frontier _ popped count
      obtain rfl := Nat.succ.inj count
      obtain ⟨rest, middle, followed, given⟩ := Run.yields_bind.1 given
      obtain ⟨step, last, considered, given⟩ := Run.yields_bind.1 given
      have later := (comes.step (.pop idle popped)).step (.follow rfl followed)
      have count : m.pops + 1 + expansions = m.pops + (expansions + 1) := by omega
      rcases comes_of_considerAll later rfl considered with ⟨outcome, rfl, context, final, sets, ends,
        pops, leaves, size⟩ | ⟨next, comes, pops, idle, rfl⟩
      · obtain ⟨rfl, _⟩ := Run.yields_pure.1 given
        exact Or.inl ⟨outcome, rfl, context, final, sets, ends,
          Nat.le_trans pops (count ▸ Nat.le_add_right _ _), leaves, size⟩
      · have found := ih comes idle given
        rwa [pops, count] at found

/-- A search from the initial states that ends does so at one of its moments, and one that runs out
of expansions has taken as many states and still has some waiting. -/
theorem comes_of_reachability {expansions : Nat} {result : Option SearchOutcome}
    (given : (a.reachability refiner task limits expansions).Yields first result after) :
    ∃ states, (∃ middle, a.initial.Yields first states middle) ∧
      ((∃ outcome, result = some outcome ∧
        a.Ends refiner limits first states expansions outcome) ∨
      ∃ last s frontier, result = none ∧ a.Comes refiner limits first states after last ∧
        last.pops = expansions ∧ last.phase = .idle ∧
        last.search.frontier.pop? = some (s, frontier)) := by
  obtain ⟨states, middle, began, given⟩ := Run.yields_bind.1 given
  refine ⟨states, ⟨middle, began⟩, ?_⟩
  have found := comes_of_search (m := .start states) (.start began) rfl given
  rwa [show (Course.start states : Course a.partitionKey).pops = 0 from rfl, Nat.zero_add] at found

end Analysis

end EventCheck
