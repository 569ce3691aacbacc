import EventCheck.Proofs.SearchSteps

/-!
What a search has reached when it finds no violation. Each state that it expands has its successors
covered, and stays covered itself while merges take its place, so at the end nothing leads out of
the reached states.
-/

namespace EventCheck

variable {σ : Type}

/-! ### Analyses without a context -/

/-- The operations of an analysis that needs no context and widens states regardless of what is
reached. -/
structure Analysis.Pure (a : Analysis σ) where
  successors : σ → Except Error (List σ)
  widen : σ → Except Error σ
  merge : σ → σ → Except Error σ
  stop : σ → List σ → Except Error Bool
  successors_eq (s : σ) : a.successors s = .ofExcept (successors s)
  widen_eq (s : σ) (reached : List σ) : a.widen s reached = .ofExcept (widen s)
  merge_eq (s t : σ) : a.merge s t = .ofExcept (merge s t)
  stop_eq (s : σ) (reached : List σ) : a.stop s reached = .ofExcept (stop s reached)

section Refiners

variable {key : σ → PartitionKey}

/-- All reached states wait. -/
def SearchSets.Waits (sets : SearchSets key) : Prop :=
  ∀ s ∈ sets.reached.toList, s ∈ sets.frontier.queue

/-- What the refiner starts over with is well formed. -/
def Refiner.Lawful (refiner : Refiner key) : Prop :=
  ∀ sets s next, sets.Sound → refiner.refine sets s = .ok (true, next) → next.Sound

/-- All that the refiner starts over with waits. -/
def Refiner.Restarts (refiner : Refiner key) : Prop :=
  ∀ sets s next, refiner.refine sets s = .ok (true, next) → next.Waits

theorem SearchSets.waits_insertAll [DecidableEq σ] (states : List σ) :
    (states.foldl SearchSets.insert ({} : SearchSets key)).Waits := by
  obtain ⟨_, reached, waiting⟩ := (sound_empty : ({} : SearchSets key).Sound).insertAll states
  intro s member
  exact (waiting s).2 (((reached s).1 member).imp_right nofun)

end Refiners

theorem Refiner.lawful_data (a : Analysis σ) (solver : Solver) :
    (data a solver).Lawful ∧ (data a solver).Restarts := by
  constructor <;> nofun

/-- The refinement of predicates starts over with states that it inserts. -/
theorem Refiner.lawful_abstraction [DecidableEq σ] (a : Analysis (AbstractionState σ))
    (solver : Solver) : (abstraction a solver).Lawful ∧ (abstraction a solver).Restarts := by
  refine ⟨fun sets s next _ refined => ?_, fun sets s next refined => ?_⟩
  · obtain ⟨_, _, _, _, _, _, rfl⟩ := exists_of_refinePrecision refined
    exact (SearchSets.sound_empty.insertAll _).1
  · obtain ⟨_, _, _, _, _, _, rfl⟩ := exists_of_refinePrecision refined
    exact SearchSets.waits_insertAll _

namespace Analysis.Pure

variable {a : Analysis σ} {refiner : Refiner a.partitionKey} {limits : SearchLimits}
variable {p : a.Pure} {m next : Moment a.partitionKey} {sets later : SearchSets a.partitionKey}
variable {s t old merged successor : σ} {before after : Context}

/-- States are covered one by one, and a merge covers what the reached state did. -/
structure Covering (p : a.Pure) : Prop where
  stop_iff (s : σ) (states : List σ) :
    p.stop s states = .ok true ↔ ∃ r ∈ states, p.stop s [r] = .ok true
  merge_covers (s t merged : σ) : a.shouldMerge s t = .ok true → p.merge s t = .ok merged →
    p.stop t [merged] = .ok true
  merge_keeps (s t merged u : σ) : a.shouldMerge s t = .ok true → p.merge s t = .ok merged →
    p.stop u [t] = .ok true → p.stop u [merged] = .ok true

/-- The state is reached, or a reached one covers it. -/
def Covered (p : a.Pure) (reached : Reached a.partitionKey) (s : σ) : Prop :=
  s ∈ reached.toList ∨ ∃ r ∈ reached.toList, p.stop s [r] = .ok true

/-- The state is covered once it is widened. -/
def Absorbs (p : a.Pure) (reached : Reached a.partitionKey) (s : σ) : Prop :=
  ∃ w, p.widen s = .ok w ∧ p.Covered reached w

/-- No step leads from the state out of what is covered. -/
def Closed (p : a.Pure) (reached : Reached a.partitionKey) (s : σ) : Prop :=
  ∃ states, p.successors s = .ok states ∧ ∀ t ∈ states, p.Absorbs reached t

/-- Where a search stands that has found no violation. A state that is not closed yet waits or is
being expanded; it owes nothing only if it was reached from the beginning and did not wait then. -/
structure Closing (p : a.Pure) (m : Moment a.partitionKey) : Prop where
  sound : m.search.toSearchSets.Sound
  begun : ∀ s ∈ m.begun.reached.toList, p.Covered m.search.reached s
  closed : ∀ s ∈ m.search.reached.toList,
    (s ∈ m.begun.reached.toList → s ∈ m.begun.frontier.queue) →
      s ∈ m.search.frontier.queue ∨ (∃ rest, m.pending = some (s, rest)) ∨
        p.Closed m.search.reached s
  expanded : ∀ s rest, m.pending = some (s, rest) → ∃ done, p.successors s = .ok (done ++ rest) ∧
    ∀ t ∈ done, p.Absorbs m.search.reached t
  admitted : ∀ s ∈ m.admitted, a.target s = ∅
  checks : ∀ reason, .inconclusive reason ∉ m.checks

/-! ### Growing sets -/

/-- What was covered stays covered, and what is newly reached waits. -/
structure Grows (p : a.Pure) (sets next : SearchSets a.partitionKey) : Prop where
  sound : next.Sound
  covered : ∀ s, p.Covered sets.reached s → p.Covered next.reached s
  waiting : ∀ s ∈ next.reached.toList, s ∈ next.frontier.queue ∨
    s ∈ sets.reached.toList ∧ s ∉ sets.frontier.queue

theorem Grows.refl (sound : sets.Sound) : p.Grows sets sets :=
  ⟨sound, fun _ => id, fun s member =>
    (Classical.em (s ∈ sets.frontier.queue)).imp_right fun out => ⟨member, out⟩⟩

theorem Grows.trans {middle : SearchSets a.partitionKey}
    (first : p.Grows sets middle) (second : p.Grows middle later) : p.Grows sets later := by
  refine ⟨second.sound, fun s covered => second.covered s (first.covered s covered), ?_⟩
  intro s member
  rcases second.waiting s member with waits | ⟨member, idle⟩
  · exact Or.inl waits
  · exact Or.inr ((first.waiting s member).resolve_left idle)

theorem Grows.absorbs (grows : p.Grows sets later) (absorbs : p.Absorbs sets.reached t) :
    p.Absorbs later.reached t :=
  absorbs.imp fun w => And.imp_right (grows.covered w)

theorem Grows.closed (grows : p.Grows sets later) (closed : p.Closed sets.reached s) :
    p.Closed later.reached s :=
  closed.imp fun _ => And.imp_right fun all t member => grows.absorbs (all t member)

/-! ### Steps -/

/-- A search may begin with sets in which some states wait. -/
theorem closing_start (sound : sets.Sound) : p.Closing (.start sets) :=
  ⟨sound, fun _ => Or.inl, fun _ member waits => Or.inl (waits member), nofun, nofun, nofun⟩

/-- The next successor is dealt with once it is covered. -/
theorem Closing.advance (closing : p.Closing m) {rest : List σ}
    (pending : m.pending = some (s, successor :: rest)) (grows : p.Grows m.search.toSearchSets sets)
    (absorbs : p.Absorbs sets.reached successor) :
    p.Closing { m with search := { m.search with toSearchSets := sets },
                       pending := some (s, rest) } := by
  refine { closing with
    sound := grows.sound
    begun := fun t member => grows.covered t (closing.begun t member)
    closed := fun t member waits => ?_
    expanded := fun t later same => ?_ }
  · -- a merge waits in any case, also that of the state being expanded
    rcases grows.waiting t member with queued | ⟨member, idle⟩
    · exact Or.inl queued
    · rcases closing.closed t member waits with queued | ⟨later, expanded⟩ | closed
      · exact absurd queued idle
      · obtain ⟨rfl, _⟩ := Prod.mk.inj (Option.some.inj (pending.symm.trans expanded))
        exact Or.inr (Or.inl ⟨rest, rfl⟩)
      · exact Or.inr (Or.inr (grows.closed closed))
  · obtain ⟨rfl, rfl⟩ := Prod.mk.inj (Option.some.inj same)
    obtain ⟨done, followed, all⟩ := closing.expanded s _ pending
    refine ⟨done ++ [successor], by rw [followed, List.append_assoc, List.singleton_append], ?_⟩
    intro t member
    rcases List.mem_append.1 member with before | last
    · exact grows.absorbs (all t before)
    · exact List.mem_singleton.1 last ▸ absorbs

theorem Closing.finish (closing : p.Closing m) (pending : m.pending = some (s, [])) :
    p.Closing { m with pending := none } := by
  refine { closing with
    closed := fun t member waits => ?_
    expanded := nofun }
  rcases closing.closed t member waits with queued | ⟨rest, expanded⟩ | closed
  · exact Or.inl queued
  · obtain ⟨rfl, rfl⟩ := Prod.mk.inj (Option.some.inj (pending.symm.trans expanded))
    obtain ⟨done, followed, all⟩ := closing.expanded s [] pending
    exact Or.inr (Or.inr ⟨done, by rw [followed, List.append_nil], all⟩)
  · exact Or.inr (Or.inr closed)

variable [DecidableEq σ]

/-! ### Merges -/

theorem grows_insert (sound : sets.Sound) : p.Grows sets (sets.insert s) := by
  obtain ⟨inserted, reached, waiting⟩ := sound.insert (s := s)
  refine ⟨inserted, fun t covered => ?_, fun t member => ?_⟩
  · have kept : ∀ r ∈ sets.reached.toList, r ∈ (sets.insert s).reached.toList :=
      fun r member => (reached r).2 (Or.inr member)
    exact covered.imp (kept t) fun ⟨r, member, covers⟩ => ⟨r, kept r member, covers⟩
  · rcases (reached t).1 member with rfl | member
    · exact Or.inl ((waiting t).2 (Or.inl rfl))
    · by_cases queued : t ∈ sets.frontier.queue
      · exact Or.inl ((waiting t).2 (Or.inr queued))
      · exact Or.inr ⟨member, queued⟩

/-- A merge covers all that the state covered whose place it takes. -/
theorem grows_substitute (covering : p.Covering) (sound : sets.Sound)
    (replaces : a.Replaces s old merged) : p.Grows sets (sets.substitute old merged) := by
  obtain ⟨wanted, ⟨_, _, given⟩, changed⟩ := replaces
  -- the merge takes over what the old state covered, itself included
  rw [p.merge_eq] at given
  have given : p.merge s old = .ok merged := (Run.yields_ofExcept.1 given).1
  obtain ⟨replaced, reached, waiting⟩ := sound.substitute changed
  have placed : merged ∈ (sets.substitute old merged).reached.toList :=
    (reached merged).2 (Or.inl rfl)
  refine ⟨replaced, fun t covered => ?_, fun t member => ?_⟩
  · rcases covered with member | ⟨r, member, covers⟩
    · by_cases same : t = old
      · exact Or.inr ⟨merged, placed, same ▸ covering.merge_covers s old merged wanted given⟩
      · exact Or.inl ((reached t).2 (Or.inr ⟨member, same⟩))
    · by_cases same : r = old
      · exact Or.inr ⟨merged, placed,
          covering.merge_keeps s old merged t wanted given (same ▸ covers)⟩
      · exact Or.inr ⟨r, (reached r).2 (Or.inr ⟨member, same⟩), covers⟩
  · rcases (reached t).1 member with rfl | ⟨member, different⟩
    · exact Or.inl ((waiting t).2 (Or.inl rfl))
    · by_cases queued : t ∈ sets.frontier.queue
      · exact Or.inl ((waiting t).2 (Or.inr ⟨queued, different⟩))
      · exact Or.inr ⟨member, queued⟩

theorem grows_mergeInto (covering : p.Covering) (sound : sets.Sound)
    (given : (a.mergeInto s sets).Yields before later after) : p.Grows sets later :=
  mergeInto_induction given (.refl sound) fun _ _ _ grown _ replaces =>
    grown.trans (grows_substitute covering grown.sound replaces)

/-- A successor that is considered is widened, and then covered or not. -/
theorem grows_of_considers (covering : p.Covering) (sound : m.search.toSearchSets.Sound)
    {covered : Bool} (considered : a.Considers limits m.search successor s sets covered) :
    p.widen successor = .ok s ∧ p.Grows m.search.toSearchSets sets ∧
      (covered = true → p.Covered sets.reached s) := by
  obtain ⟨_, _, _, _, _, widened, merged, stopped⟩ := considered
  rw [p.widen_eq] at widened
  rw [p.stop_eq] at stopped
  refine ⟨(Run.yields_ofExcept.1 widened).1, grows_mergeInto covering sound merged, ?_⟩
  rintro rfl
  obtain ⟨r, member, covers⟩ := (covering.stop_iff _ _).1 (Run.yields_ofExcept.1 stopped).1
  exact Or.inr ⟨r, Reached.mem_of_partitionOf member, covers⟩

/-- A state that is admitted is covered by itself. -/
theorem Closing.accept (closing : p.Closing m) {rest : List σ}
    (pending : m.pending = some (s, successor :: rest)) (grows : p.Grows m.search.toSearchSets sets)
    (widened : p.widen successor = .ok t) :
    p.Closing { m with search := { m.search with toSearchSets := sets.insert t },
                       pending := some (s, rest) } :=
  closing.advance pending (grows.trans (grows_insert grows.sound))
    ⟨t, widened, Or.inl ((grows.sound.insert.2.1 t).2 (Or.inl rfl))⟩

/-! ### Runs -/

theorem Closing.pop (closing : p.Closing m) {frontier : Frontier a.partitionKey}
    {states : List σ} (idle : m.pending = none)
    (popped : m.search.frontier.pop? = some (s, frontier)) (followed : p.successors s = .ok states) :
    p.Closing { m with search := { m.search with frontier }, pending := some (s, states) } := by
  obtain ⟨queue, sound⟩ := closing.sound.frontier.pop popped
  refine { closing with
    sound := ⟨closing.sound.reached, sound⟩
    closed := fun t member waits => ?_
    expanded := fun t rest same => ?_ }
  · rcases closing.closed t member waits with queued | ⟨rest, pending⟩ | closed
    · rw [queue] at queued
      rcases List.mem_cons.1 queued with rfl | queued
      · exact Or.inr (Or.inl ⟨states, rfl⟩)
      · exact Or.inl queued
    · cases idle.symm.trans pending
    · exact Or.inr (Or.inr closed)
  · obtain ⟨rfl, rfl⟩ := Prod.mk.inj (Option.some.inj same)
    exact ⟨[], followed, nofun⟩

/-- What is owed changes with every step, but only states that wait or are being expanded owe. -/
theorem Closing.step (covering : p.Covering) (lawful : refiner.Lawful) (closing : p.Closing m)
    (moves : a.Moves refiner limits m next) (decided : next.search.undecided = none) :
    p.Closing next := by
  cases moves with
  | pop idle popped followed =>
    rw [p.successors_eq] at followed
    exact closing.pop idle popped (Run.yields_ofExcept.1 followed).1
  | cover pending considered =>
    obtain ⟨widened, grows, covered⟩ := grows_of_considers covering closing.sound considered
    exact closing.advance pending grows ⟨_, widened, covered rfl⟩
  | accept pending considered harmless =>
    obtain ⟨widened, grows, _⟩ := grows_of_considers covering closing.sound considered
    exact { closing.accept pending grows widened with
      admitted := List.forall_mem_cons.2 ⟨harmless, closing.admitted⟩ }
  | doubt => simp at decided
  | @refine s successor w rest sets begun pending considered violation check budget refined =>
    obtain ⟨_, grows, _⟩ := grows_of_considers covering closing.sound considered
    have sound : (m.withViolation sets w).toSearchSets.Sound :=
      ⟨Reached.keyed_insert grows.sound.reached, grows.sound.frontier⟩
    have started : p.Closing (.start begun) := closing_start (lawful _ _ _ sound refined)
    refine { started with checks := fun reason member => ?_ }
    rcases List.mem_cons.1 member with impossible | before
    · cases impossible
    · exact closing.checks reason before
  | finish pending => exact closing.finish pending

theorem undecided_of_moves (moves : a.Moves refiner limits m next)
    (decided : next.search.undecided = none) : m.search.undecided = none := by
  cases moves with
  | doubt => simp at decided
  | _ => exact decided

theorem closing_of_goes (covering : p.Covering) (lawful : refiner.Lawful) (sound : sets.Sound)
    (goes : a.Goes refiner limits (.start sets) m) (decided : m.search.undecided = none) :
    p.Closing m := by
  induction goes with
  | refl => exact closing_start sound
  | tail _ moves ih =>
    exact (ih (undecided_of_moves moves decided)).step covering lawful moves decided

/-- With a refiner that lets all wait every search begins with states that wait. -/
theorem waits_of_goes (restarts : refiner.Restarts) (waits : sets.Waits)
    (goes : a.Goes refiner limits (.start sets) m) : m.begun.Waits := by
  induction goes with
  | refl => exact waits
  | tail _ moves ih =>
    cases moves with
    | refine _ _ _ _ _ refined => exact restarts _ _ _ refined
    | _ => exact ih

/-- When a search finds no violation, the states from which it last began are covered by those that
it has reached, nothing leads out of these, no state admitted since then violates anything, and
every check has been decided. Only a state that the refiner left reached without letting it wait need
not have been expanded; a refiner that `Restarts` leaves none. -/
theorem closed_of_safe {task : Task} (p : a.Pure) (covering : p.Covering)
    (lawful : refiner.Lawful) {expansions : Nat} {outcome : SearchOutcome}
    (given : (a.reachability refiner task limits expansions).Yields before (some outcome) after)
    (safe : outcome.verdict = .safe) :
    ∃ states middle, a.initial.Yields before states middle ∧
      let first := Moment.start (states.foldl SearchSets.insert {})
      (∃ last, a.Goes refiner limits first last ∧ last.Ends outcome) ∧
      ∀ last, a.Goes refiner limits first last → last.Ends outcome →
        (∀ s ∈ last.begun.reached.toList, p.Covered last.search.reached s) ∧
        (∀ s ∈ last.search.reached.toList,
          (s ∈ last.begun.reached.toList → s ∈ last.begun.frontier.queue) →
            p.Closed last.search.reached s) ∧
        (refiner.Restarts → ∀ s ∈ last.search.reached.toList, p.Closed last.search.reached s) ∧
        (∀ s ∈ last.admitted, a.target s = ∅) ∧
        ∀ reason, .inconclusive reason ∉ last.checks := by
  obtain ⟨states, middle, began, searched⟩ := Run.yields_bind.1 given
  refine ⟨states, middle, began, exists_goes (m := .start _) searched rfl safe, ?_⟩
  intro last goes ends
  have decided := undecided_of_exhausted (ends.outcome_eq ▸ safe)
  have closing := closing_of_goes covering lawful (SearchSets.sound_empty.insertAll states).1 goes
    decided
  have closed : ∀ s ∈ last.search.reached.toList,
      (s ∈ last.begun.reached.toList → s ∈ last.begun.frontier.queue) →
        p.Closed last.search.reached s := by
    intro s member waits
    rcases closing.closed s member waits with queued | ⟨rest, pending⟩ | closed
    · simp [ends.empty] at queued
    · cases ends.idle.symm.trans pending
    · exact closed
  refine ⟨closing.begun, closed, fun restarts s member => ?_, closing.admitted, closing.checks⟩
  exact closed s member (waits_of_goes restarts (SearchSets.waits_insertAll states) goes s)

end Analysis.Pure

/-! ### A search that starts over -/

/-- Counts up to five, and keeps the greatest number from two on. One is a violation. -/
def countsUp : Analysis Nat where
  initial := .ofExcept (.ok [0])
  successors n := .ofExcept (.ok (if n < 5 then [n + 1] else []))
  join s t := .ofExcept (.ok (max s t))
  shouldMerge _ t := .ok (decide (2 ≤ t))
  merge s t := .ofExcept (.ok (max s t))
  stop s reached := .ofExcept (.ok (reached.any fun r => decide (s ≤ r)))
  widen s _ := .ofExcept (.ok s)
  target n := if n = 1 then .ofList [⟨"P"⟩] else ∅
  partitionKey _ := []
  formula _ := .ok .top
  resetPath s := .ok s
  isLoopHead _ := false
  instantiate _ e := e
  label _ := []
  values _ := ∅
  provenance _ := none

def countsUp.pure : countsUp.Pure where
  successors n := .ok (if n < 5 then [n + 1] else [])
  widen := .ok
  merge s t := .ok (max s t)
  stop s reached := .ok (reached.any fun r => decide (s ≤ r))
  successors_eq _ := rfl
  widen_eq _ _ := rfl
  merge_eq _ _ := rfl
  stop_eq _ _ := rfl

/-- Takes no violation for feasible and starts over from two. -/
def startsOverAtTwo : Refiner countsUp.partitionKey where
  feasibility _ _ _ := .ok .infeasible
  refine _ _ := .ok (true, SearchSets.insert {} 2)

theorem countsUp.covering : countsUp.pure.Covering where
  stop_iff s states := by simp [countsUp.pure]
  merge_covers s t merged _ given := by
    obtain rfl := Except.ok.inj given
    simp only [countsUp.pure, Except.ok.injEq, List.any_cons, List.any_nil, Bool.or_false,
      decide_eq_true_eq]
    exact Nat.le_max_right s t
  merge_keeps s t merged u _ given covers := by
    obtain rfl := Except.ok.inj given
    simp only [countsUp.pure, Except.ok.injEq, List.any_cons, List.any_nil, Bool.or_false,
      decide_eq_true_eq] at covers ⊢
    exact Nat.le_trans covers (Nat.le_max_right s t)

theorem lawful_startsOverAtTwo : startsOverAtTwo.Lawful := by
  intro sets s next _ refined
  obtain rfl := (Prod.mk.inj (Except.ok.inj refined)).2
  exact SearchSets.sound_empty.insert.1

theorem restarts_startsOverAtTwo : startsOverAtTwo.Restarts := by
  intro sets s next refined
  obtain rfl := (Prod.mk.inj (Except.ok.inj refined)).2
  exact SearchSets.waits_insertAll [2]

/-- The search from zero finds no violation after one refinement. -/
theorem safe_countsUp : ((countsUp.trace startsOverAtTwo default {} 6
    { ([0].foldl SearchSets.insert {} : SearchSets countsUp.partitionKey) with } {}).any
      fun (outcome, _) => outcome.verdict.isSafe && outcome.refinements == 1) = true := by
  decide +kernel

/-- So what it has reached in the end is closed. -/
theorem exists_closed_of_safe : ∃ (outcome : SearchOutcome) (after : Context)
    (last : Moment countsUp.partitionKey),
    (countsUp.reachability startsOverAtTwo default {} 6).Yields {} (some outcome) after ∧
      outcome.verdict = .safe ∧ outcome.refinements = 1 ∧
      countsUp.Goes startsOverAtTwo {} (.start ([0].foldl SearchSets.insert {})) last ∧
      last.Ends outcome ∧
      ∀ s ∈ last.search.reached.toList, countsUp.pure.Closed last.search.reached s := by
  obtain ⟨⟨outcome, after⟩, traced, checked⟩ := (Option.any_eq_true _ _).1 safe_countsUp
  simp only [Bool.and_eq_true, beq_iff_eq] at checked
  have safe := Verdict.eq_safe checked.1
  have given : (countsUp.reachability startsOverAtTwo default {} 6).Yields {} (some outcome) after :=
    Run.yields_bind.2 ⟨[0], {}, rfl, Analysis.yields_of_trace traced⟩
  obtain ⟨states, _, began, ⟨last, goes, ends⟩, all⟩ := Analysis.Pure.closed_of_safe countsUp.pure
    countsUp.covering lawful_startsOverAtTwo given safe
  have zero : states = [0] :=
    (Except.ok.inj (Run.yields_ofExcept (x := .ok [0]) |>.1 began).1).symm
  obtain ⟨_, _, closed, _⟩ := all last goes ends
  exact ⟨outcome, after, last, given, safe, checked.2, zero ▸ goes, ends,
    closed restarts_startsOverAtTwo⟩

/-- Takes no violation for feasible and starts over with the sets as they are. -/
def keepsSets : Refiner countsUp.partitionKey where
  feasibility _ _ _ := .ok .infeasible
  refine sets _ := .ok (true, sets)

theorem lawful_keepsSets : keepsSets.Lawful := by
  intro sets s next sound refined
  obtain rfl := (Prod.mk.inj (Except.ok.inj refined)).2
  exact sound

/-- The search from zero reaches one as a violation, and then nothing waits. -/
theorem exists_ends_keepsSets : ∃ (outcome : SearchOutcome) (last : Moment countsUp.partitionKey),
    (countsUp.reachability keepsSets default {} 1).Yields {} (some outcome) {} ∧
      outcome.verdict = .safe ∧
      countsUp.Goes keepsSets {} (.start ([0].foldl SearchSets.insert {})) last ∧
      last.Ends outcome ∧ last.search.reached.toList = [0, 1] := by
  have followed : (countsUp.successors 0).Yields {} [1] {} := rfl
  have popped : countsUp.Moves keepsSets {} (.start ([0].foldl SearchSets.insert {})) _ :=
    .pop rfl rfl followed
  refine ⟨_, _, rfl, rfl, (Relation.ReflTransGen.refl.tail popped).tail (.refine rfl
    ⟨by decide, {}, {}, {}, {}, rfl, rfl, rfl⟩ (by decide) ⟨_, rfl, rfl⟩ (by decide) rfl),
    ⟨rfl, rfl, rfl⟩, rfl⟩

/-- A search that finds no violation need not close what it has reached if its refiner leaves states
reached that do not wait. Here that is one, which leads to two. -/
theorem exists_safe_not_closed : countsUp.pure.Covering ∧ keepsSets.Lawful ∧
    (∀ s t, countsUp.partitionKey s = countsUp.partitionKey t) ∧
    ∃ (outcome : SearchOutcome) (after : Context) (last : Moment countsUp.partitionKey),
      (countsUp.reachability keepsSets default {} 1).Yields {} (some outcome) after ∧
        outcome.verdict = .safe ∧
        countsUp.Goes keepsSets {} (.start ([0].foldl SearchSets.insert {})) last ∧
        last.Ends outcome ∧
        1 ∈ last.search.reached.toList ∧ ¬countsUp.pure.Closed last.search.reached 1 := by
  obtain ⟨outcome, last, given, safe, goes, ends, reached⟩ := exists_ends_keepsSets
  refine ⟨countsUp.covering, lawful_keepsSets, fun _ _ => rfl, outcome, {}, last, given, safe, goes,
    ends, by simp [reached], ?_⟩
  rintro ⟨states, followed, all⟩
  obtain rfl := Except.ok.inj followed
  obtain ⟨w, widened, covered⟩ := all 2 (by decide)
  obtain rfl := Except.ok.inj widened
  rcases covered with member | ⟨r, member, covers⟩
  · simp [reached] at member
  · have either : r = 0 ∨ r = 1 := by simpa [reached] using member
    rcases either with rfl | rfl <;> cases covers

end EventCheck
