import EventCheck.Proofs.Search
import Mathlib.Logic.Relation

/-!
The search step by step, with a record of its past: from which sets it started after the last
refinement, what it has admitted since then, and what all checks of violations have come to. A
search that ends without a violation has gone through such steps.
-/

namespace EventCheck

/-- A search under way, with a record of its past. -/
structure Moment {σ : Type} (key : σ → PartitionKey) where
  search : SearchState key
  /-- The state being expanded, with those of its successors that are still to come. -/
  pending : Option (σ × List σ) := none
  /-- What the search has started from, or started over from. -/
  begun : SearchSets key
  /-- The states admitted since then. -/
  admitted : List σ := []
  /-- What the checks of violations have come to, the last one first. -/
  checks : List Feasibility := []

namespace Moment

variable {σ : Type} {key : σ → PartitionKey} [DecidableEq σ]

/-- The search at its start. -/
def start (sets : SearchSets key) : Moment key := { search := { sets with }, begun := sets }

/-- The search once a violation has been admitted and before it is judged. -/
def withViolation (m : Moment key) (sets : SearchSets key) (s : σ) : SearchState key :=
  { m.search with reached := sets.reached.insert s, frontier := sets.frontier }

/-- No state is left to expand, and the search comes to the outcome. -/
structure Ends (m : Moment key) (outcome : SearchOutcome) : Prop where
  idle : m.pending = none
  empty : m.search.frontier.queue = []
  outcome_eq : outcome = m.search.exhausted

end Moment

namespace Analysis

variable {σ : Type} [DecidableEq σ] {a : Analysis σ} {refiner : Refiner a.partitionKey}
variable {task : Task} {limits : SearchLimits} {search : SearchState a.partitionKey}
variable {s : σ} {before after : Context}

/-- The successor is widened and merged into the reached states, and then found covered or not. -/
def Considers (a : Analysis σ) (limits : SearchLimits) (search : SearchState a.partitionKey)
    (successor s : σ) (sets : SearchSets a.partitionKey) (covered : Bool) : Prop :=
  search.reached.size < limits.maxStates ∧ ∃ before widened merged after,
    (a.widen successor (search.reached.partitionOf successor)).Yields before s widened ∧
    (a.mergeInto s search.toSearchSets).Yields widened sets merged ∧
    (a.stop s (sets.reached.partitionOf s)).Yields merged covered after

/-- One step of the search that does not end it. -/
inductive Moves (a : Analysis σ) (refiner : Refiner a.partitionKey) (limits : SearchLimits) :
    Moment a.partitionKey → Moment a.partitionKey → Prop
  | pop {m : Moment a.partitionKey} {s : σ} {frontier : Frontier a.partitionKey} {states : List σ}
    {before after : Context} (idle : m.pending = none)
    (popped : m.search.frontier.pop? = some (s, frontier))
    (followed : (a.successors s).Yields before states after) :
    Moves a refiner limits m
      { m with search := { m.search with frontier }, pending := some (s, states) }
  | cover {m : Moment a.partitionKey} {s successor w : σ} {rest : List σ}
    {sets : SearchSets a.partitionKey} (pending : m.pending = some (s, successor :: rest))
    (considered : a.Considers limits m.search successor w sets true) :
    Moves a refiner limits m
      { m with search := { m.search with toSearchSets := sets }, pending := some (s, rest) }
  | accept {m : Moment a.partitionKey} {s successor w : σ} {rest : List σ}
    {sets : SearchSets a.partitionKey} (pending : m.pending = some (s, successor :: rest))
    (considered : a.Considers limits m.search successor w sets false)
    (harmless : a.target w = ∅) :
    Moves a refiner limits m
      { m with search := { m.search with toSearchSets := sets.insert w },
               pending := some (s, rest), admitted := w :: m.admitted }
  | doubt {m : Moment a.partitionKey} {s successor w : σ} {rest : List σ} {reason : String}
    {sets : SearchSets a.partitionKey} (pending : m.pending = some (s, successor :: rest))
    (considered : a.Considers limits m.search successor w sets false)
    (violation : a.target w ≠ ∅)
    (check : a.Checks refiner (m.withViolation sets w).reached w (.inconclusive reason)) :
    Moves a refiner limits m
      { m with search := { m.withViolation sets w with
                 undecided := m.search.undecided <|> some reason },
               pending := some (s, rest), admitted := w :: m.admitted,
               checks := .inconclusive reason :: m.checks }
  | refine {m : Moment a.partitionKey} {s successor w : σ} {rest : List σ}
    {sets begun : SearchSets a.partitionKey} (pending : m.pending = some (s, successor :: rest))
    (considered : a.Considers limits m.search successor w sets false)
    (violation : a.target w ≠ ∅)
    (check : a.Checks refiner (m.withViolation sets w).reached w .infeasible)
    (budget : m.search.refinements < limits.maxRefinements)
    (refined : refiner.refine (m.withViolation sets w).toSearchSets w = .ok (true, begun)) :
    Moves a refiner limits m
      { search := { m.search with refinements := m.search.refinements + 1, toSearchSets := begun },
        begun, checks := .infeasible :: m.checks }
  | finish {m : Moment a.partitionKey} {s : σ} (pending : m.pending = some (s, [])) :
    Moves a refiner limits m { m with pending := none }

/-- Several steps of the search. -/
abbrev Goes (a : Analysis σ) (refiner : Refiner a.partitionKey) (limits : SearchLimits) :
    Moment a.partitionKey → Moment a.partitionKey → Prop :=
  Relation.ReflTransGen (a.Moves refiner limits)

/-! ### Runs -/

/-- What becomes of a search that considers a successor: it ends unsafe, or it makes a step. -/
theorem moves_of_consider {m : Moment a.partitionKey} {successor : σ} {rest : List σ}
    {step : SearchStep a.partitionKey} (pending : m.pending = some (s, successor :: rest))
    (given : (a.consider refiner task limits m.search successor).Yields before step after) :
    (∃ outcome, step = .finished outcome ∧ outcome.verdict ≠ .safe) ∨
      ∃ next, a.Moves refiner limits m next ∧
        (step = .next next.search ∧ next.pending = some (s, rest) ∨
          step = .restart next.search ∧ next.pending = none) := by
  by_cases full : limits.maxStates ≤ m.search.reached.size
  · unfold consider at given
    rw [if_pos full] at given
    exact Or.inl ⟨_, (Run.yields_pure.1 given).1.symm, nofun⟩
  have below : m.search.reached.size < limits.maxStates := Nat.lt_of_not_le full
  rcases yields_consider given with ⟨_, rfl⟩ | ⟨w, widened, sets, merged, covered, first, second,
    third, result⟩
  · exact Or.inl ⟨_, rfl, nofun⟩
  have considered : a.Considers limits m.search successor w sets covered :=
    ⟨below, _, _, _, _, first, second, third⟩
  rcases result with ⟨rfl, rfl⟩ | ⟨rfl, harmless, rfl⟩ | ⟨rfl, violation, judged⟩
  · exact Or.inr ⟨_, .cover pending considered, Or.inl ⟨rfl, rfl⟩⟩
  · exact Or.inr ⟨_, .accept pending considered (SortedSet.isEmpty_iff.1 harmless),
      Or.inl ⟨rfl, rfl⟩⟩
  · have some : a.target w ≠ ∅ := fun none => by
      rw [SortedSet.isEmpty_iff.2 none] at violation
      cases violation
    rcases judge_eq_ok judged with ⟨_, _, _, _, _, _, rfl⟩ | ⟨_, _, rfl, _⟩ |
      ⟨begun, check, budget, refined, rfl⟩ | ⟨reason, check, rfl⟩
    · exact Or.inl ⟨_, rfl, nofun⟩
    · exact Or.inl ⟨_, rfl, nofun⟩
    · exact Or.inr ⟨_, .refine pending considered some check budget refined,
        Or.inr ⟨rfl, rfl⟩⟩
    · exact Or.inr ⟨_, .doubt pending considered some check, Or.inl ⟨rfl, rfl⟩⟩

/-- A search that finds no violation has gone on until no state was left to expand. -/
theorem exists_goes {m : Moment a.partitionKey} {expansions : Nat} {outcome : SearchOutcome}
    (given : (a.search refiner task limits expansions m.search).Yields before (some outcome) after)
    (idle : m.pending = none) (safe : outcome.verdict = .safe) :
    ∃ last, a.Goes refiner limits m last ∧ last.Ends outcome := by
  refine @search_induction _ _ a refiner task limits m.search before after
    (fun _ search => ∃ last, a.Goes refiner limits m last ∧ last.pending = none ∧
      last.search = search)
    (fun s _ _ rest search => ∃ last, a.Goes refiner limits m last ∧
      last.pending = some (s, rest) ∧ last.search = search)
    (fun outcome => outcome.verdict = .safe → ∃ last, a.Goes refiner limits m last ∧
      last.Ends outcome)
    expansions outcome ?_ ?_ ?_ ?_ given ⟨m, .refl, idle, rfl⟩ safe
  · rintro before search s frontier states after ⟨last, goes, idle, rfl⟩ popped followed
    exact ⟨_, goes.tail (.pop idle popped followed), rfl, rfl⟩
  · rintro s states before search successor rest step after ⟨last, goes, pending, rfl⟩ considered
    rcases moves_of_consider pending considered with ⟨outcome, rfl, violated⟩ | ⟨next, moves,
      ⟨rfl, still⟩ | ⟨rfl, idle⟩⟩
    · exact fun safe => absurd safe violated
    · exact ⟨next, goes.tail moves, still, rfl⟩
    · exact ⟨next, goes.tail moves, idle, rfl⟩
  · rintro s states context search ⟨last, goes, pending, rfl⟩
    exact ⟨_, goes.tail (.finish pending), rfl, rfl⟩
  · rintro context search ⟨last, goes, idle, rfl⟩ none _
    exact ⟨last, goes, idle, Frontier.queue_eq_nil none, rfl⟩

end Analysis

end EventCheck
