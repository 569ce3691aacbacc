import EventCheck.Proofs.Restarts
import Mathlib.Data.List.Dedup

/-!
What a search may spend that merges nothing. Each state it takes from the frontier was put there as
a new reached state, and of these there is only room for so many between two refinements, so the
budgets for states and refinements bound how many states it takes.
-/

namespace EventCheck

variable {σ : Type} {key : σ → PartitionKey}

theorem SearchSets.Sound.length_queue {sets : SearchSets key} (sound : sets.Sound)
    (same : ∀ s, s ∈ sets.frontier.queue ↔ s ∈ sets.reached.toList) :
    sets.frontier.queue.length = sets.reached.size := by
  rw [Reached.size]
  exact ((List.perm_ext_iff_of_nodup sound.frontier.nodup (Reached.nodup_toList sound.reached)).2
    same).length_eq

variable [DecidableEq σ]

theorem SearchSets.size_start (states : List σ) :
    (states.foldl SearchSets.insert ({} : SearchSets key)).reached.size = states.dedup.length := by
  obtain ⟨sound, reached, _⟩ := @SearchSets.sound_start _ key _ states
  rw [Reached.size]
  exact ((List.perm_ext_iff_of_nodup (Reached.nodup_toList sound.reached)
    (List.nodup_dedup states)).2 fun s => (reached s).trans List.mem_dedup.symm).length_eq

theorem Frontier.length_insert_le {frontier : Frontier key} {s : σ} :
    (frontier.insert s).queue.length ≤ frontier.queue.length + 1 := by
  unfold Frontier.insert
  split
  · exact Nat.le_succ _
  · simp

/-! ### What has been spent -/

namespace Course

variable {limits : SearchLimits} {room : Nat} {m : Course key} {states : List σ}

omit [DecidableEq σ] in
/-- Where a search stands that merges nothing, and what it has spent: each state that it has taken
or that waits counts among the reached states, or else against a refinement. -/
structure Spends (limits : SearchLimits) (room : Nat) (m : Course key) : Prop where
  sound : m.search.toSearchSets.Sound
  waits : ∀ s ∈ m.search.frontier.queue, s ∈ m.search.reached.toList
  known : ∀ s ∈ m.search.reached.toList, s ∈ m.begun.reached.toList ∨ s ∈ m.widened
  merged : ∀ w rest, m.phase = .merged w rest → w ∈ m.widened ∧
    w ∉ m.search.reached.toList ∧ m.search.reached.size < limits.maxStates
  refinements : m.search.refinements ≤ limits.maxRefinements
  size : m.search.reached.size ≤ room
  pops : m.pops + m.search.frontier.queue.length ≤
    m.search.refinements * room + m.search.reached.size

theorem spends_start (few : states.dedup.length ≤ room) :
    (start states : Course key).Spends limits room := by
  obtain ⟨sound, reached, waiting⟩ := @SearchSets.sound_start _ key _ states
  have queue := sound.length_queue fun s => (waiting s).trans (reached s).symm
  have size := @SearchSets.size_start _ key _ states
  refine ⟨sound, fun s member => (reached s).2 ((waiting s).1 member), fun s => Or.inl,
    fun w rest same => (by cases same), Nat.zero_le _, size ▸ few, ?_⟩
  show 0 + _ ≤ 0 * room + _
  rw [show (start states : Course key).search.frontier.queue.length = _ from queue, Nat.zero_add,
    Nat.zero_mul, Nat.zero_add]
  exact Nat.le_refl _

/-- The widened state takes up room when it is admitted, and may wait. -/
theorem Spends.accept (spends : m.Spends limits room) (enough : limits.maxStates ≤ room)
    {w : σ} {rest : List σ} (merged : m.phase = .merged w rest) {frontier : Frontier key}
    (sound : frontier.Sound) (waits : ∀ s ∈ frontier.queue, s = w ∨ s ∈ m.search.frontier.queue)
    (length : frontier.queue.length ≤ m.search.frontier.queue.length + 1)
    {phase : Phase σ} (goes : ∀ w rest, phase ≠ .merged w rest) :
    Spends limits room
      { m with search := { m.search with reached := m.search.reached.insert w, frontier }, phase } := by
  obtain ⟨widened, absent, below⟩ := spends.merged w rest merged
  have members := fun s => Reached.mem_insert (s := w) (t := s) spends.sound.reached
  have size := Reached.size_insert spends.sound.reached absent
  have pops := spends.pops
  refine ⟨⟨Reached.keyed_insert spends.sound.reached, sound⟩, fun s member => ?_, fun s member => ?_,
    fun w rest same => absurd same (goes w rest), spends.refinements, ?_, ?_⟩
  · exact (members s).2 ((waits s member).imp_right (spends.waits s))
  · rcases (members s).1 member with rfl | member
    · exact Or.inr widened
    · exact spends.known s member
  · dsimp only
    omega
  · dsimp only
    omega

omit [DecidableEq σ] in
/-- A refinement pays for all states that were reached by then. -/
theorem Spends.refine (spends : m.Spends limits room)
    (budget : m.search.refinements < limits.maxRefinements) {begun : SearchSets key}
    (sound : begun.Sound) (same : ∀ s, s ∈ begun.frontier.queue ↔ s ∈ begun.reached.toList)
    (size : begun.reached.size ≤ room) :
    Spends limits room
      { m with search := { m.search with refinements := m.search.refinements + 1,
                                         toSearchSets := begun },
               phase := .idle, begun, widened := [] } := by
  refine ⟨sound, fun s => (same s).1, fun s => Or.inl, nofun, budget, size, ?_⟩
  have pops := spends.pops
  have all := spends.size
  dsimp only
  rw [sound.length_queue same, Nat.succ_mul]
  omega

omit [DecidableEq σ] in
/-- As many states have been taken or wait as there was room for each time that the search began. -/
theorem Spends.pops_le (spends : m.Spends limits room) :
    m.pops + m.search.frontier.queue.length ≤ (limits.maxRefinements + 1) * room := by
  have pops := spends.pops
  have size := spends.size
  have refinements := Nat.mul_le_mul_right room spends.refinements
  rw [Nat.succ_mul]
  omega

end Course

namespace Analysis

variable {a : Analysis σ} {refiner : Refiner a.partitionKey} {limits : SearchLimits}
variable {first before after : Context} {states : List σ} {m next : Course a.partitionKey}
variable {n room : Nat}

/-- Widened successors are new: no two since the search last started are the same, and none is one of
the states that it started from. -/
def WidensAnew (a : Analysis σ) (refiner : Refiner a.partitionKey) (limits : SearchLimits)
    (first : Context) (states : List σ) : Prop :=
  ∀ context m, a.Comes refiner limits first states context m →
    m.widened.Nodup ∧ ∀ w ∈ m.widened, w ∉ m.begun.reached.toList

/-- When the refiner starts the search over, it does so with sets as they should be, in which the same
states are reached and waiting, at most the given number of them. -/
def RestartsWithin (a : Analysis σ) (refiner : Refiner a.partitionKey) (limits : SearchLimits)
    (first : Context) (states : List σ) (n : Nat) : Prop :=
  ∀ context m w rest begun, a.Comes refiner limits first states context m →
    m.phase = .judging w rest → refiner.refine m.search.toSearchSets w = .ok (true, begun) →
    begun.Sound ∧ (∀ s, s ∈ begun.frontier.queue ↔ s ∈ begun.reached.toList) ∧
      begun.reached.size ≤ n

theorem spends_of_advances (apart : ∀ s t, a.shouldMerge s t ≠ .ok true)
    (enough : limits.maxStates ≤ room)
    (anew : next.widened.Nodup ∧ ∀ w ∈ next.widened, w ∉ next.begun.reached.toList)
    (restarts : ∀ w rest begun, m.phase = .judging w rest →
      refiner.refine m.search.toSearchSets w = .ok (true, begun) →
      begun.Sound ∧ (∀ s, s ∈ begun.frontier.queue ↔ s ∈ begun.reached.toList) ∧
        begun.reached.size ≤ room)
    (advances : a.Advances refiner limits before m after next) (spends : m.Spends limits room) :
    next.Spends limits room := by
  cases advances with
  | pop idle popped =>
    obtain ⟨queue, sound⟩ := spends.sound.frontier.pop popped
    have pops := spends.pops
    rw [queue, List.length_cons] at pops
    refine { spends with
      sound := ⟨spends.sound.reached, sound⟩
      waits := fun t member => spends.waits t (queue ▸ List.mem_cons_of_mem _ member)
      merged := nofun
      pops := ?_ }
    dsimp only
    omega
  | merge expanding room widened merged =>
    rename_i w rest sets
    obtain ⟨rfl, _⟩ := mergeInto_of_apart (apart w) merged
    obtain ⟨unique, different⟩ := anew
    refine { spends with
      known := fun s member => (spends.known s member).imp_right (List.mem_cons_of_mem w)
      merged := fun v later same => ?_ }
    obtain ⟨rfl, rfl⟩ := Phase.merged.inj same
    refine ⟨List.mem_cons_self, fun member => ?_, room⟩
    rcases spends.known w member with begun | before
    · exact different w List.mem_cons_self begun
    · exact (List.nodup_cons.1 unique).1 before
  | accept merged =>
    rename_i w _ _ _
    obtain ⟨inserted, waiting⟩ := spends.sound.frontier.insert (s := w)
    exact spends.accept enough merged inserted (fun s => (waiting s).1) Frontier.length_insert_le nofun
  | violate merged =>
    exact spends.accept enough merged spends.sound.frontier (fun s => Or.inr) (Nat.le_succ _) nofun
  | refine judging check budget refined =>
    obtain ⟨sound, same, size⟩ := restarts _ _ _ judging refined
    exact spends.refine budget sound same size
  | follow | cover | doubt | finish => exact { spends with merged := nofun }

theorem spends_of_comes (apart : ∀ s t, a.shouldMerge s t ≠ .ok true)
    (anew : a.WidensAnew refiner limits first states)
    (restarts : a.RestartsWithin refiner limits first states n) (few : states.dedup.length ≤ n)
    (comes : a.Comes refiner limits first states after m) :
    m.Spends limits (max limits.maxStates n) := by
  induction comes with
  | start => exact Course.spends_start (Nat.le_trans few (Nat.le_max_right _ _))
  | step comes advances ih =>
    refine spends_of_advances apart (Nat.le_max_left _ _) (anew _ _ (comes.step advances)) ?_
      advances ih
    intro w rest begun judging refined
    obtain ⟨sound, same, size⟩ := restarts _ _ w rest begun comes judging refined
    exact ⟨sound, same, Nat.le_trans size (Nat.le_max_right _ _)⟩

end Analysis

/-! ### The standard stack -/

namespace Verification

variable {σ : Type} [DecidableEq σ] {setting : Setting σ} {limits : SearchLimits}
variable {first before after : Context} {states : List (State σ)} {n : Nat}

/-- The numbers of the successors since the search last started, widened and not. -/
def numbersOf {key : State σ → PartitionKey} (m : Course key) : List Nat :=
  (m.phase.unwidened ++ m.widened).map State.id

omit [DecidableEq σ] in
/-- Where a search stands that has handed out `n` numbers: successors have their own ones, none of
which a state has that the search started from. -/
structure Fresh {key : State σ → PartitionKey} (n : Nat) (m : Course key) : Prop where
  begun : ∀ b ∈ m.begun.reached.toList, b.id < n
  below : ∀ id ∈ numbersOf m, id < n
  distinct : (numbersOf m).Nodup
  away : ∀ id ∈ numbersOf m, ∀ b ∈ m.begun.reached.toList, b.id ≠ id

omit [DecidableEq σ] in
theorem Fresh.mono {key : State σ → PartitionKey} {m : Course key} {k : Nat} (fresh : Fresh n m)
    (grows : n ≤ k) : Fresh k m :=
  { fresh with
    begun := fun b member => Nat.lt_of_lt_of_le (fresh.begun b member) grows
    below := fun id member => Nat.lt_of_lt_of_le (fresh.below id member) grows }

omit [DecidableEq σ] in
/-- Only the numbers and the start matter. -/
theorem Fresh.perm {key : State σ → PartitionKey} {m next : Course key} (fresh : Fresh n m)
    (begun : next.begun = m.begun) (numbers : (numbersOf next).Perm (numbersOf m)) :
    Fresh n next :=
  ⟨begun ▸ fresh.begun, fun id member => fresh.below id (numbers.mem_iff.1 member),
    numbers.nodup_iff.2 fresh.distinct,
    fun id member => begun ▸ fresh.away id (numbers.mem_iff.1 member)⟩

omit [DecidableEq σ] in
/-- Successors with new numbers may come. -/
theorem Fresh.follow {key : State σ → PartitionKey} {m : Course key} {k : Nat} {s : State σ}
    {rest : List (State σ)} (fresh : Fresh n m) (popped : m.phase = .popped s) (grows : n ≤ k)
    (apart : rest.Pairwise fun t u => t.id ≠ u.id) (new : ∀ t ∈ rest, t.id < k ∧ n ≤ t.id) :
    Fresh k { m with phase := .expanding rest } := by
  have old : numbersOf m = m.widened.map State.id := by
    unfold numbersOf
    rw [popped]
    rfl
  have numbers : numbersOf { m with phase := .expanding rest } =
      rest.map State.id ++ numbersOf m := by
    rw [old]
    exact List.map_append
  have either : ∀ id ∈ rest.map State.id ++ numbersOf m, (id < k ∧ n ≤ id) ∨ id ∈ numbersOf m := by
    refine fun id member => (List.mem_append.1 member).imp_left fun inside => ?_
    obtain ⟨t, listed, rfl⟩ := List.mem_map.1 inside
    exact new t listed
  have grown := fresh.mono grows
  rw [← numbers] at either
  refine ⟨grown.begun, fun id member => ?_, ?_, fun id member b inside => ?_⟩
  · exact (either id member).elim And.left (grown.below id)
  · rw [numbers]
    refine List.nodup_append.2 ⟨List.pairwise_map.2 apart, fresh.distinct, ?_⟩
    intro id inside other before same
    obtain ⟨t, listed, rfl⟩ := List.mem_map.1 inside
    have below := fresh.below other before
    have above := (new t listed).2
    omega
  · rcases either id member with ⟨_, above⟩ | before
    · exact Nat.ne_of_lt (Nat.lt_of_lt_of_le (fresh.begun b inside) above)
    · exact fresh.away id before b inside

variable {m next : Course setting.analysis.withStatistics.partitionKey}

/-- No operation takes back a number. -/
theorem states_le_of_advances
    (advances : setting.analysis.withStatistics.Advances setting.refiner limits before m after next) :
    before.states ≤ after.states := by
  cases advances with
  | follow _ followed => exact (named_successors followed).1
  | merge _ _ widened merged =>
    rw [← (provenance_widen widened).2]
    refine Analysis.mergeInto_rule (a := setting.analysis.withStatistics)
      (fun context _ => _ ≤ context.states) merged (Nat.le_refl _) ?_
    intro c d _ _ _ below _ wanted merge
    rcases provenance_merge wanted merge with ⟨_, same⟩ | ⟨count, _⟩ <;> omega
  | cover _ covered => exact Nat.le_of_eq (keepsStates_covered covered).symm
  | accept _ uncovered | violate _ uncovered =>
    exact Nat.le_of_eq (keepsStates_covered uncovered).symm
  | pop | doubt | refine | finish => exact Nat.le_refl _

theorem fresh_of_advances (placed : Placed before.states m) (fresh : Fresh before.states m)
    (advances : setting.analysis.withStatistics.Advances setting.refiner limits before m after next) :
    Fresh after.states next := by
  have grown := fresh.mono (states_le_of_advances advances)
  cases advances with
  | pop phase | cover phase | accept phase | violate phase | doubt phase | finish phase =>
    refine grown.perm rfl (.of_eq ?_)
    unfold numbersOf
    rw [phase]
    rfl
  | follow popped followed =>
    obtain ⟨grows, apart, named⟩ := named_successors followed
    exact fresh.follow popped grows apart fun t member =>
      ⟨(named t member).1.handed, (named t member).2.1⟩
  | merge expanding room widened merged =>
    rename_i successor w rest sets
    have number : w.id = successor.id := congrArg Provenance.id (provenance_widen widened).1
    refine grown.perm rfl ?_
    unfold numbersOf
    rw [expanding]
    show ((rest ++ w :: m.widened).map State.id).Perm
      (successor.id :: (rest ++ m.widened).map State.id)
    rw [← number]
    exact List.perm_middle.map State.id
  | refine judging check budget refined =>
    have restarted := placed.origins.restart refined
    exact ⟨fun b member => (restarted.named b member).handed, nofun, .nil, nofun⟩

theorem fresh_of_comes
    (comes : setting.analysis.withStatistics.Comes setting.refiner limits first states after m) :
    Fresh after.states m := by
  induction comes with
  | start given =>
    have placed := placed_of_comes
      (.start given : setting.analysis.withStatistics.Comes setting.refiner limits first _ _ _)
    exact ⟨fun b member => (placed.origins.named b member).handed, nofun, .nil, nofun⟩
  | step comes advances ih => exact fresh_of_advances (placed_of_comes comes) ih advances

/-- The numbers of successors make them different from each other and from the states that the
search started from. -/
theorem widensAnew_standard :
    setting.analysis.withStatistics.WidensAnew setting.refiner limits first states := by
  intro context m comes
  have fresh := fresh_of_comes comes
  have numbers : ∀ w ∈ m.widened, w.id ∈ numbersOf m := fun w member =>
    List.mem_map_of_mem (List.mem_append_right _ member)
  refine ⟨?_, fun w member begun => fresh.away w.id (numbers w member) w begun rfl⟩
  exact (List.nodup_append.1 (List.Nodup.of_map State.id fresh.distinct)).2.1

/-- The search starts over from its initial states only. -/
theorem restartsWithin_standard :
    setting.analysis.withStatistics.RestartsWithin setting.refiner limits first states
      states.length := by
  intro context m w rest begun comes judging refined
  have origins := (placed_of_comes comes).origins.restart refined
  have roots := (roots_of_comes comes).restart refined
  refine ⟨origins.sound, fun s => ?_, ?_⟩
  · obtain ⟨_, found, initial, _, _, _, _, rfl⟩ := refinePrecision_eq_ok refined
    obtain ⟨_, reached, waiting⟩ :=
      @SearchSets.sound_start _ setting.analysis.withStatistics.partitionKey _
        (initial.map (·.withPrecision (w.precision ∪ found)))
    exact (waiting s).trans (reached s).symm
  · have distinct : (begun.reached.toList.map State.id).Nodup :=
      (Reached.nodup_toList origins.sound.reached).map_on origins.distinct
    have inside : begun.reached.toList.map State.id ⊆ states.map State.id := by
      intro id member
      obtain ⟨b, listed, rfl⟩ := List.mem_map.1 member
      obtain ⟨s, given, _, rfl⟩ := roots.initial b listed
      exact List.mem_map.2 ⟨s, given, rfl⟩
    have few := (List.subperm_of_subset distinct inside).length_le
    rwa [List.length_map, List.length_map] at few

end Verification

/-! ### Budgets -/

namespace Analysis

variable {σ : Type} [DecidableEq σ] {a : Analysis σ} {refiner : Refiner a.partitionKey}
variable {limits : SearchLimits} {first before : Context} {states : List σ} {room : Nat}

/-- No run of the search takes more states from its frontier than given: it has come out by then, and
comes out the same however many it may take. -/
def EndsWithin (a : Analysis σ) (refiner : Refiner a.partitionKey) (limits : SearchLimits)
    (first : Context) (pops : Nat) : Prop :=
  ∀ task, (∀ after, (a.reachability refiner task limits pops).outcome first ≠ (.ok none, after)) ∧
    ∀ expansions, pops ≤ expansions →
      (a.reachability refiner task limits expansions).outcome first =
        (a.reachability refiner task limits pops).outcome first

/-- What is spent at the moments of a search bounds how many states it takes at all. -/
theorem within_of_spends (began : a.initial.Yields first states before)
    (spends : ∀ context m, a.Comes refiner limits first states context m →
      m.Spends limits room) :
    (∀ context m, a.Comes refiner limits first states context m →
      m.pops ≤ (limits.maxRefinements + 1) * room ∧ m.search.reached.size ≤ room) ∧
    a.EndsWithin refiner limits first ((limits.maxRefinements + 1) * room) := by
  refine ⟨fun context m comes => ?_, fun task => ?_⟩
  · have spends := spends context m comes
    exact ⟨Nat.le_trans (Nat.le_add_right _ _) spends.pops_le, spends.size⟩
  · have ends : ∀ after, (a.reachability refiner task limits
        ((limits.maxRefinements + 1) * room)).outcome first ≠ (.ok none, after) := by
      intro after given
      obtain ⟨_, ⟨_, again⟩, ⟨_, some, _⟩ | ⟨last, s, frontier, _, comes, pops, _, popped⟩⟩ :=
        comes_of_reachability given
      · cases some
      · obtain ⟨same, rfl⟩ := Prod.mk.inj (began.symm.trans again)
        obtain rfl := Except.ok.inj same
        -- The state that still waits would have to be taken beyond what is allowed.
        have spends := spends _ _ comes
        have taken := spends.pops_le
        rw [(spends.sound.frontier.pop popped).1, List.length_cons, pops] at taken
        omega
    refine ⟨ends, fun expansions enough => ?_⟩
    simp only [outcome_reachability began] at ends ⊢
    exact outcome_search_of_le enough ends

/-- A search that merges nothing, whose widened successors are new and which starts over from no more
states than there are initial ones, ends within its budgets: it takes at most as many states as they
have room for, and while it goes on it never has more reached at once than there is room for. -/
theorem within_budgets_of_apart (apart : ∀ s t, a.shouldMerge s t ≠ .ok true)
    (began : a.initial.Yields first states before)
    (anew : a.WidensAnew refiner limits first states)
    (restarts : a.RestartsWithin refiner limits first states states.length) :
    (∀ context m, a.Comes refiner limits first states context m →
      m.pops ≤ (limits.maxRefinements + 1) * max limits.maxStates states.length ∧
        m.search.reached.size ≤ max limits.maxStates states.length) ∧
    a.EndsWithin refiner limits first
      ((limits.maxRefinements + 1) * max limits.maxStates states.length) :=
  within_of_spends began fun _ _ =>
    spends_of_comes apart anew restarts (List.dedup_sublist states).length_le

end Analysis

/-! ### A search that comes back -/

/-- Where the states lead. Three is a violation, and six leads back to four and five. -/
def leadsBack : Nat → List Nat
  | 2 => [3]
  | 6 => [4, 5, 7]
  | _ => []

/-- Starts from zero, one and two, and neither merges nor covers anything. -/
def comesBack : Analysis Nat where
  initial := .ofExcept (.ok [0, 1, 2])
  successors n := .ofExcept (.ok (leadsBack n))
  join s _ := .ofExcept (.ok s)
  shouldMerge _ _ := .ok false
  merge s _ := .ofExcept (.ok s)
  stop _ _ := .ofExcept (.ok false)
  widen s _ := .ofExcept (.ok s)
  target n := if n = 3 then .ofList [⟨"P"⟩] else ∅
  partitionKey _ := []
  formula _ := .ok .top
  resetPath s := .ok s
  isLoopHead _ := false
  instantiate _ e := e
  label _ := []
  values _ := ∅
  provenance _ := none

theorem mem_leadsBack {s u : Nat} (member : u ∈ leadsBack s) :
    s = 2 ∧ u = 3 ∨ s = 6 ∧ (u = 4 ∨ u = 5 ∨ u = 7) := by
  unfold leadsBack at member
  split at member <;> simp_all

theorem nodup_leadsBack (s : Nat) : (leadsBack s).Nodup := by
  unfold leadsBack
  split <;> decide

/-- Takes no violation for feasible and leaves the given states, reached and waiting. -/
def leavesBehind (progress : Bool) (states : List Nat) : Refiner comesBack.partitionKey where
  feasibility _ _ _ := .ok .infeasible
  refine _ _ := .ok (progress, states.foldl SearchSets.insert {})

theorem restartsWithin_leavesBehind {limits : SearchLimits} {progress : Bool} {given : List Nat}
    (few : progress = true → given.length ≤ 3) :
    comesBack.RestartsWithin (leavesBehind progress given) limits {} [0, 1, 2] 3 := by
  intro context m w rest begun _ _ refined
  obtain ⟨rfl, rfl⟩ := Prod.mk.inj (Except.ok.inj refined)
  obtain ⟨sound, reached, waiting⟩ := @SearchSets.sound_start _ comesBack.partitionKey _ given
  refine ⟨sound, fun s => (waiting s).trans (reached s).symm, ?_⟩
  rw [SearchSets.size_start]
  exact Nat.le_trans (List.dedup_sublist given).length_le (few rfl)

/-- Successors that are new at first, but not once a refiner has started over from some of them, make
a search take more states than there is room for. And a refiner that finds no progress to be made may
leave any number of states. -/
theorem exists_beyond_budgets : let limits : SearchLimits := { maxStates := 4, maxRefinements := 1 }
    (∀ s t, comesBack.shouldMerge s t ≠ .ok true) ∧
    comesBack.initial.Yields {} [0, 1, 2] {} ∧
    (∀ s, comesBack.successors s = .ofExcept (.ok (leadsBack s))) ∧
    (∀ s reached, comesBack.widen s reached = .ofExcept (.ok s)) ∧
    (∀ s t u, u ∈ leadsBack s → u ∈ leadsBack t → s = t) ∧
    (∀ s, (leadsBack s).Nodup ∧ ∀ u ∈ leadsBack s, u ∉ [0, 1, 2]) ∧
    (comesBack.RestartsWithin (leavesBehind true [4, 5, 6]) limits {} [0, 1, 2] 3 ∧
      ∃ context m, comesBack.Comes (leavesBehind true [4, 5, 6]) limits {} [0, 1, 2] context m ∧
        (limits.maxRefinements + 1) * max limits.maxStates 3 < m.pops) ∧
    comesBack.RestartsWithin (leavesBehind false [0, 1, 2, 3, 4]) limits {} [0, 1, 2] 3 ∧
      ∃ outcome, (comesBack.reachability (leavesBehind false [0, 1, 2, 3, 4]) default limits 8).Yields
          {} (some outcome) {} ∧ max limits.maxStates 3 < outcome.reachedStates := by
  intro limits
  refine ⟨fun _ _ => nofun, rfl, fun _ => rfl, fun _ _ => rfl, ?_,
    fun s => ⟨nodup_leadsBack s, ?_⟩,
    ⟨restartsWithin_leavesBehind fun _ => by decide, ?_⟩, restartsWithin_leavesBehind nofun, ?_⟩
  · intro s t u first second
    have first := mem_leadsBack first
    have second := mem_leadsBack second
    omega
  · intro u member
    have led := mem_leadsBack member
    simp only [List.mem_cons, List.not_mem_nil, or_false]
    omega
  · have nine : ((comesBack.advanceTimes (leavesBehind true [4, 5, 6]) limits 33 {}
        (.start [0, 1, 2])).any fun (_, m) => m.pops == 9) = true := by decide
    obtain ⟨⟨context, m⟩, advanced, pops⟩ := (Option.any_eq_true _ _).1 nine
    refine ⟨context, m, Analysis.comes_of_advanceTimes (.start rfl) advanced, ?_⟩
    rw [beq_iff_eq.1 pops]
    decide
  · exact ⟨_, rfl, by decide⟩

namespace Verification

variable {σ : Type} [DecidableEq σ] {setting : Setting σ} {limits : SearchLimits}
variable {first before : Context} {states : List (State σ)}

/-- The standard stack with path formulas that are not merged. -/
def Setting.separating (task : Task) : Setting Formula :=
  ⟨task, .approximate, ⟨.enumeration 8, .boolean⟩, .always, symbolicMemory .sep⟩

/-- Whether the program is well formed and has one initial state. -/
def roundsBegin : Bool :=
  roundsThenFails.toOption.any fun task =>
    match (Setting.separating task).analysis.withStatistics.initial.outcome {} with
    | (.ok states, _) => states.length == 1
    | _ => false

theorem roundsBegin_eq_true : roundsBegin = true := by decide +kernel

/-- The search of the program takes at most eight states if it may reach four and refine once. -/
theorem exists_within_budgets : ∃ (task : Task) (states : List (State Formula)) (before : Context),
    roundsThenFails = .ok task ∧ states.length = 1 ∧
      (Setting.separating task).analysis.withStatistics.initial.Yields {} states before ∧
      (∀ context m, (Setting.separating task).analysis.withStatistics.Comes
        (Setting.separating task).refiner { maxStates := 4, maxRefinements := 1 } {} states context
          m → m.pops ≤ 8 ∧ m.search.reached.size ≤ 4) ∧
      (Setting.separating task).analysis.withStatistics.EndsWithin
        (Setting.separating task).refiner { maxStates := 4, maxRefinements := 1 } {} 8 := by
  obtain ⟨task, created, checked⟩ := (Option.any_eq_true _ _).1 roundsBegin_eq_true
  have made := toOption_eq_some_iff.1 created
  split at checked
  · rename_i states before began
    have one : states.length = 1 := by simpa using checked
    have separate : (Setting.separating task).Separate := fun _ _ => rfl
    have within := @Analysis.within_budgets_of_apart _ _
      (Setting.separating task).analysis.withStatistics (Setting.separating task).refiner
      { maxStates := 4, maxRefinements := 1 } {} before states separate.apart began
      widensAnew_standard restartsWithin_standard
    rw [one] at within
    exact ⟨task, states, before, made, one, began, within⟩
  · cases checked

/-- Searches of the standard stack without merges end within their budgets. -/
theorem within_budgets_of_separate (separate : setting.Separate)
    (began : setting.analysis.initial.Yields first states before) :
    (∀ context m, setting.analysis.withStatistics.Comes setting.refiner limits first states context
        m → m.pops ≤ (limits.maxRefinements + 1) * max limits.maxStates states.length ∧
          m.search.reached.size ≤ max limits.maxStates states.length) ∧
    setting.analysis.withStatistics.EndsWithin setting.refiner limits first
      ((limits.maxRefinements + 1) * max limits.maxStates states.length) :=
  Analysis.within_of_spends began fun _ _ =>
    Analysis.spends_of_comes separate.apart widensAnew_standard restartsWithin_standard
      (List.dedup_sublist states).length_le

end Verification

end EventCheck
