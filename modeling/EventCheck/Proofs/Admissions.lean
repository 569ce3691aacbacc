import EventCheck.Proofs.Budgets

/-!
In which order a search admits states. Without merges the reached states are those that the search
last started from and those that it has widened and admitted since. What every state is to those
admitted before it can then be read off what is asked of it when it is admitted.
-/

namespace EventCheck

namespace Course

variable {σ : Type} [DecidableEq σ] {key : σ → PartitionKey} {m : Course key} {w : σ}
variable {rest : List σ}

/-- The states admitted since the search last started, in this order: what it started from, and of
the successors widened since then those that are reached. -/
def admitted (m : Course key) : List σ :=
  m.begun.reached.toList ++ m.widened.reverse.filter (m.search.reached.contains ·)

/-- Where a search stands that merges nothing: which states are reached, and that the one under
consideration is new and was the last to be widened. -/
structure Records (m : Course key) : Prop where
  sound : m.search.toSearchSets.Sound
  started : m.begun.Sound
  kept : ∀ b ∈ m.begun.reached.toList, b ∈ m.search.reached.toList
  known : ∀ s ∈ m.search.reached.toList, s ∈ m.begun.reached.toList ∨ s ∈ m.widened
  anew : m.widened.Nodup ∧ ∀ w ∈ m.widened, w ∉ m.begun.reached.toList
  merged : ∀ w rest, m.phase = .merged w rest →
    w ∉ m.search.reached.toList ∧ ∃ others, m.widened = w :: others

theorem records_start (states : List σ) : (start states : Course key).Records := by
  obtain ⟨sound, _⟩ := @SearchSets.sound_start _ key _ states
  exact ⟨sound, sound, fun b => id, fun s => Or.inl, ⟨.nil, nofun⟩, nofun⟩

theorem Records.contains_iff (records : m.Records) {s : σ} :
    m.search.reached.contains s = true ↔ s ∈ m.search.reached.toList := by
  rw [Reached.contains_iff, Reached.mem_toList, records.sound.reached.mem_iff]

/-- The states admitted are the reached ones, each of them once. -/
theorem Records.perm_admitted (records : m.Records) :
    m.admitted.Perm m.search.reached.toList := by
  obtain ⟨unique, different⟩ := records.anew
  have begun := Reached.nodup_toList records.started.reached
  refine (List.perm_ext_iff_of_nodup ?_ (Reached.nodup_toList records.sound.reached)).2 fun s => ?_
  · refine List.nodup_append.2 ⟨begun, (List.nodup_reverse.2 unique).filter _, ?_⟩
    rintro b member w listed rfl
    exact different b (List.mem_reverse.1 (List.mem_filter.1 listed).1) member
  · unfold admitted
    rw [List.mem_append, List.mem_filter, List.mem_reverse, records.contains_iff]
    constructor
    · exact fun either => either.elim (records.kept s) And.right
    · exact fun member => (records.known s member).imp_right fun listed => ⟨listed, member⟩

/-- A state is admitted after all the others. -/
theorem Records.admitted_insert (records : m.Records) (merged : m.phase = .merged w rest)
    {frontier : Frontier key} {phase : Phase σ} :
    admitted { m with search := { m.search with reached := m.search.reached.insert w, frontier },
                      phase } = m.admitted ++ [w] := by
  obtain ⟨absent, others, last⟩ := records.merged w rest merged
  have unique := records.anew.1
  rw [last] at unique
  have away := (List.nodup_cons.1 unique).1
  have inserted : ∀ s, (m.search.reached.insert w).contains s = true ↔
      s = w ∨ m.search.reached.contains s = true := by
    intro s
    rw [records.contains_iff, ← Reached.mem_insert records.sound.reached, Reached.contains_iff,
      Reached.mem_toList, (Reached.keyed_insert records.sound.reached).mem_iff]
  have earlier : others.reverse.filter ((m.search.reached.insert w).contains ·) =
      others.reverse.filter (m.search.reached.contains ·) := by
    refine List.filter_congr fun s member => ?_
    rw [Bool.eq_iff_iff, inserted]
    exact or_iff_right fun same => away (same ▸ List.mem_reverse.1 member)
  have new : m.search.reached.contains w = false := by
    rw [Bool.eq_false_iff]
    exact fun there => absent (records.contains_iff.1 there)
  have taken : (m.search.reached.insert w).contains w = true := (inserted w).2 (Or.inl rfl)
  unfold admitted
  dsimp only
  rw [last, List.reverse_cons, List.filter_append, List.filter_append, earlier,
    List.filter_cons_of_pos taken, List.filter_cons_of_neg (by simp [new]), List.filter_nil,
    List.filter_nil, List.append_nil, List.append_assoc]

/-- A widened state that is not admitted changes nothing. -/
theorem admitted_widen (absent : w ∉ m.search.reached.toList)
    (sound : m.search.toSearchSets.Sound) {phase : Phase σ} :
    admitted { m with phase, widened := w :: m.widened } = m.admitted := by
  have new : ¬m.search.reached.contains w = true := fun there => absent
    (Reached.mem_toList.2 (sound.reached.mem_iff.2 (Reached.contains_iff.1 there)))
  unfold admitted
  dsimp only
  rw [List.reverse_cons, List.filter_append, List.filter_cons_of_neg new, List.filter_nil,
    List.append_nil]

/-- The state under consideration may be admitted. -/
theorem Records.accept (records : m.Records) (merged : m.phase = .merged w rest)
    {frontier : Frontier key} (sound : frontier.Sound) {phase : Phase σ}
    (goes : ∀ w rest, phase ≠ .merged w rest) :
    Records { m with search := { m.search with reached := m.search.reached.insert w, frontier },
                     phase } := by
  obtain ⟨_, others, last⟩ := records.merged w rest merged
  have members := fun s => Reached.mem_insert (s := w) (t := s) records.sound.reached
  refine { records with
    sound := ⟨Reached.keyed_insert records.sound.reached, sound⟩
    kept := fun b member => (members b).2 (Or.inr (records.kept b member))
    known := fun s member => ?_
    merged := fun w rest same => absurd same (goes w rest) }
  rcases (members s).1 member with rfl | member
  · exact Or.inr (last ▸ List.mem_cons_self)
  · exact records.known s member

end Course

namespace Analysis

variable {σ : Type} [DecidableEq σ] {a : Analysis σ} {refiner : Refiner a.partitionKey}
variable {limits : SearchLimits} {first before after : Context} {states : List σ}
variable {m next : Course a.partitionKey} {n : Nat}

/-- What becomes of the states admitted: one that no reached state of its partition covers comes to
them, or they stay, or a search that starts over has those that it starts from. -/
inductive Admits (a : Analysis σ) (m next : Course a.partitionKey) : Prop
  | none (same : next.admitted = m.admitted)
  | one {before after : Context} {w : σ} {rest : List σ} (merged : m.phase = .merged w rest)
    (uncovered : (a.stop w (m.search.reached.partitionOf w)).Yields before false after)
    (last : next.admitted = m.admitted ++ [w])
  | anew (begun : next.admitted = next.begun.reached.toList)

theorem records_of_advances (apart : ∀ s t, a.shouldMerge s t ≠ .ok true)
    (anew : next.widened.Nodup ∧ ∀ w ∈ next.widened, w ∉ next.begun.reached.toList)
    (restarts : ∀ w rest begun, m.phase = .judging w rest →
      refiner.refine m.search.toSearchSets w = .ok (true, begun) → begun.Sound)
    (advances : a.Advances refiner limits before m after next) (records : m.Records) :
    next.Records ∧ a.Admits m next := by
  cases advances with
  | pop idle popped =>
    obtain ⟨_, sound⟩ := records.sound.frontier.pop popped
    exact ⟨{ records with sound := ⟨records.sound.reached, sound⟩, merged := nofun }, .none rfl⟩
  | merge expanding room widened merged =>
    rename_i w rest sets
    obtain ⟨rfl, _⟩ := mergeInto_of_apart (apart w) merged
    have absent : w ∉ m.search.reached.toList := by
      intro member
      rcases records.known w member with begun | earlier
      · exact anew.2 w List.mem_cons_self begun
      · exact (List.nodup_cons.1 anew.1).1 earlier
    refine ⟨{ records with
      known := fun s member => (records.known s member).imp_right (List.mem_cons_of_mem w)
      anew
      merged := fun v later same => ?_ }, .none (Course.admitted_widen absent records.sound)⟩
    obtain ⟨rfl, rfl⟩ := Phase.merged.inj same
    exact ⟨absent, m.widened, rfl⟩
  | accept merged uncovered =>
    rename_i w _ _
    obtain ⟨inserted, _⟩ := records.sound.frontier.insert (s := w)
    exact ⟨records.accept merged inserted nofun,
      .one merged uncovered (records.admitted_insert merged)⟩
  | violate merged uncovered =>
    exact ⟨records.accept merged records.sound.frontier nofun,
      .one merged uncovered (records.admitted_insert merged)⟩
  | refine judging check budget refined =>
    have sound := restarts _ _ _ judging refined
    refine ⟨⟨sound, sound, fun b => id, fun s => Or.inl, ⟨.nil, nofun⟩, nofun⟩, .anew ?_⟩
    unfold Course.admitted
    exact List.append_nil _
  | follow | cover | doubt | finish => exact ⟨{ records with merged := nofun }, .none rfl⟩

theorem records_of_comes (apart : ∀ s t, a.shouldMerge s t ≠ .ok true)
    (anew : a.WidensAnew refiner limits first states)
    (restarts : a.RestartsWithin refiner limits first states n)
    (comes : a.Comes refiner limits first states after m) : m.Records := by
  induction comes with
  | start => exact Course.records_start states
  | step comes advances ih =>
    exact (records_of_advances apart (anew _ _ (comes.step advances))
      (fun w rest begun judging refined => (restarts _ _ w rest begun comes judging refined).1)
      advances ih).1

/-- A search never starts from more states than it first did. -/
theorem size_begun_le (restarts : a.RestartsWithin refiner limits first states n)
    (few : states.length ≤ n) (comes : a.Comes refiner limits first states after m) :
    m.begun.reached.size ≤ n := by
  induction comes with
  | start =>
    refine Nat.le_trans (Nat.le_of_eq ?_) (Nat.le_trans (List.dedup_sublist states).length_le few)
    exact SearchSets.size_start states
  | step comes advances ih =>
    cases advances with
    | refine judging _ _ refined => exact (restarts _ _ _ _ _ comes judging refined).2.2
    | pop | follow | merge | cover | accept | violate | doubt | finish => exact ih

/-- What the states are to each other that a search starts from, and every state to the reached ones
when none of them covers it, all states are to those admitted before them. -/
theorem pairwise_admitted {related : σ → σ → Prop} (apart : ∀ s t, a.shouldMerge s t ≠ .ok true)
    (anew : a.WidensAnew refiner limits first states)
    (restarts : a.RestartsWithin refiner limits first states n)
    (begun : ∀ context m, a.Comes refiner limits first states context m →
      m.begun.reached.toList.Pairwise related)
    (uncovered : ∀ context m w rest c d, a.Comes refiner limits first states context m →
      m.phase = .merged w rest → (a.stop w (m.search.reached.partitionOf w)).Yields c false d →
      ∀ r ∈ m.search.reached.toList, related r w)
    (comes : a.Comes refiner limits first states after m) : m.admitted.Pairwise related := by
  induction comes with
  | start given =>
    have all := begun _ _ (.start given : a.Comes refiner limits first states _ _)
    have same : (Course.start states : Course a.partitionKey).admitted =
      (Course.start states : Course a.partitionKey).begun.reached.toList := List.append_nil _
    exact same ▸ all
  | step comes advances ih =>
    have records := records_of_comes apart anew restarts comes
    obtain ⟨_, admits⟩ := records_of_advances apart (anew _ _ (comes.step advances))
      (fun w rest begun judging refined => (restarts _ _ w rest begun comes judging refined).1)
      advances records
    cases admits with
    | none same => exact same ▸ ih
    | one merged given last =>
      rw [last]
      refine List.pairwise_append.2 ⟨ih, List.pairwise_singleton _ _, fun r member w single => ?_⟩
      obtain rfl := List.mem_singleton.1 single
      exact uncovered _ _ _ _ _ _ comes merged given r (records.perm_admitted.mem_iff.1 member)
    | anew same => exact same ▸ begun _ _ (comes.step advances)

end Analysis

end EventCheck
