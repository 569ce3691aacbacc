import EventCheck.Proofs.Merging
import EventCheck.Proofs.Renaming
import EventCheck.Proofs.Replacements

/-!
What partitions leave out. A state of the standard stack is neither covered by a state of another
partition nor merged with one, whatever the layers make of the two, and asking about such a state
neither fails nor leaves a trace. Summaries come from expressions, so comparing them never fails.
-/

namespace EventCheck

/-! ### Reached states of a partition -/

namespace Reached

variable {σ : Type} {key : σ → PartitionKey} {reached : Reached key} {s : σ}

/-- Groups of other keys have no states with the key. -/
theorem filter_flatten_of_ne {k : PartitionKey} {entries : List (PartitionKey × List σ)}
    (same : ∀ entry ∈ entries, ∀ s ∈ entry.2, key s = entry.1)
    (other : ∀ entry ∈ entries, entry.1 ≠ k) :
    (entries.map (·.2)).flatten.filter (key · = k) = [] := by
  rw [List.filter_eq_nil_iff]
  intro s member
  obtain ⟨states, listed, inside⟩ := List.mem_flatten.1 member
  obtain ⟨entry, found, rfl⟩ := List.mem_map.1 listed
  rw [decide_eq_true_iff, same entry found s inside]
  exact other entry found

/-- The states with a key, in their order among all reached ones. -/
theorem filter_toList (keyed : reached.groups.Keyed key) (k : PartitionKey) :
    reached.toList.filter (key · = k) = reached.groups.group k := by
  have same : ∀ entry ∈ reached.groups.toList, ∀ s ∈ entry.2, key s = entry.1 := by
    intro entry listed s member
    refine keyed.same entry.1 s ?_
    rw [Groups.group, SortedMap.getD, SortedMap.get?_eq_some_iff.2 listed]
    exact member
  unfold toList SortedMap.values Groups.group SortedMap.getD
  cases found : reached.groups.get? k with
  | none =>
    refine filter_flatten_of_ne same fun entry listed here => ?_
    rw [← here, SortedMap.get?_eq_some_iff.2 listed] at found
    cases found
  | some states =>
    obtain ⟨before, after, split⟩ :=
      List.append_of_mem (SortedMap.get?_eq_some_iff.1 found)
    have increasing := reached.groups.increasing
    rw [split] at same increasing ⊢
    obtain ⟨_, later, earlier⟩ := List.pairwise_append.1 increasing
    obtain ⟨above, _⟩ := List.pairwise_cons.1 later
    have below : ∀ entry ∈ before, entry.1 ≠ k := by
      intro entry listed here
      have less := earlier entry listed (k, states) List.mem_cons_self
      simp [here, Std.ReflCmp.compare_self] at less
    have beyond : ∀ entry ∈ after, entry.1 ≠ k := by
      intro entry listed here
      have less := above entry listed
      simp [here, Std.ReflCmp.compare_self] at less
    have left := filter_flatten_of_ne (fun entry listed => same entry (by simp [listed])) below
    have right := filter_flatten_of_ne (fun entry listed => same entry (by simp [listed])) beyond
    have whole : states.filter (key · = k) = states := List.filter_eq_self.2 fun s member =>
      decide_eq_true (same (k, states) (by simp) s member)
    simp [List.filter_append, left, right, whole]

end Reached

/-! ### Layers -/

namespace PredicateDomain

variable {f g : Formula}

/-- Whether a formula is included in one from an expression can always be asked. -/
theorem exists_included (domain : PredicateDomain) (f : Formula) (obtained : g.Obtained) :
    ∃ answer, domain.included f g = .ok answer := by
  have returns := Formula.obtained_iff_returns.1 obtained
  obtain ⟨complement, formed, _⟩ := Formula.exists_ofExpression_not returns
  have checked : Expression.notChecked g.toExpression = .ok (.not g.toExpression) :=
    Expression.notChecked_eq_ok_iff.2 ⟨rfl, Formula.dataType_of_ofExpression returns⟩
  unfold included
  split
  · exact ⟨true, rfl⟩
  · exact ⟨_, bind_eq_ok_iff.2 ⟨_, checked, bind_eq_ok_iff.2 ⟨complement, formed, rfl⟩⟩⟩

end PredicateDomain

namespace Abstraction

variable {σ : Type} {a : Analysis σ} {s : AbstractionState σ} {domain : PredicateDomain}

/-- States with summaries from expressions that cover nothing inside can be left out. -/
theorem coveredIn_filter {keep : AbstractionState σ → Bool} {summary : Formula}
    {states : List (AbstractionState σ)} (obtained : ∀ r ∈ states, r.summary.Obtained)
    (hidden : ∀ r ∈ states, keep r = false → a.stop s.inner [r.inner] = pure false) :
    coveredIn domain a s summary (states.filter keep) = coveredIn domain a s summary states := by
  induction states with
  | nil => rfl
  | cons r rest ih =>
    obtain ⟨here, others⟩ := List.forall_mem_cons.1 obtained
    obtain ⟨first, later⟩ := List.forall_mem_cons.1 hidden
    have ih := ih others later
    cases kept : keep r with
    | true =>
      rw [List.filter_cons_of_pos kept]
      unfold coveredIn
      rw [ih]
    | false =>
      rw [List.filter_cons_of_neg (by simp [kept]), ih]
      conv_rhs => unfold coveredIn
      split
      · rfl
      · obtain ⟨answer, compared⟩ :=
          domain.exists_included summary (here.rename (r := Variable.base) fun _ => rfl)
        simp only [here.stripVersions_eq, Run.ofExcept, pure_bind, compared, first kept]
        cases answer <;> rfl

theorem stop_filter {keep : AbstractionState σ → Bool} {states : List (AbstractionState σ)}
    (obtained : ∀ r ∈ states, r.summary.Obtained)
    (hidden : ∀ r ∈ states, keep r = false → a.stop s.inner [r.inner] = pure false) :
    stop domain a s (states.filter keep) = stop domain a s states := by
  unfold stop
  simp only [coveredIn_filter obtained hidden]

end Abstraction

namespace Verification

variable {σ : Type} [DecidableEq σ] {setting : Setting σ} {s t u : State σ}
variable {states : List (State σ)} {before after : Context}

/-- A state with other threads covers nothing. -/
theorem stop_of_threads (different : t.threads ≠ s.threads) :
    ((setting.data.withVersions.withLabels.scheduled setting.task
      setting.policy).withProvenance).stop s.inner [t.inner] = pure false := by
  have uncovered : Control.coveredBy setting.data.withVersions.withLabels s.inner.inner
      t.inner.inner = .ok false := if_neg different
  show Run.ofExcept ([t.inner.inner].anyM
    (Control.coveredBy setting.data.withVersions.withLabels s.inner.inner)) = pure false
  rw [List.anyM_cons, uncovered]
  rfl

/-- The key tells nothing but the threads. -/
theorem key_of_threads (same : s.threads = t.threads) :
    setting.analysis.partitionKey s = setting.analysis.partitionKey t := by
  show Control.partitionKey s.inner.inner = Control.partitionKey t.inner.inner
  unfold Control.partitionKey
  rw [show s.inner.inner.threads = t.inner.inner.threads from same]

/-- Only states of the partition of a state bear on whether it is covered. -/
theorem stop_partition (obtained : ∀ r ∈ states, r.summary.Obtained) :
    setting.analysis.withStatistics.stop s
        (states.filter (setting.analysis.partitionKey · = setting.analysis.partitionKey s)) =
      setting.analysis.withStatistics.stop s states := by
  have inside : setting.analysis.stop s
      (states.filter (setting.analysis.partitionKey · = setting.analysis.partitionKey s)) =
        setting.analysis.stop s states := by
    refine Abstraction.stop_filter obtained fun r _ hidden => stop_of_threads fun same => ?_
    exact of_decide_eq_false hidden (key_of_threads same)
  unfold Analysis.withStatistics
  simp only [inside]

end Verification

end EventCheck
