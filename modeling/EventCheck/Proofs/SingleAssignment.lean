import EventCheck.Proofs.Data
import EventCheck.Proofs.Execution

/-!
Single assignment against the execution of statements. An assignment of values to versioned
variables stands for the environment in which each variable has the value of its current version.
A statement runs in that environment exactly as the constraint of its renamed form says, and
alignment to later versions can always be satisfied by giving them the current values.
-/

namespace EventCheck

namespace Variable

@[simp] theorem base_base (v : Variable) : v.base.base = v.base := rfl

@[simp] theorem version_base (v : Variable) : v.base.version = none := rfl

@[simp] theorem dataType_base (v : Variable) : v.base.dataType = v.dataType := rfl

theorem base_of_unversioned {v : Variable} (unversioned : v.version = none) : v.base = v := by
  cases v
  simp_all [base]

theorem eq_of_base {v w : Variable} (bases : v.base = w.base) (versions : v.version = w.version) :
    v = w := by
  cases v
  cases w
  simp_all [base]

theorem dataType_of_base {v w : Variable} (bases : v.base = w.base) : v.dataType = w.dataType := by
  rw [← dataType_base v, bases, dataType_base]

end Variable

namespace VersionMap

variable {versions target : VersionMap} {v w : Variable} {n : Nat}

/-! ### Versions -/

@[simp] theorem version_base (versions : VersionMap) (v : Variable) :
    versions.version v.base = versions.version v := rfl

theorem version_congr (same : v.base = w.base) : versions.version v = versions.version w := by
  rw [← version_base versions v, same, version_base]

@[simp] theorem base_current (versions : VersionMap) (v : Variable) :
    (versions.current v).base = v.base := rfl

@[simp] theorem version_current (versions : VersionMap) (v : Variable) :
    (versions.current v).version = some (versions.version v) := rfl

@[simp] theorem dataType_current (versions : VersionMap) (v : Variable) :
    (versions.current v).dataType = v.dataType := rfl

theorem current_congr (same : v.base = w.base) : versions.current v = versions.current w := by
  rw [current, current, same, version_congr same]

theorem current_eq_iff : versions.current v = target.current w ↔
    v.base = w.base ∧ versions.version v = target.version w := by
  constructor
  · intro same
    have bases : (versions.current v).base = (target.current w).base := by rw [same]
    have numbers : (versions.current v).version = (target.current w).version := by rw [same]
    exact ⟨bases, by simpa using numbers⟩
  · rintro ⟨bases, numbers⟩
    rw [current, current, bases, numbers]

theorem version_of_mem (member : (v, n) ∈ versions.versions.toList) : versions.version v = n := by
  have base := Variable.base_of_unversioned (versions.unversioned _ member)
  rw [version, base, SortedMap.getD, SortedMap.get?_eq_some_iff.2 member, Option.getD_some]

/-- A variable that has been written has an entry. -/
theorem mem_of_written (written : versions.version v ≠ 0) :
    (v.base, versions.version v) ∈ versions.versions.toList := by
  rw [version, SortedMap.getD] at written ⊢
  cases found : versions.versions.get? v.base with
  | none => simp [found] at written
  | some k => exact SortedMap.get?_eq_some_iff.1 found

theorem version_set (written : 0 < n) (unversioned : v.version = none) :
    (versions.set v n written unversioned).version w =
      if w.base = v then n else versions.version w := by
  rw [version, set, SortedMap.getD, SortedMap.get?_insert]
  split <;> rfl

theorem version_bump : (versions.bump v).version w =
    if w.base = v.base then versions.version v + 1 else versions.version w := version_set _ _

theorem version_raise (unversioned : v.version = none) :
    (versions.raise v n unversioned).version w =
      if w.base = v then max (versions.version w) n else versions.version w := by
  unfold raise
  have base := Variable.base_of_unversioned unversioned
  split
  · rename_i newer
    rw [version_set]
    split
    · rename_i same
      have equal : versions.version w = versions.version v :=
        version_congr (same.trans base.symm)
      omega
    · rfl
  · rename_i older
    split
    · rename_i same
      have equal : versions.version w = versions.version v :=
        version_congr (same.trans base.symm)
      omega
    · rfl

theorem version_join : (versions.join target).version v =
    max (versions.version v) (target.version v) := by
  have between : ∀ (entries : List { entry // entry ∈ target.versions.toList }) (m : VersionMap),
      let joined := entries.foldl (fun joined entry =>
        joined.raise entry.1.1 entry.1.2 (target.unversioned entry.1 entry.2)) m
      m.version v ≤ joined.version v ∧
        joined.version v ≤ max (m.version v) (target.version v) ∧
        ∀ entry ∈ entries, entry.1.1 = v.base → entry.1.2 ≤ joined.version v := by
    intro entries
    induction entries with
    | nil => exact fun m => ⟨Nat.le_refl _, Nat.le_max_left _ _, by simp⟩
    | cons entry rest ih =>
      intro m
      obtain ⟨⟨w, n⟩, inside⟩ := entry
      have listed : target.version w = n := version_of_mem inside
      obtain ⟨above, below, entries⟩ := ih (m.raise w n (target.unversioned _ inside))
      rw [version_raise] at above below
      refine ⟨?_, ?_, ?_⟩
      · refine Nat.le_trans ?_ above
        split <;> omega
      · refine Nat.le_trans below ?_
        split
        · rename_i same
          have equal : target.version v = target.version w := by
            rw [← same, version_base]
          omega
        · exact Nat.le_refl _
      · intro entry member same
        rcases List.mem_cons.1 member with rfl | later
        · refine Nat.le_trans ?_ above
          rw [if_pos same.symm]
          exact Nat.le_max_right _ _
        · exact entries entry later same
  obtain ⟨above, below, entries⟩ := between target.versions.toList.attach versions
  refine Nat.le_antisymm below (Nat.max_le.2 ⟨above, ?_⟩)
  by_cases written : target.version v = 0
  · rw [written]
    exact Nat.zero_le _
  · exact entries ⟨_, mem_of_written written⟩ (List.mem_attach _ _) rfl

/-- No version of the first map is later than in the second one. -/
def Below (versions target : VersionMap) : Prop := ∀ v, versions.version v ≤ target.version v

theorem below_bump (versions : VersionMap) (v : Variable) : versions.Below (versions.bump v) := by
  intro w
  rw [version_bump]
  split
  · rename_i same
    rw [version_congr same]
    omega
  · exact Nat.le_refl _

theorem below_join_left (versions target : VersionMap) :
    versions.Below (versions.join target) := by
  intro v
  rw [version_join]
  exact Nat.le_max_left _ _

theorem below_join_right (versions target : VersionMap) :
    target.Below (versions.join target) := by
  intro v
  rw [version_join]
  exact Nat.le_max_right _ _

/-! ### Assignments -/

/-- The variable stands for a write that has happened. -/
def Covers (versions : VersionMap) (v : Variable) : Prop :=
  ∃ k, v.version = some k ∧ k ≤ versions.version v

theorem Covers.mono (below : versions.Below target) (covers : versions.Covers v) :
    target.Covers v := by
  obtain ⟨k, version, bound⟩ := covers
  exact ⟨k, version, Nat.le_trans bound (below v)⟩

theorem covers_current (versions : VersionMap) (v : Variable) :
    versions.Covers (versions.current v) :=
  ⟨versions.version v, rfl, Nat.le_of_eq (version_congr rfl)⟩

/-- Each variable has in the environment the value that its current version is assigned. -/
def Reads (versions : VersionMap) (assigned env : Environment) : Prop :=
  ∀ v, v.version = none → env v = assigned (versions.current v)

/-- The environment that an assignment stands for. -/
def read (versions : VersionMap) (assigned : Environment) : Environment := fun v =>
  if v.version = none then assigned (versions.current v) else assigned v

theorem reads_read (versions : VersionMap) (assigned : Environment) :
    versions.Reads assigned (versions.read assigned) :=
  fun _ unversioned => if_pos unversioned

theorem typed_read {assigned : Environment} (typed : assigned.Typed) :
    (versions.read assigned).Typed := by
  intro v
  unfold read
  split
  · exact typed (versions.current v)
  · exact typed v

theorem Reads.typed_unversioned {assigned env : Environment} (typed : assigned.Typed)
    (reads : versions.Reads assigned env) : env.unversioned.Typed := by
  intro v
  rw [Environment.unversioned, reads v.base rfl]
  exact typed _

/-- Where all versions have one value, each map of versions reads it. -/
theorem reads_unversioned (versions : VersionMap) (env : Environment) :
    versions.Reads env.unversioned env := by
  intro v unversioned
  rw [Environment.unversioned, base_current, Variable.base_of_unversioned unversioned]

/-- The assignment in which later versions have the current values. -/
def extend (versions : VersionMap) (assigned : Environment) : Environment := fun v =>
  match v.version with
  | none => assigned v
  | some k => if k ≤ versions.version v then assigned v else assigned (versions.current v)

theorem typed_extend {assigned : Environment} (typed : assigned.Typed) :
    (versions.extend assigned).Typed := by
  intro v
  unfold extend
  split
  · exact typed v
  · split
    · exact typed v
    · exact typed (versions.current v)

theorem extend_of_covers {assigned : Environment} (covers : versions.Covers v) :
    assigned v = versions.extend assigned v := by
  obtain ⟨k, version, bound⟩ := covers
  simp only [extend, version, if_pos bound]

theorem extend_current {assigned : Environment} (below : versions.Below target) (v : Variable) :
    versions.extend assigned (target.current v) = assigned (versions.current v) := by
  have same : versions.version (target.current v) = versions.version v := version_congr rfl
  simp only [extend, version_current, same]
  split
  · rename_i bound
    have equal := Nat.le_antisymm bound (below v)
    rw [current_eq_iff.2 ⟨rfl, equal⟩]
  · exact congrArg assigned (current_congr rfl)

theorem Reads.extend {assigned env : Environment} (reads : versions.Reads assigned env)
    (below : versions.Below target) : target.Reads (versions.extend assigned) env := by
  intro v unversioned
  rw [extend_current below, reads v unversioned]

end VersionMap

theorem Expression.exists_of_mem_rename {f : Variable → Variable} {e : Expression} {v : Variable}
    (member : v ∈ (e.rename f).variables) : ∃ w ∈ e.variables, v = f w := by
  induction e with
  | var w =>
    exact ⟨w, by simp [Expression.variables], by simpa [rename, Expression.variables] using member⟩
  | const c => simp [rename, Expression.variables] at member
  | not operand ih => exact ih member
  | binary op lhs rhs left right =>
    rcases SortedSet.mem_union.1 member with member | member
    · obtain ⟨w, inside, same⟩ := left member
      exact ⟨w, SortedSet.mem_union.2 (Or.inl inside), same⟩
    · obtain ⟨w, inside, same⟩ := right member
      exact ⟨w, SortedSet.mem_union.2 (Or.inr inside), same⟩

namespace SingleAssignment

variable {versions : VersionMap} {declared : SortedSet Variable} {statement : Statement}
variable {assigned env next : Environment}

/-! ### Renamed statements -/

/-- The versions after a statement. -/
def versionsAfter (versions : VersionMap) (statement : Statement) : VersionMap :=
  statement.target?.elim versions versions.bump

theorem rename_versions : (rename versions declared statement).2.1 =
    versionsAfter versions statement := by
  cases statement <;> rfl

theorem below_versionsAfter (versions : VersionMap) (statement : Statement) :
    versions.Below (versionsAfter versions statement) := by
  unfold versionsAfter
  cases statement.target? with
  | none => exact fun _ => Nat.le_refl _
  | some v => exact versions.below_bump v

theorem over_renameReads (versions : VersionMap) (e : Expression) :
    (renameReads versions e).Over versions.Covers := by
  intro v member
  obtain ⟨w, _, rfl⟩ := Expression.exists_of_mem_rename member
  exact versions.covers_current w

/-- The constraint of a renamed statement only speaks of versions that there are after it. -/
theorem over_constraint {c : Expression}
    (given : (rename versions declared statement).1.constraint? = .ok (some c)) :
    c.Over (versionsAfter versions statement).Covers := by
  have after := below_versionsAfter versions statement
  have equation : ∀ {v : Variable} {e c : Expression},
      some <$> Expression.binaryChecked .eq (.var v) e = .ok (some c) →
      (versionsAfter versions statement).Covers v →
      e.Over (versionsAfter versions statement).Covers →
      c.Over (versionsAfter versions statement).Covers := by
    intro v e c given covers written w occurs
    obtain ⟨d, checked, same⟩ := map_eq_ok_iff.1 given
    obtain rfl := Option.some.inj same
    obtain ⟨rfl, _⟩ := Expression.binaryChecked_eq_ok_iff.1 checked
    rcases SortedSet.mem_union.1 occurs with occurs | occurs
    · rw [SortedSet.mem_singleton.1 occurs]
      exact covers
    · exact written w occurs
  cases statement with
  | declare v =>
    exact equation given (VersionMap.covers_current _ v) (fun w occurs => by
      simp [Expression.variables] at occurs)
  | assign v e =>
    exact equation given (VersionMap.covers_current _ v) fun w occurs =>
      (over_renameReads versions e w occurs).mono after
  | assume condition =>
    obtain rfl := Option.some.inj (Except.ok.inj given)
    exact over_renameReads versions condition
  | call _ _ _ | «return» _ | broadcast _ | broadcastAndWait _ | waitUntil _ | waitSecs _
  | signalFailure _ | nop => cases Except.ok.inj given

/-! ### Renamed statements and execution -/

theorem eval_renameReads {e : Expression} (unversioned : ∀ v ∈ e.variables, v.version = none)
    (reads : versions.Reads assigned env) :
    (renameReads versions e).eval assigned.lookup = e.eval env.lookup := by
  rw [renameReads, Expression.eval_rename]
  refine Expression.eval_congr fun v member => ?_
  rw [Environment.lookup, Environment.lookup, reads v (unversioned v member)]

theorem ne_current_bump {v w : Variable} (covers : versions.Covers w) :
    w ≠ (versions.bump v).current v := by
  rintro rfl
  obtain ⟨k, version, bound⟩ := covers
  have same : versions.version ((versions.bump v).current v) = versions.version v :=
    VersionMap.version_congr rfl
  rw [VersionMap.version_current, Option.some.injEq, VersionMap.version_bump, if_pos rfl] at version
  omega

/-- After a write the new version of the variable holds what was written. -/
theorem reads_bump {v : Variable} {c : Constant} (unversioned : v.version = none)
    (reads : versions.Reads assigned env) :
    (versions.bump v).Reads (Function.update assigned ((versions.bump v).current v) c)
      (Function.update env v c) := by
  intro w plain
  by_cases same : w = v
  · rw [same, Function.update_self, Function.update_self]
  · have bases : w.base ≠ v.base := by
      rw [Variable.base_of_unversioned plain, Variable.base_of_unversioned unversioned]
      exact same
    have kept : (versions.bump v).current w = versions.current w := by
      rw [VersionMap.current_eq_iff, VersionMap.version_bump, if_neg bases]
      exact ⟨rfl, rfl⟩
    rw [Function.update_of_ne same, kept, reads w plain,
      Function.update_of_ne (ne_current_bump (versions.covers_current w))]

theorem typed_update {v : Variable} {c : Constant} (typed : assigned.Typed)
    (type : c.dataType = v.dataType) : Environment.Typed (Function.update assigned v c) := by
  intro w
  by_cases same : w = v
  · rw [same, Function.update_self, type]
  · rw [Function.update_of_ne same]
    exact typed w

theorem holds_equation {v : Variable} {e : Expression} {c : Constant} {g : Formula}
    (formed : Formula.ofExpression (.binary .eq (.var v) e) = .ok g)
    (value : e.eval assigned.lookup = .ok (some c)) :
    g.Holds assigned.lookup ↔ assigned v = c := by
  rw [Formula.ofExpression_equation] at formed
  obtain rfl := Except.ok.inj formed
  rw [Formula.holds_ofLiteral, Expression.eval_eq_true_iff]
  constructor
  · rintro ⟨d, first, second⟩
    rw [Expression.eval_var] at first
    rw [value] at second
    exact Option.some.inj ((Except.ok.inj first).trans (Except.ok.inj second).symm)
  · intro same
    exact ⟨c, by rw [Expression.eval_var, Environment.lookup, same], value⟩

/-- A write as its constraint has it: the new version equals the value of an expression. -/
theorem constraintOf_write {v : Variable} {e : Expression} {written : Statement} {g : Formula}
    (formed : constraintOf written = .ok g)
    (form : written.constraint? = some <$> Expression.binaryChecked .eq (.var v) e) :
    e.dataType = v.dataType ∧ Formula.ofExpression (.binary .eq (.var v) e) = .ok g := by
  obtain ⟨c, given, either⟩ := constraintOf_eq_ok formed
  rw [form] at given
  obtain ⟨d, checked, rfl⟩ := map_eq_ok_iff.1 given
  obtain ⟨rfl, _, types⟩ := Expression.binaryChecked_eq_ok_iff.1 checked
  rcases either with ⟨impossible, _⟩ | ⟨x, same, built⟩
  · cases impossible
  · cases same
    exact ⟨types, built⟩

/-- If a statement runs, its constraint can be satisfied by a choice for the new version. -/
theorem exists_of_execute {g : Formula} (plain : statement.Plain) (typed : assigned.Typed)
    (reads : versions.Reads assigned env) (executed : env.execute statement = some next)
    (formed : constraintOf (rename versions declared statement).1 = .ok g) :
    ∃ extended : Environment, extended.Typed ∧
      (∀ v, versions.Covers v → assigned v = extended v) ∧
      (versionsAfter versions statement).Reads extended next ∧ g.Holds extended.lookup := by
  -- a write of the value of an expression over the versions from before
  have write : ∀ {v : Variable} {e : Expression} {c : Constant}, v.version = none →
      e.dataType = ((versions.bump v).current v).dataType → e.Over versions.Covers →
      Formula.ofExpression (.binary .eq (.var ((versions.bump v).current v)) e) = .ok g →
      e.eval assigned.lookup = .ok (some c) → ∃ extended : Environment, extended.Typed ∧
        (∀ v, versions.Covers v → assigned v = extended v) ∧
        (versions.bump v).Reads extended (Function.update env v c) ∧ g.Holds extended.lookup := by
    intro v e c unversioned types written built value
    let extended : Environment := Function.update assigned ((versions.bump v).current v) c
    have kept : ∀ w, versions.Covers w → assigned w = extended w := fun w covers =>
      (Function.update_of_ne (ne_current_bump covers) c assigned).symm
    have type : c.dataType = ((versions.bump v).current v).dataType := by
      rw [← types]
      refine Expression.dataType_of_eval ?_ value
      rintro w d ⟨⟩
      exact typed w
    have same : e.eval extended.lookup = .ok (some c) := by
      rw [← value]
      exact Expression.eval_congr fun w occurs => congrArg some (kept w (written w occurs)).symm
    exact ⟨extended, typed_update typed type, kept, reads_bump unversioned reads,
      (holds_equation built same).2 (Function.update_self ..)⟩
  cases statement with
  | declare v =>
    obtain ⟨types, built⟩ := constraintOf_write formed rfl
    obtain rfl := Option.some.inj executed
    exact write plain types (fun w occurs => by simp [Expression.variables] at occurs) built
      (Expression.eval_const _)
  | assign v e =>
    obtain ⟨types, built⟩ := constraintOf_write formed rfl
    obtain ⟨c, value, rfl⟩ := Environment.execute_assign.1 executed
    exact write plain.1 types (over_renameReads versions e) built
      ((eval_renameReads plain.2.unversioned reads).trans value)
  | assume condition =>
    obtain ⟨true, rfl⟩ := Environment.execute_assume.1 executed
    obtain ⟨c, given, either⟩ := constraintOf_eq_ok formed
    obtain rfl := Except.ok.inj given
    rcases either with ⟨impossible, _⟩ | ⟨x, same, built⟩
    · cases impossible
    · cases same
      exact ⟨assigned, typed, fun _ _ => rfl, reads, Formula.holds_ofExpressionPolarity built
        ((eval_renameReads plain.unversioned reads).trans true)⟩
  | call _ _ _ | «return» _ | broadcast _ | broadcastAndWait _ | waitUntil _ | waitSecs _
  | signalFailure _ | nop =>
    obtain rfl := Except.ok.inj formed
    obtain rfl := Option.some.inj executed
    exact ⟨assigned, typed, fun _ _ => rfl, reads, Formula.holds_top⟩

/-- Where the constraint of a statement holds, the statement runs from the environment before to
the one after. -/
theorem execute_of_holds {g : Formula} (plain : statement.Plain) (typed : assigned.Typed)
    (formed : constraintOf (rename versions declared statement).1 = .ok g)
    (holds : g.Holds assigned.lookup) :
    (versions.read assigned).execute statement =
      some ((versionsAfter versions statement).read assigned) := by
  have reads := versions.reads_read assigned
  have write : ∀ {v : Variable} {c : Constant}, v.version = none →
      assigned ((versions.bump v).current v) = c →
      Function.update (versions.read assigned) v c = (versions.bump v).read assigned := by
    intro v c unversioned value
    funext w
    by_cases same : w = v
    · rw [same, Function.update_self, VersionMap.read, if_pos unversioned, value]
    · rw [Function.update_of_ne same, VersionMap.read, VersionMap.read]
      split
      · rename_i plain
        have bases : w.base ≠ v.base := by
          rw [Variable.base_of_unversioned plain, Variable.base_of_unversioned unversioned]
          exact same
        refine congrArg assigned (VersionMap.current_eq_iff.2 ⟨rfl, ?_⟩)
        rw [VersionMap.version_bump, if_neg bases]
      · rfl
  cases statement with
  | declare v =>
    obtain ⟨_, built⟩ := constraintOf_write formed rfl
    have value := (holds_equation built (Expression.eval_const _)).1 holds
    exact congrArg some (write plain value)
  | assign v e =>
    obtain ⟨_, built⟩ := constraintOf_write formed rfl
    obtain ⟨c, value, _⟩ := Expression.eval_total typed
      (plain.2.total.rename fun v => VersionMap.dataType_current versions v)
    have stored := (holds_equation built value).1 holds
    exact Environment.execute_assign.2
      ⟨c, (eval_renameReads plain.2.unversioned reads).symm.trans value, write plain.1 stored⟩
  | assume condition =>
    obtain ⟨c, given, either⟩ := constraintOf_eq_ok formed
    obtain rfl := Except.ok.inj given
    rcases either with ⟨impossible, _⟩ | ⟨x, same, built⟩
    · cases impossible
    · cases same
      obtain ⟨b, value⟩ := Expression.eval_total_bool typed
        (plain.total.rename fun v => VersionMap.dataType_current versions v)
        (Formula.dataType_of_ofExpression built)
      obtain rfl := (Formula.holds_ofExpression_iff built value).1 holds
      exact Environment.execute_assume.2
        ⟨(eval_renameReads plain.unversioned reads).symm.trans value, rfl⟩
  | call _ _ _ | «return» _ | broadcast _ | broadcastAndWait _ | waitUntil _ | waitSecs _
  | signalFailure _ | nop => rfl

end SingleAssignment

end EventCheck
