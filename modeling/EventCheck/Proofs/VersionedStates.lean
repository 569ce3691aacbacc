import EventCheck.Proofs.SingleAssignment

/-!
States in single assignment form. A state admits the assignments that its data admits and that
satisfy its block; it describes the environments that such assignments stand for. Steps add the
constraint of their statement to what is admitted, and a combination of two states admits what
either of them admits with its versions aligned.
-/

namespace EventCheck

open SingleAssignment

variable {σ : Type} {a : LabeledAnalysis σ} {meaning : Meaning a}

/-- The atom has the property and speaks of versions that have been written. -/
def Bounded (ok : Expression → Prop) (versions : VersionMap) (e : Expression) : Prop :=
  ok e ∧ e.Over versions.Covers

theorem Bounded.rule {ok : Expression → Prop} (rule : AtomRule ok) (versions : VersionMap) :
    AtomRule (Bounded ok versions) :=
  rule.and (AtomRule.over _)

theorem Bounded.mono {ok : Expression → Prop} {versions target : VersionMap}
    (below : versions.Below target) (e : Expression) (bounded : Bounded ok versions e) :
    Bounded ok target e :=
  ⟨bounded.1, fun v member => (bounded.2 v member).mono below⟩

namespace SsaState

/-- What the data admits and the block allows. -/
def Admits (meaning : Meaning a) (s : SsaState σ) (assigned : Environment) : Prop :=
  meaning.admits s.inner assigned ∧ s.block.Holds assigned.lookup

/-- All atoms of the state have the property and speak of versions that have been written. -/
structure Fits (meaning : Meaning a) (ok : Expression → Prop) (s : SsaState σ) : Prop where
  block : s.block.Fits (Bounded ok s.versions)
  inner : meaning.fits (Bounded ok s.versions) s.inner

/-- An environment that an admitted assignment stands for. -/
def Describes (meaning : Meaning a) (s : SsaState σ) (env : Environment) : Prop :=
  ∃ assigned : Environment, assigned.Typed ∧ s.Admits meaning assigned ∧
    s.versions.Reads assigned env

variable {ok : Expression → Prop} {s t : SsaState σ} {assigned other : Environment}

theorem Fits.block_congr (fits : s.Fits meaning ok)
    (same : ∀ v, s.versions.Covers v → assigned v = other v) :
    s.block.Holds assigned.lookup ↔ s.block.Holds other.lookup :=
  (fits.block.imp fun _ bounded => bounded.2).within.holds_iff
    fun v covers => congrArg some (same v covers)

/-- Versions that have not been written yet do not matter. -/
theorem Fits.admits_congr (fits : s.Fits meaning ok) (typed : assigned.Typed)
    (same : ∀ v, s.versions.Covers v → assigned v = other v)
    (admits : s.Admits meaning assigned) : s.Admits meaning other :=
  ⟨meaning.admits_congr (meaning.fits_imp (fun _ bounded => bounded.2) fits.inner) typed same
    admits.1, (fits.block_congr same).1 admits.2⟩

variable (meaning) in
/-- The formula of a state holds exactly under the assignments that it admits. -/
theorem admits_iff (typed : assigned.Typed) :
    s.Admits meaning assigned ↔
      ∃ f, a.withVersions.formula s = .ok f ∧ f.Holds assigned.lookup := by
  rw [Admits, meaning.admits_iff typed]
  constructor
  · rintro ⟨⟨f, formed, inner⟩, block⟩
    exact ⟨f.conjunction s.block, bind_eq_ok_iff.2 ⟨f, formed, rfl⟩,
      Formula.holds_conjunction.2 ⟨inner, block⟩⟩
  · rintro ⟨f, formed, holds⟩
    obtain ⟨g, inner, rest⟩ := bind_eq_ok_iff.1 formed
    obtain rfl := pure_eq_ok_iff.1 rest
    obtain ⟨left, right⟩ := Formula.holds_conjunction.1 holds
    exact ⟨⟨g, inner, left⟩, right⟩

theorem Fits.formula {f : Formula} (fits : s.Fits meaning ok)
    (formed : a.withVersions.formula s = .ok f) : f.Fits (Bounded ok s.versions) := by
  obtain ⟨g, inner, rest⟩ := bind_eq_ok_iff.1 formed
  obtain rfl := pure_eq_ok_iff.1 rest
  exact (meaning.fits_formula fits.inner inner).conjunction fits.block

end SsaState

namespace SingleAssignment

variable {ok : Expression → Prop} {s t u : SsaState σ} {operation : LabeledOperation}
variable {next : List (SsaState σ)} {assigned env after : Environment}

/-! ### Steps -/

/-- A step adds the constraint of the renamed statement to the block, and the analysis inside
follows that statement. -/
theorem step_eq_ok (stepped : step a s operation = .ok next) :
    let renamed := (rename s.versions s.declared operation.statement).1
    ∃ g, constraintOf renamed = .ok g ∧
      ((s.block.conjunction g).isFalse = true ∧ next = [] ∨
        ∃ inner, a.step s.inner { operation with statement := renamed } = .ok inner ∧
          next = inner.map fun inner =>
            { versions := versionsAfter s.versions operation.statement
              declared := (rename s.versions s.declared operation.statement).2.2
              block := s.block.conjunction g, inner }) := by
  intro renamed
  unfold step at stepped
  dsimp only at stepped
  obtain ⟨g, formed, rest⟩ := bind_eq_ok_iff.1 stepped
  refine ⟨g, formed, ?_⟩
  split at rest
  · rename_i false
    exact Or.inl ⟨false, (pure_eq_ok_iff.1 rest).symm⟩
  · obtain ⟨inner, followed, rest⟩ := bind_eq_ok_iff.1 rest
    refine Or.inr ⟨inner, followed, ?_⟩
    rw [← pure_eq_ok_iff.1 rest, rename_versions]

theorem mem_step (stepped : step a s operation = .ok next) (member : t ∈ next) :
    ∃ g, constraintOf (rename s.versions s.declared operation.statement).1 = .ok g ∧
      t.versions = versionsAfter s.versions operation.statement ∧
      t.block = s.block.conjunction g := by
  obtain ⟨g, formed, ⟨_, rfl⟩ | ⟨inner, _, rfl⟩⟩ := step_eq_ok stepped
  · simp at member
  · obtain ⟨i, _, rfl⟩ := List.mem_map.1 member
    exact ⟨g, formed, rfl, rfl⟩

/-- What is admitted and satisfies the constraint of the statement is admitted after it. -/
theorem step_admits {g : Formula}
    (formed : constraintOf (rename s.versions s.declared operation.statement).1 = .ok g)
    (stepped : step a s operation = .ok next) (admits : s.Admits meaning assigned)
    (holds : g.Holds assigned.lookup) : next ≠ [] ∧ ∀ t ∈ next, t.Admits meaning assigned := by
  obtain ⟨h, same, ⟨false, _⟩ | ⟨inner, followed, rfl⟩⟩ := step_eq_ok stepped
  · obtain rfl := Except.ok.inj (formed.symm.trans same)
    rw [Formula.not_isFalse_of_holds (Formula.holds_conjunction.2 ⟨admits.2, holds⟩)] at false
    cases false
  · obtain rfl := Except.ok.inj (formed.symm.trans same)
    obtain ⟨some, all⟩ := meaning.step_admits formed followed admits.1 holds
    refine ⟨by simpa using some, fun t member => ?_⟩
    obtain ⟨i, inside, rfl⟩ := List.mem_map.1 member
    exact ⟨all i inside, Formula.holds_conjunction.2 ⟨admits.2, holds⟩⟩

/-- The constraint of the statement, whatever the versions are, has the property. -/
def Allowed (ok : Expression → Prop) (statement : Statement) : Prop :=
  ∀ versions declared c, (rename versions declared statement).1.constraint? = .ok (some c) → ok c

theorem step_fits (rule : AtomRule ok) (allowed : Allowed ok operation.statement)
    (stepped : step a s operation = .ok next) (fits : s.Fits meaning ok) :
    ∀ t ∈ next, t.Fits meaning ok := by
  obtain ⟨g, formed, ⟨_, rfl⟩ | ⟨inner, followed, rfl⟩⟩ := step_eq_ok stepped
  · simp
  · have below := below_versionsAfter s.versions operation.statement
    have rule := Bounded.rule rule (versionsAfter s.versions operation.statement)
    obtain ⟨c, given, form⟩ := constraintOf_eq_ok formed
    have bounded : ∀ e, c = some e →
        Bounded ok (versionsAfter s.versions operation.statement) e := by
      rintro e rfl
      exact ⟨allowed _ _ e given, over_constraint given⟩
    have constraint : g.Fits (Bounded ok (versionsAfter s.versions operation.statement)) := by
      rcases form with ⟨_, rfl⟩ | ⟨e, same, built⟩
      · exact Formula.allAtoms_top
      · exact rule.fits_ofExpression built (bounded e same)
    intro t member
    obtain ⟨i, inside, rfl⟩ := List.mem_map.1 member
    exact ⟨(fits.block.imp (Bounded.mono below)).conjunction constraint,
      meaning.step_fits rule given bounded followed
        (meaning.fits_imp (Bounded.mono below) fits.inner) i inside⟩

/-- If a statement runs in an environment that a state describes, the state after the statement
describes the environment after it. -/
theorem exists_mem_step (fits : s.Fits meaning ok) (plain : operation.statement.Plain)
    (typed : assigned.Typed) (admits : s.Admits meaning assigned)
    (reads : s.versions.Reads assigned env)
    (executed : env.execute operation.statement = some after)
    (stepped : step a s operation = .ok next) :
    ∃ t ∈ next, ∃ extended : Environment, extended.Typed ∧
      (∀ v, s.versions.Covers v → assigned v = extended v) ∧
      t.Admits meaning extended ∧ t.versions.Reads extended after := by
  obtain ⟨g, formed, _⟩ := step_eq_ok stepped
  obtain ⟨extended, typedAfter, same, readsAfter, holds⟩ :=
    exists_of_execute plain typed reads executed formed
  obtain ⟨some, all⟩ :=
    step_admits formed stepped (fits.admits_congr typed same admits) holds
  obtain ⟨t, member⟩ := List.exists_mem_of_ne_nil next some
  obtain ⟨_, _, versions, _⟩ := mem_step stepped member
  exact ⟨t, member, extended, typedAfter, same, all t member, versions ▸ readsAfter⟩

/-! ### Alignment -/

/-- The assignment gives each variable at the versions of the first map the value that it has at
those of the second one. -/
def Aligned (target versions : VersionMap) (assigned : Environment) : Prop :=
  ∀ v, assigned (target.current v) = assigned (versions.current v)

theorem aligned_extend {versions target : VersionMap} (below : versions.Below target)
    (assigned : Environment) : Aligned target versions (versions.extend assigned) := by
  intro v
  rw [VersionMap.extend_current below]
  exact VersionMap.extend_of_covers (versions.covers_current v)

theorem reads_of_aligned {versions target : VersionMap} (aligned : Aligned target versions assigned)
    (reads : target.Reads assigned env) : versions.Reads assigned env :=
  fun v unversioned => (reads v unversioned).trans (aligned v)

/-- Alignment of one variable does nothing or assumes the equation of its versions. -/
theorem alignVariable_eq_ok {versions : VersionMap} {states aligned : List σ}
    {block alignedBlock : Formula} {v : Variable} {n : Nat}
    (given : alignVariable a versions (states, block) (v, n) = .ok (aligned, alignedBlock)) :
    (versions.version v = n ∧ aligned = states ∧ alignedBlock = block) ∨
      let equality := Expression.binary .eq (.var (v.atVersion n))
        (.var (v.atVersion (versions.version v)))
      ∃ next, states.mapM (fun s => a.step s (.synthesized (.assume equality))) = .ok next ∧
        aligned = next.flatten ∧
        alignedBlock = block.conjunction (.ofLiteral ⟨equality, true⟩) := by
  unfold alignVariable at given
  dsimp only at given
  split at given
  · rename_i same
    obtain ⟨rfl, rfl⟩ := Prod.mk.inj (pure_eq_ok_iff.1 given)
    exact Or.inl ⟨same, rfl, rfl⟩
  · obtain ⟨equality, checked, rest⟩ := bind_eq_ok_iff.1 given
    obtain ⟨rfl, _⟩ := Expression.binaryChecked_eq_ok_iff.1 checked
    obtain ⟨f, formed, rest⟩ := bind_eq_ok_iff.1 rest
    rw [Formula.ofExpression_equation] at formed
    obtain rfl := Except.ok.inj formed
    obtain ⟨next, followed, rest⟩ := bind_eq_ok_iff.1 rest
    obtain ⟨rfl, rfl⟩ := Prod.mk.inj (pure_eq_ok_iff.1 rest)
    exact Or.inr ⟨next, followed, rfl, rfl⟩

/-- The variables of the entries have one value at both versions. -/
def EntriesAligned (versions : VersionMap) (entries : List (Variable × Nat))
    (assigned : Environment) : Prop :=
  ∀ entry ∈ entries,
    assigned (entry.1.atVersion entry.2) = assigned (entry.1.atVersion (versions.version entry.1))

theorem holds_equality {v w : Variable} :
    (Formula.ofLiteral ⟨.binary .eq (.var v) (.var w), true⟩).Holds assigned.lookup ↔
      assigned v = assigned w := by
  refine (holds_equation (Formula.ofExpression_equation v (.var w)) ?_)
  rw [Expression.eval_var]
  rfl

theorem constraintOf_equality (v w : Variable) :
    constraintOf (LabeledOperation.synthesized (.assume (.binary .eq (.var v) (.var w)))).statement =
      .ok (.ofLiteral ⟨.binary .eq (.var v) (.var w), true⟩) := rfl

variable (meaning) in
/-- What alignment does to the block and to the states inside, entry by entry. -/
theorem foldlM_alignVariable {versions : VersionMap} {entries : List (Variable × Nat)}
    {states aligned : List σ} {block alignedBlock : Formula}
    (given : entries.foldlM (alignVariable a versions) (states, block) =
      .ok (aligned, alignedBlock)) :
    (∀ assigned : Environment, alignedBlock.Holds assigned.lookup ↔
      block.Holds assigned.lookup ∧ EntriesAligned versions entries assigned) ∧
    ∀ assigned : Environment, EntriesAligned versions entries assigned → states ≠ [] →
      (∀ s ∈ states, meaning.admits s assigned) →
      aligned ≠ [] ∧ ∀ s ∈ aligned, meaning.admits s assigned := by
  induction entries generalizing states block with
  | nil =>
    obtain ⟨rfl, rfl⟩ := Prod.mk.inj (pure_eq_ok_iff.1 given)
    exact ⟨fun _ => by simp [EntriesAligned], fun _ _ some all => ⟨some, all⟩⟩
  | cons entry rest ih =>
    obtain ⟨v, n⟩ := entry
    rw [List.foldlM_cons] at given
    obtain ⟨⟨middle, middleBlock⟩, first, later⟩ := bind_eq_ok_iff.1 given
    obtain ⟨blocks, inside⟩ := ih later
    have split_ : ∀ assigned : Environment, EntriesAligned versions ((v, n) :: rest) assigned ↔
        assigned (v.atVersion n) = assigned (v.atVersion (versions.version v)) ∧
          EntriesAligned versions rest assigned := by
      intro assigned
      simp [EntriesAligned]
    rcases alignVariable_eq_ok first with ⟨same, rfl, rfl⟩ | ⟨next, followed, rfl, rfl⟩
    · constructor
      · intro assigned
        rw [blocks assigned, split_ assigned]
        simp [same]
      · intro assigned equations some all
        exact inside assigned ((split_ assigned).1 equations).2 some all
    · constructor
      · intro assigned
        rw [blocks assigned, split_ assigned, Formula.holds_conjunction, holds_equality, and_assoc]
      · intro assigned equations some all
        obtain ⟨equal, others⟩ := (split_ assigned).1 equations
        have results := mapM_eq_ok_iff.1 followed
        have each : ∀ s ∈ states, ∀ ts, a.step s (.synthesized (.assume (.binary .eq
            (.var (v.atVersion n)) (.var (v.atVersion (versions.version v)))))) = .ok ts →
            ts ≠ [] ∧ ∀ t ∈ ts, meaning.admits t assigned := by
          intro s member ts stepped
          exact meaning.step_admits (constraintOf_equality _ _) stepped (all s member)
            (holds_equality.2 equal)
        refine inside assigned others ?_ ?_
        · obtain ⟨s, member⟩ := List.exists_mem_of_ne_nil states some
          obtain ⟨ts, found, stepped⟩ := exists_right_of_mem results member
          obtain ⟨t, inner⟩ := List.exists_mem_of_ne_nil ts (each s member ts stepped).1
          exact List.ne_nil_of_mem (List.mem_flatten.2 ⟨ts, found, inner⟩)
        · intro t member
          obtain ⟨ts, found, inner⟩ := List.mem_flatten.1 member
          obtain ⟨s, member, stepped⟩ := exists_left_of_mem results found
          exact (each s member ts stepped).2 t inner

/-- Equations of two versions of a variable have the property. -/
def Equates (ok : Expression → Prop) : Prop :=
  ∀ (v : Variable) (m n : Nat), ok (.binary .eq (.var (v.atVersion m)) (.var (v.atVersion n)))

variable (meaning) in
theorem foldlM_alignVariable_fits (rule : AtomRule ok) (equates : Equates ok)
    {versions target : VersionMap} {entries : List (Variable × Nat)}
    {states aligned : List σ} {block alignedBlock : Formula}
    (below : versions.Below target) (later : ∀ entry ∈ entries, target.version entry.1 = entry.2)
    (given : entries.foldlM (alignVariable a versions) (states, block) =
      .ok (aligned, alignedBlock))
    (blockFits : block.Fits (Bounded ok target))
    (fits : ∀ s ∈ states, meaning.fits (Bounded ok target) s) :
    alignedBlock.Fits (Bounded ok target) ∧
      ∀ s ∈ aligned, meaning.fits (Bounded ok target) s := by
  induction entries generalizing states block with
  | nil =>
    obtain ⟨rfl, rfl⟩ := Prod.mk.inj (pure_eq_ok_iff.1 given)
    exact ⟨blockFits, fits⟩
  | cons entry rest ih =>
    obtain ⟨v, n⟩ := entry
    rw [List.foldlM_cons] at given
    obtain ⟨⟨middle, middleBlock⟩, first, others⟩ := bind_eq_ok_iff.1 given
    have rest_ := fun entry member => later entry (List.mem_cons_of_mem _ member)
    rcases alignVariable_eq_ok first with ⟨_, rfl, rfl⟩ | ⟨next, followed, rfl, rfl⟩
    · exact ih rest_ others blockFits fits
    · have number : target.version v = n := later (v, n) (by simp)
      have bounded : Bounded ok target (.binary .eq (.var (v.atVersion n))
          (.var (v.atVersion (versions.version v)))) := by
        refine ⟨equates v n _, fun w occurs => ?_⟩
        simp only [Expression.variables, SortedSet.mem_union, SortedSet.mem_singleton] at occurs
        rcases occurs with rfl | rfl
        · exact ⟨n, rfl, Nat.le_of_eq (number.symm.trans (VersionMap.version_congr rfl))⟩
        · exact ⟨_, rfl, below v⟩
      refine ih rest_ others (blockFits.conjunction (Formula.allAtoms_ofLiteral ⟨bounded, rfl⟩)) ?_
      intro t member
      obtain ⟨ts, found, inner⟩ := List.mem_flatten.1 member
      obtain ⟨s, inside, stepped⟩ := exists_left_of_mem (mapM_eq_ok_iff.1 followed) found
      refine meaning.step_fits (Bounded.rule rule target) rfl ?_ stepped (fits s inside) t inner
      rintro e same
      exact Option.some.inj same ▸ bounded

theorem entriesAligned_iff {versions target : VersionMap} (below : versions.Below target) :
    EntriesAligned versions target.versions.toList assigned ↔ Aligned target versions assigned := by
  have same : ∀ {v n}, (v, n) ∈ target.versions.toList →
      v.atVersion n = target.current v ∧ v.atVersion (versions.version v) = versions.current v := by
    intro v n member
    have base := Variable.base_of_unversioned (target.unversioned _ member)
    rw [VersionMap.current, VersionMap.current, base, VersionMap.version_of_mem member]
    exact ⟨rfl, rfl⟩
  constructor
  · intro equations v
    by_cases written : target.version v = 0
    · have equal : target.version v = versions.version v := by
        have := below v
        omega
      rw [VersionMap.current_eq_iff.2 ⟨rfl, equal⟩]
    · have member := VersionMap.mem_of_written written
      have equation := equations _ member
      obtain ⟨left, right⟩ := same member
      rw [left, right] at equation
      exact equation
  · intro aligned entry member
    obtain ⟨left, right⟩ := same (n := entry.2) member
    rw [left, right]
    exact aligned entry.1

variable (meaning) in
/-- A state brought up to later versions: the block with the equations, and a state inside that
admits what the state did, unless no assignment is left. -/
theorem align_eq_ok {target : VersionMap} {inner : Option σ} {block : Formula}
    (below : s.versions.Below target) (given : align a s target = .ok (inner, block)) :
    (∀ assigned : Environment, block.Holds assigned.lookup ↔
      s.block.Holds assigned.lookup ∧ Aligned target s.versions assigned) ∧
    ∀ assigned : Environment, Aligned target s.versions assigned →
      meaning.admits s.inner assigned → ∃ i, inner = some i ∧ meaning.admits i assigned := by
  obtain ⟨⟨states, alignedBlock⟩, folded, rest⟩ := bind_eq_ok_iff.1 given
  obtain ⟨rfl, rfl⟩ := Prod.mk.inj (pure_eq_ok_iff.1 rest)
  obtain ⟨blocks, inside⟩ := foldlM_alignVariable meaning folded
  constructor
  · intro assigned
    rw [blocks assigned, entriesAligned_iff below]
  · intro assigned aligned admits
    obtain ⟨some, all⟩ := inside assigned ((entriesAligned_iff below).2 aligned) (by simp)
      (by simpa using admits)
    obtain ⟨i, rest, rfl⟩ := List.exists_cons_of_ne_nil some
    exact ⟨i, rfl, all i (by simp)⟩

theorem align_fits (rule : AtomRule ok) (equates : Equates ok) {target : VersionMap}
    {inner : Option σ} {block : Formula} (below : s.versions.Below target)
    (given : align a s target = .ok (inner, block)) (fits : s.Fits meaning ok) :
    block.Fits (Bounded ok target) ∧ ∀ i, inner = some i → meaning.fits (Bounded ok target) i := by
  obtain ⟨⟨states, alignedBlock⟩, folded, rest⟩ := bind_eq_ok_iff.1 given
  obtain ⟨rfl, rfl⟩ := Prod.mk.inj (pure_eq_ok_iff.1 rest)
  obtain ⟨blockFits, all⟩ := foldlM_alignVariable_fits meaning rule equates below
    (fun entry member => VersionMap.version_of_mem member) folded
    (fits.block.imp (Bounded.mono below))
    (by simpa using meaning.fits_imp (Bounded.mono below) fits.inner)
  exact ⟨blockFits, fun i first => all i (List.mem_of_head? first)⟩

/-! ### Combination -/

/-- The four ways in which a combination comes about. -/
theorem combine_eq_ok {f : σ → σ → Except Error σ} (given : combine a f s t = .ok u) :
    u.versions = s.versions.join t.versions ∧ ∃ left leftBlock right rightBlock,
      align a s (s.versions.join t.versions) = .ok (left, leftBlock) ∧
      align a t (s.versions.join t.versions) = .ok (right, rightBlock) ∧
      ((∃ i j, left = some i ∧ right = some j ∧ f i j = .ok u.inner ∧
          u.block = leftBlock.disjunction rightBlock) ∨
        (left = some u.inner ∧ right = none ∧ u.block = leftBlock) ∨
        (left = none ∧ right = some u.inner ∧ u.block = rightBlock) ∨
        (left = none ∧ right = none ∧ u.block = t.block ∧ u.inner = t.inner)) := by
  unfold combine at given
  dsimp only at given
  obtain ⟨⟨left, leftBlock⟩, first, rest⟩ := bind_eq_ok_iff.1 given
  obtain ⟨⟨right, rightBlock⟩, second, rest⟩ := bind_eq_ok_iff.1 rest
  cases left with
  | some i =>
    cases right with
    | some j =>
      obtain ⟨k, combined, built⟩ := bind_eq_ok_iff.1 rest
      obtain rfl := pure_eq_ok_iff.1 built
      exact ⟨rfl, _, _, _, _, first, second, Or.inl ⟨i, j, rfl, rfl, combined, rfl⟩⟩
    | none =>
      obtain rfl := pure_eq_ok_iff.1 rest
      exact ⟨rfl, _, _, _, _, first, second, Or.inr (Or.inl ⟨rfl, rfl, rfl⟩)⟩
  | none =>
    cases right with
    | some j =>
      obtain rfl := pure_eq_ok_iff.1 rest
      exact ⟨rfl, _, _, _, _, first, second, Or.inr (Or.inr (Or.inl ⟨rfl, rfl, rfl⟩))⟩
    | none =>
      obtain rfl := pure_eq_ok_iff.1 rest
      exact ⟨rfl, _, _, _, _, first, second, Or.inr (Or.inr (Or.inr ⟨rfl, rfl, rfl, rfl⟩))⟩

section Combination

variable {f : σ → σ → Except Error σ}

variable (meaning) in
/-- A combination admits whatever one of the states admits with its versions aligned. -/
theorem combine_admits (given : combine a f s t = .ok u)
    (joins : ∀ {i j k : σ} {assigned : Environment}, f i j = .ok k →
      meaning.admits i assigned ∨ meaning.admits j assigned → meaning.admits k assigned)
    (either : (s.Admits meaning assigned ∧ Aligned u.versions s.versions assigned) ∨
      (t.Admits meaning assigned ∧ Aligned u.versions t.versions assigned)) :
    u.Admits meaning assigned := by
  obtain ⟨versions, left, leftBlock, right, rightBlock, first, second, form⟩ :=
    combine_eq_ok given
  rw [versions] at either
  obtain ⟨leftBlocks, leftInner⟩ :=
    align_eq_ok meaning (VersionMap.below_join_left s.versions t.versions) first
  obtain ⟨rightBlocks, rightInner⟩ :=
    align_eq_ok meaning (VersionMap.below_join_right s.versions t.versions) second
  rcases either with ⟨admits, aligned⟩ | ⟨admits, aligned⟩
  · obtain ⟨i, found, inside⟩ := leftInner assigned aligned admits.1
    have block := (leftBlocks assigned).2 ⟨admits.2, aligned⟩
    rcases form with ⟨x, y, hx, hy, joined, blocks⟩ | ⟨hx, hy, blocks⟩ | ⟨hx, _⟩ | ⟨hx, _⟩
    · obtain rfl := Option.some.inj (found.symm.trans hx)
      exact ⟨joins joined (Or.inl inside),
        blocks ▸ Formula.holds_disjunction.2 (Or.inl block)⟩
    · obtain rfl := Option.some.inj (found.symm.trans hx)
      exact ⟨inside, blocks ▸ block⟩
    · simp [found] at hx
    · simp [found] at hx
  · obtain ⟨j, found, inside⟩ := rightInner assigned aligned admits.1
    have block := (rightBlocks assigned).2 ⟨admits.2, aligned⟩
    rcases form with ⟨x, y, hx, hy, joined, blocks⟩ | ⟨_, hy, _⟩ | ⟨_, hy, blocks⟩ | ⟨_, hy, _⟩
    · obtain rfl := Option.some.inj (found.symm.trans hy)
      exact ⟨joins joined (Or.inr inside),
        blocks ▸ Formula.holds_disjunction.2 (Or.inr block)⟩
    · simp [found] at hy
    · obtain rfl := Option.some.inj (found.symm.trans hy)
      exact ⟨inside, blocks ▸ block⟩
    · simp [found] at hy

/-- The block of a combination is that of one of the states with its versions aligned. The data of
the second state has to follow from its block. -/
theorem combine_block (given : combine a f s t = .ok u) (fits : t.Fits meaning ok)
    (entails : ∀ assigned : Environment, assigned.Typed → t.block.Holds assigned.lookup →
      meaning.admits t.inner assigned)
    (typed : assigned.Typed) (holds : u.block.Holds assigned.lookup) :
    (s.block.Holds assigned.lookup ∧ Aligned u.versions s.versions assigned) ∨
      (t.block.Holds assigned.lookup ∧ Aligned u.versions t.versions assigned) := by
  obtain ⟨versions, left, leftBlock, right, rightBlock, first, second, form⟩ :=
    combine_eq_ok given
  have below := VersionMap.below_join_right s.versions t.versions
  obtain ⟨leftBlocks, _⟩ :=
    align_eq_ok meaning (VersionMap.below_join_left s.versions t.versions) first
  obtain ⟨rightBlocks, rightInner⟩ := align_eq_ok meaning below second
  rw [versions]
  rcases form with ⟨_, _, _, _, _, blocks⟩ | ⟨_, _, blocks⟩ | ⟨_, _, blocks⟩ | ⟨_, none, blocks, _⟩
  · rw [blocks] at holds
    exact (Formula.holds_disjunction.1 holds).imp (leftBlocks assigned).1 (rightBlocks assigned).1
  · rw [blocks] at holds
    exact Or.inl ((leftBlocks assigned).1 holds)
  · rw [blocks] at holds
    exact Or.inr ((rightBlocks assigned).1 holds)
  · -- the data of the second state admits nothing, so its block does not hold
    rw [blocks] at holds
    have admits : t.Admits meaning assigned := ⟨entails assigned typed holds, holds⟩
    have extended := fits.admits_congr typed (fun _ => VersionMap.extend_of_covers) admits
    obtain ⟨j, found, _⟩ := rightInner _ (aligned_extend below assigned) extended.1
    simp [none] at found

theorem combine_fits (given : combine a f s t = .ok u) (rule : AtomRule ok)
    (equates : Equates ok)
    (joins : ∀ {i j k : σ} {ok : Expression → Prop}, f i j = .ok k → meaning.fits ok i →
      meaning.fits ok j → meaning.fits ok k)
    (left : s.Fits meaning ok) (right : t.Fits meaning ok) : u.Fits meaning ok := by
  obtain ⟨versions, _, leftBlock, _, rightBlock, first, second, form⟩ := combine_eq_ok given
  have belowLeft := VersionMap.below_join_left s.versions t.versions
  have belowRight := VersionMap.below_join_right s.versions t.versions
  obtain ⟨leftFits, leftInner⟩ := align_fits rule equates belowLeft first left
  obtain ⟨rightFits, rightInner⟩ := align_fits rule equates belowRight second right
  rcases form with ⟨i, j, rfl, rfl, joined, blocks⟩ | ⟨rfl, _, blocks⟩ | ⟨_, rfl, blocks⟩ |
    ⟨_, _, blocks, inner⟩
  · exact ⟨by rw [versions, blocks]; exact leftFits.disjunction rightFits,
      by rw [versions]; exact joins joined (leftInner i rfl) (rightInner j rfl)⟩
  · exact ⟨by rw [versions, blocks]; exact leftFits, by rw [versions]; exact leftInner _ rfl⟩
  · exact ⟨by rw [versions, blocks]; exact rightFits, by rw [versions]; exact rightInner _ rfl⟩
  · exact ⟨by rw [versions, blocks]; exact right.block.imp (Bounded.mono belowRight),
      by rw [versions, inner]; exact meaning.fits_imp (Bounded.mono belowRight) right.inner⟩

/-- Whatever the second state describes a combination describes. -/
theorem combine_describes_right (given : combine a f s t = .ok u) (fits : t.Fits meaning ok)
    (joins : ∀ {i j k : σ} {assigned : Environment}, f i j = .ok k →
      meaning.admits i assigned ∨ meaning.admits j assigned → meaning.admits k assigned)
    (typed : assigned.Typed) (admits : t.Admits meaning assigned)
    (reads : t.versions.Reads assigned env) :
    let extended := t.versions.extend assigned
    u.Admits meaning extended ∧ u.versions.Reads extended env := by
  have below : t.versions.Below u.versions := by
    rw [(combine_eq_ok given).1]
    exact VersionMap.below_join_right s.versions t.versions
  exact ⟨combine_admits meaning given joins (Or.inr
    ⟨fits.admits_congr typed (fun _ => VersionMap.extend_of_covers) admits,
      aligned_extend below assigned⟩), reads.extend below⟩

end Combination

end SingleAssignment

end EventCheck
