import EventCheck.Proofs.Occurring

/-!
What merging two states of the standard stack makes of them. Paths and blocks of the states are
joined apart from each other, so a merge also describes the environments of the path of one state
with the block of the other. These are the only ones that it invents.
-/

namespace EventCheck

open SingleAssignment Verification

namespace Verification

variable {σ : Type} [DecidableEq σ] {setting : Setting σ} {meaning : Meaning setting.data}
variable {s t u : State σ} {env : Environment} {before after : Context}

/-- Some typed assignment satisfies the formula of the state and gives every variable its value at
the current version. -/
def Setting.Describes (setting : Setting σ) (s : State σ) (env : Environment) : Prop :=
  ∃ assigned : Environment, assigned.Typed ∧
    (∃ f, setting.analysis.formula s = .ok f ∧ f.Holds assigned.lookup) ∧
    s.ssa.versions.Reads assigned env

/-- Some typed assignment satisfies the path of the first state and the block of the second one,
with the versions of the latter aligned. -/
def State.Mixes (versions : VersionMap) (s t : State σ) (env : Environment) : Prop :=
  ∃ assigned : Environment, assigned.Typed ∧ s.path.Holds assigned.lookup ∧
    t.summary.Holds assigned.lookup ∧ t.ssa.block.Holds assigned.lookup ∧
    Aligned versions t.ssa.versions assigned ∧ versions.Reads assigned env

omit [DecidableEq σ] in
/-- Nothing has to be asked of the atoms. -/
theorem Setting.obeys_trivial (setting : Setting σ) :
    setting.Obeys (fun _ => True) (fun _ => True) (fun _ => True) where
  rule := AtomRule.all
  rename _ _ _ _ := trivial
  allowed _ _ _ _ _ _ := trivial
  uses := ⟨fun _ operation _ => by cases operation.statement <;> simp [Statement.Uses], by simp⟩
  equates _ _ _ _ := trivial

section Formed

variable {ok : Expression → Prop} {target : Variable → Prop}

theorem State.Formed.describes_iff (formed : s.Formed meaning ok target) :
    setting.Describes s env ↔ ∃ assigned : Environment, assigned.Typed ∧
      s.path.Holds assigned.lookup ∧ s.summary.Holds assigned.lookup ∧
      s.ssa.block.Holds assigned.lookup ∧ s.ssa.versions.Reads assigned env := by
  refine exists_congr fun assigned => and_congr_right fun typed => ?_
  rw [formed.formula_iff typed]
  tauto

/-- The block of a merge is that of one of the states with its versions aligned. -/
theorem block_merge_iff (left : s.Formed meaning ok target) (right : t.Formed meaning ok target)
    (wanted : setting.analysis.shouldMerge s t = .ok true)
    (given : (setting.analysis.merge s t).Yields before u after) {assigned : Environment}
    (typed : assigned.Typed) : u.ssa.block.Holds assigned.lookup ↔
      (s.ssa.block.Holds assigned.lookup ∧ Aligned u.ssa.versions s.ssa.versions assigned) ∨
      (t.ssa.block.Holds assigned.lookup ∧ Aligned u.ssa.versions t.ssa.versions assigned) := by
  obtain ⟨_, _, _, data⟩ := shouldMerge_eq_true wanted
  obtain ⟨_, _, combined, _⟩ := yields_merge wanted given
  rw [meaning.merge_eq data] at combined
  refine ⟨combine_block combined right.ssa right.entails typed, fun either => ?_⟩
  refine (combine_admits meaning combined meaning.join_admits ?_).2
  exact either.imp (fun both => ⟨left.entails.admits typed both.1, both.2⟩)
    (fun both => ⟨right.entails.admits typed both.1, both.2⟩)

/-- What a merge describes is described by one of the states or by a mixture of the two, and all
mixtures are described by it. -/
theorem describes_merge_iff (left : s.Formed meaning ok target)
    (right : t.Formed meaning ok target) (merged : u.Formed meaning ok target)
    (wanted : setting.analysis.shouldMerge s t = .ok true)
    (given : (setting.analysis.merge s t).Yields before u after)
    (path : u.path = s.path.disjunction t.path) :
    setting.Describes u env ↔
      (s.Mixes u.ssa.versions s env ∨ t.Mixes u.ssa.versions t env) ∨
      (s.Mixes u.ssa.versions t env ∨ t.Mixes u.ssa.versions s env) := by
  obtain ⟨_, same, _, _⟩ := shouldMerge_eq_true wanted
  obtain ⟨_, _, _, summary, _⟩ := yields_merge wanted given
  have summaries : ∀ assigned : Environment,
      u.summary.Holds assigned.lookup ↔ t.summary.Holds assigned.lookup := by
    intro assigned
    rw [summary, Formula.holds_disjunction, or_self]
  rw [merged.describes_iff]
  constructor
  · rintro ⟨assigned, typed, paths, holds, block, reads⟩
    rw [path, Formula.holds_disjunction] at paths
    rw [summaries] at holds
    rw [block_merge_iff left right wanted given typed] at block
    rcases block with ⟨block, aligned⟩ | ⟨block, aligned⟩
    · have mixes : ∀ p : State σ, p.path.Holds assigned.lookup → p.Mixes u.ssa.versions s env :=
        fun p first => ⟨assigned, typed, first, same ▸ holds, block, aligned, reads⟩
      exact paths.elim (fun first => Or.inl (Or.inl (mixes s first)))
        (fun first => Or.inr (Or.inr (mixes t first)))
    · have mixes : ∀ p : State σ, p.path.Holds assigned.lookup → p.Mixes u.ssa.versions t env :=
        fun p first => ⟨assigned, typed, first, holds, block, aligned, reads⟩
      exact paths.elim (fun first => Or.inr (Or.inl (mixes s first)))
        (fun first => Or.inl (Or.inr (mixes t first)))
  · have described : ∀ p q : State σ, (p = s ∨ p = t) → (q = s ∨ q = t) →
        p.Mixes u.ssa.versions q env → ∃ assigned : Environment, assigned.Typed ∧
          u.path.Holds assigned.lookup ∧ u.summary.Holds assigned.lookup ∧
          u.ssa.block.Holds assigned.lookup ∧ u.ssa.versions.Reads assigned env := by
      rintro p q first second ⟨assigned, typed, paths, holds, block, aligned, reads⟩
      refine ⟨assigned, typed, ?_, ?_, ?_, reads⟩
      · rw [path, Formula.holds_disjunction]
        rcases first with rfl | rfl
        · exact Or.inl paths
        · exact Or.inr paths
      · rw [summaries]
        rcases second with rfl | rfl
        · exact same ▸ holds
        · exact holds
      · rw [block_merge_iff left right wanted given typed]
        rcases second with rfl | rfl
        · exact Or.inl ⟨block, aligned⟩
        · exact Or.inr ⟨block, aligned⟩
    rintro ((mixes | mixes) | (mixes | mixes))
    · exact described s s (Or.inl rfl) (Or.inl rfl) mixes
    · exact described t t (Or.inr rfl) (Or.inr rfl) mixes
    · exact described s t (Or.inl rfl) (Or.inr rfl) mixes
    · exact described t s (Or.inr rfl) (Or.inl rfl) mixes

/-- The block of a state under its own path, at later versions, describes nothing new. -/
theorem State.Formed.describes_of_mixes (formed : s.Formed meaning ok target)
    {versions : VersionMap} {p : State σ} (path : p.path = s.path)
    (mixes : p.Mixes versions s env) : setting.Describes s env := by
  obtain ⟨assigned, typed, paths, holds, block, aligned, reads⟩ := mixes
  exact formed.describes_iff.2
    ⟨assigned, typed, path ▸ paths, holds, block, reads_of_aligned aligned reads⟩

end Formed

/-- A merge of states that occur invents environments exactly if it changes the second state and
mixtures of the two are described by neither. -/
def Setting.InventsByMixing (setting : Setting σ) : Prop :=
  ∀ (s t u : State σ) (before after : Context), setting.Occurs s → setting.Occurs t →
    setting.analysis.shouldMerge s t = .ok true →
    (setting.analysis.merge s t).Yields before u after →
    ((∀ env, setting.Describes u env → setting.Describes s env ∨ setting.Describes t env) ↔
      u = t ∨ ∀ env, s.Mixes u.ssa.versions t env ∨ t.Mixes u.ssa.versions s env →
        setting.Describes s env ∨ setting.Describes t env)

theorem inventsByMixing (meaning : Meaning setting.data) : setting.InventsByMixing := by
  intro s t u before after first second wanted given
  have left := formed_of_occurs meaning setting.obeys_trivial first
  have right := formed_of_occurs meaning setting.obeys_trivial second
  have merged := formed_of_occurs meaning setting.obeys_trivial (.merged first second wanted given)
  obtain ⟨_, _, _, _, _, rfl | path⟩ := yields_merge wanted given
  · exact iff_of_true (fun env describes => Or.inr describes) (Or.inl rfl)
  · have described : ∀ env, setting.Describes u env ↔
        (s.Mixes u.ssa.versions s env ∨ t.Mixes u.ssa.versions t env) ∨
        (s.Mixes u.ssa.versions t env ∨ t.Mixes u.ssa.versions s env) :=
      fun env => describes_merge_iff left right merged wanted given path
    constructor
    · exact fun sound => Or.inr fun env mixes => sound env ((described env).2 (Or.inr mixes))
    · rintro (rfl | covered) env describes
      · exact Or.inr describes
      · rcases (described env).1 describes with (own | own) | mixes
        · exact Or.inl (left.describes_of_mixes rfl own)
        · exact Or.inr (right.describes_of_mixes rfl own)
        · exact covered env mixes

/-- Between states with the same path a merge invents nothing. -/
theorem describes_of_merge (meaning : Meaning setting.data) (first : setting.Occurs s)
    (second : setting.Occurs t) (wanted : setting.analysis.shouldMerge s t = .ok true)
    (given : (setting.analysis.merge s t).Yields before u after) (path : s.path = t.path)
    (describes : setting.Describes u env) :
    setting.Describes s env ∨ setting.Describes t env := by
  have left := formed_of_occurs meaning setting.obeys_trivial first
  have right := formed_of_occurs meaning setting.obeys_trivial second
  refine (inventsByMixing meaning s t u before after first second wanted given).2
    (Or.inr fun env mixes => ?_) env describes
  exact mixes.symm.imp (left.describes_of_mixes path.symm) (right.describes_of_mixes path)

/-- With either domain, merges invent environments by mixing only. -/
theorem inventsByMixing_standard (task : Task) (policy : WaitPolicy) (domain : PredicateDomain)
    (points : AbstractionPoints) (operator : MergeOperator) :
    Setting.InventsByMixing ⟨task, policy, domain, points, symbolicMemory operator⟩ ∧
      Setting.InventsByMixing ⟨task, policy, domain, points, knownValues operator⟩ :=
  ⟨inventsByMixing (.symbolicMemory operator), inventsByMixing (.knownValues operator)⟩

/-! ### An invented environment -/

/-- The two states after the first step of a program that branches there, the second one first,
and their merge. -/
def Setting.branches (setting : Setting σ) : Run (State σ × State σ × State σ) := do
  match ← setting.analysis.initial with
  | [start] =>
    match ← setting.analysis.successors start with
    | [first, second] =>
      let t ← setting.analysis.widen first []
      let s ← setting.analysis.widen second [t]
      return (s, t, ← setting.analysis.merge s t)
    | _ => throw .noInitialState
  | _ => throw .noInitialState

theorem occurs_of_branches
    (given : setting.branches.Yields before (s, t, u) after) : setting.Occurs s ∧ setting.Occurs t ∧
      ∃ c d, (setting.analysis.merge s t).Yields c u d := by
  unfold Setting.branches at given
  obtain ⟨starts, _, begun, given⟩ := Run.yields_bind.1 given
  split at given
  · rename_i start
    obtain ⟨states, _, followed, given⟩ := Run.yields_bind.1 given
    split at given
    · rename_i first second
      obtain ⟨_, _, widened, given⟩ := Run.yields_bind.1 given
      obtain ⟨_, _, widened', given⟩ := Run.yields_bind.1 given
      obtain ⟨_, _, merged, built⟩ := Run.yields_bind.1 given
      cases (Run.yields_pure.1 built).1
      have occurs : setting.Occurs start := .initial begun (by simp)
      exact ⟨.widened (.successor occurs followed (by simp)) widened',
        .widened (.successor occurs followed (by simp)) widened, _, _, merged⟩
    · cases Run.not_yields_throw given
  · cases Run.not_yields_throw given

/-- The only variable of the program below. -/
def counter : Variable := { name := "x", dataType := .int }

/-- The environments in which the variable has a certain value. -/
def counterEnvironment (n : Int) : Environment := fun v =>
  if v.base = counter then .int n else v.dataType.default

theorem typed_counterEnvironment (n : Int) : (counterEnvironment n).Typed := by
  intro v
  unfold counterEnvironment
  split
  · rename_i same
    rw [← Variable.dataType_base v, same]
    rfl
  · exact DataType.dataType_default v.dataType

/-- A program that sets a variable to zero, or goes on only if it is one. -/
def setOrAsk : Except Error Task := do
  let flow ← ControlFlow.ofTransitions [0] [(0, 1, 1), (0, 2, 1)]
  Task.create "t" [{ name := "A", scripts := [{ id := 0, event := .bootstrap, flow }] }]
    [⟨1, .assign counter (.const (.int 0))⟩,
     ⟨2, .assume (.binary .eq (.var counter) (.const (.int 1)))⟩]

/-- The first version of the variable has a value. -/
def versionIs (version : Nat) (n : Int) : Formula :=
  .ofLiteral ⟨.binary .eq (.var (counter.atVersion version)) (.const (.int n)), true⟩

theorem holds_versionIs {version : Nat} {n : Int} {assigned : Environment} :
    (versionIs version n).Holds assigned.lookup ↔ assigned (counter.atVersion version) = .int n := by
  have equation := Formula.ofExpression_equation (counter.atVersion version) (.const (.int n))
  exact holds_equation equation (Expression.eval_const _)

/-- The standard stack with path formulas that are merged. -/
def Setting.joining (task : Task) : Setting Formula :=
  ⟨task, .approximate, ⟨.enumeration 8, .boolean⟩, .always, symbolicMemory .join⟩

/-- The state that asks and the one that sets differ in their paths and versions, and their merge
has a path that leaves the later version open. -/
def differ (s t u : State Formula) : Bool :=
  s.path.implies (versionIs 0 1) && t.path.implies (versionIs 1 0)
    && (versionIs 0 1).implies u.path && u.summary.isTrue && u.ssa.block.isTrue
    && s.ssa.versions.version counter == 0 && t.ssa.versions.version counter == 1
    && u.ssa.versions.version counter == 1

/-- Whether the program is well formed and its first two states merge and differ as above. -/
def setOrAskDiffers : Bool :=
  match setOrAsk with
  | .ok task =>
    match (Setting.joining task).branches.outcome {} with
    | (.ok (s, t, u), _) =>
      ((Setting.joining task).analysis.shouldMerge s t).toOption == some true && differ s t u
    | _ => false
  | _ => false

theorem setOrAskDiffers_eq_true : setOrAskDiffers = true := by decide +kernel

/-- The variable is zero or one in the two states that differ so, but may be seven in the merge. -/
theorem describes_of_differ {setting : Setting Formula} {meaning : Meaning setting.data}
    {s t u : State Formula} {ok : Expression → Prop} {target : Variable → Prop}
    (asks : s.Formed meaning ok target) (sets : t.Formed meaning ok target)
    (merged : u.Formed meaning ok target) (differs : differ s t u = true) :
    setting.Describes u (counterEnvironment 7) ∧ ¬setting.Describes s (counterEnvironment 7) ∧
      ¬setting.Describes t (counterEnvironment 7) := by
  simp only [differ, Bool.and_eq_true, beq_iff_eq] at differs
  obtain ⟨⟨⟨⟨⟨⟨⟨one, zero⟩, open_⟩, summary⟩, block⟩, unwritten⟩, written⟩, last⟩ := differs
  have current : ∀ {p : State Formula} {n : Nat}, p.ssa.versions.version counter = n →
      p.ssa.versions.current counter = counter.atVersion n := by
    rintro p n rfl
    rfl
  have seven : counterEnvironment 7 counter = .int 7 := rfl
  refine ⟨?_, ?_, ?_⟩
  · let assigned : Environment := fun v =>
      if v = counter.atVersion 0 then .int 1 else counterEnvironment 7 v.base
    have typed : assigned.Typed := by
      intro v
      by_cases same : v = counter.atVersion 0
      · rw [show assigned v = .int 1 from if_pos same, same]
        rfl
      · rw [show assigned v = counterEnvironment 7 v.base from if_neg same]
        exact typed_counterEnvironment 7 v.base
    refine merged.describes_iff.2 ⟨assigned, typed, ?_, ?_, ?_, fun v unversioned => ?_⟩
    · exact Formula.holds_of_implies open_ (holds_versionIs.2 (if_pos rfl))
    · rw [Formula.isTrue_iff.1 summary]
      exact Formula.holds_top
    · rw [Formula.isTrue_iff.1 block]
      exact Formula.holds_top
    · have later : u.ssa.versions.current v ≠ counter.atVersion 0 := by
        intro same
        have bases := congrArg Variable.base same
        rw [VersionMap.base_current, Variable.base_atVersion] at bases
        have number := congrArg Variable.version same
        rw [VersionMap.version_current, VersionMap.version_congr bases, last] at number
        cases number
      rw [show assigned _ = counterEnvironment 7 v.base from if_neg later,
        Variable.base_of_unversioned unversioned]
  · rw [asks.describes_iff]
    rintro ⟨assigned, _, path, _, _, reads⟩
    have value := holds_versionIs.1 (Formula.holds_of_implies one path)
    have read := reads counter rfl
    rw [current unwritten, value, seven] at read
    cases read
  · rw [sets.describes_iff]
    rintro ⟨assigned, _, path, _, _, reads⟩
    have value := holds_versionIs.1 (Formula.holds_of_implies zero path)
    have read := reads counter rfl
    rw [current written, value, seven] at read
    cases read

/-- The first two states of the program invent an environment. -/
theorem merge_of_setOrAsk : ∃ (setting : Setting Formula) (s t u : State Formula)
    (before after : Context) (env : Environment), setOrAsk = .ok setting.task ∧
      setting = .joining setting.task ∧ setting.Occurs s ∧ setting.Occurs t ∧
      setting.analysis.shouldMerge s t = .ok true ∧
      (setting.analysis.merge s t).Yields before u after ∧ setting.Describes u env ∧
      ¬setting.Describes s env ∧ ¬setting.Describes t env := by
  have checked := setOrAskDiffers_eq_true
  unfold setOrAskDiffers at checked
  split at checked
  · rename_i task created
    split at checked
    · rename_i s t u after run
      obtain ⟨first, second, c, d, merged⟩ : (Setting.joining task).Occurs s ∧
          (Setting.joining task).Occurs t ∧
          ∃ c d, ((Setting.joining task).analysis.merge s t).Yields c u d := occurs_of_branches run
      rw [Bool.and_eq_true, beq_iff_eq] at checked
      have wanted : (Setting.joining task).analysis.shouldMerge s t = .ok true := by
        cases given : (Setting.joining task).analysis.shouldMerge s t with
        | error e => simp [given, Except.toOption] at checked
        | ok b => simpa [given, Except.toOption] using checked.1
      have formed := fun {p} => formed_of_occurs (s := p) (.symbolicMemory .join)
        (Setting.joining task).obeys_trivial
      obtain ⟨described, out⟩ : (Setting.joining task).Describes u (counterEnvironment 7) ∧
          ¬(Setting.joining task).Describes s (counterEnvironment 7) ∧
          ¬(Setting.joining task).Describes t (counterEnvironment 7) := describes_of_differ
        (formed first) (formed second) (formed (.merged first second wanted merged)) checked.2
      exact ⟨.joining task, s, t, u, c, d, _, created, rfl, first, second, wanted, merged,
        described, out⟩
    · cases checked
  · cases checked

/-- What the merge there describes beyond its states is a mixture of them. -/
theorem exists_mixture : ∃ (setting : Setting Formula) (s t u : State Formula)
    (before after : Context) (env : Environment), setOrAsk = .ok setting.task ∧
      setting.Occurs s ∧ setting.Occurs t ∧
      (setting.analysis.merge s t).Yields before u after ∧ u ≠ t ∧
      (s.Mixes u.ssa.versions t env ∨ t.Mixes u.ssa.versions s env) ∧
      ¬setting.Describes s env ∧ ¬setting.Describes t env := by
  obtain ⟨setting, s, t, u, c, d, env, created, same, first, second, wanted, merged, described,
    left, right⟩ := merge_of_setOrAsk
  rw [same] at first second wanted merged described left right
  have characterized := (inventsByMixing_standard setting.task .approximate
    ⟨.enumeration 8, .boolean⟩ .always .join).1 s t u c d first second wanted merged
  obtain ⟨changed, mixed⟩ :=
    not_or.1 fun fine => (characterized.2 fine env described).elim left right
  obtain ⟨other, found⟩ := Classical.not_forall.1 mixed
  obtain ⟨mixes, neither⟩ := Classical.not_imp.1 found
  obtain ⟨left, right⟩ := not_or.1 neither
  exact ⟨.joining setting.task, s, t, u, c, d, other, created, first, second, merged, changed,
    mixes, left, right⟩

/-- Merges do invent environments. -/
theorem not_describes_of_merge : ¬∀ (setting : Setting Formula) (s t u : State Formula)
    (before after : Context) (env : Environment), setting.data = symbolicMemory .join →
      setting.Occurs s → setting.Occurs t → setting.analysis.shouldMerge s t = .ok true →
      (setting.analysis.merge s t).Yields before u after → setting.Describes u env →
      setting.Describes s env ∨ setting.Describes t env := by
  intro sound
  obtain ⟨setting, s, t, u, c, d, env, _, same, first, second, wanted, merged, described, left,
    right⟩ := merge_of_setOrAsk
  have data : setting.data = symbolicMemory .join := by rw [same]; rfl
  exact (sound setting s t u c d env data first second wanted merged described).elim left right

end Verification

end EventCheck
