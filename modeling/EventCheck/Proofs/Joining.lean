import EventCheck.Proofs.Coverage
import EventCheck.Proofs.Merging
import EventCheck.Proofs.NormalForms

/-!
What joining two states in single assignment form makes of them. The versions of a state that
later ones are equated with have been written on the way to it, and the later ones have not. So
alignment neither fails nor contradicts the state, and what the join describes is described by one
of the states.
-/

namespace EventCheck

open SingleAssignment Verification

variable {σ : Type} {a : LabeledAnalysis σ} {meaning : Meaning a} {s t u : SsaState σ}
variable {ok : Expression → Prop} {env assigned : Environment}

/-! ### Aligned states -/

/-- The environments of a state are those that it describes at any later versions. -/
theorem SsaState.Fits.describes_iff_aligned {target : VersionMap} (fits : s.Fits meaning ok)
    (below : s.versions.Below target) : s.Describes meaning env ↔
      ∃ assigned : Environment, assigned.Typed ∧ s.Admits meaning assigned ∧
        Aligned target s.versions assigned ∧ target.Reads assigned env := by
  constructor
  · rintro ⟨assigned, typed, admits, reads⟩
    refine ⟨s.versions.extend assigned, VersionMap.typed_extend typed, ?_, ?_, ?_⟩
    · exact fits.admits_congr typed (fun _ => VersionMap.extend_of_covers) admits
    · exact aligned_extend below assigned
    · exact reads.extend below
  · rintro ⟨assigned, typed, admits, aligned, reads⟩
    exact ⟨assigned, typed, admits, reads_of_aligned aligned reads⟩

theorem SsaState.entails_of_arises (meaning : Meaning a) (arises : SsaState.Arises a s) :
    s.Entails meaning := by
  induction arises with
  | initial member =>
    obtain ⟨inner, only, all, _⟩ := meaning.initial
    rw [show a.withVersions.initial = a.initial.map fun inner => { inner } from rfl, only] at member
    obtain rfl := List.mem_singleton.1 member
    intro assigned _ _
    exact all assigned
  | step _ _ stepped member ih => exact ih.step stepped member
  | reset =>
    intro assigned _ _
    exact meaning.reset_admits _ assigned
  | join _ right joined first second =>
    exact first.join second (fits_of_arises meaning right) joined

namespace SingleAssignment

/-- A join describes the environments of both states and no others. -/
theorem describes_join_iff (meaning : Meaning a) (left : SsaState.Arises a s)
    (right : SsaState.Arises a t) (joined : a.withVersions.join s t = .ok u) :
    u.Describes meaning env ↔ s.Describes meaning env ∨ t.Describes meaning env := by
  have first := SsaState.entails_of_arises meaning left
  have second := SsaState.entails_of_arises meaning right
  have versions : u.versions = s.versions.join t.versions := (combine_eq_ok joined).1
  have belowLeft : s.versions.Below u.versions :=
    versions ▸ VersionMap.below_join_left s.versions t.versions
  have belowRight : t.versions.Below u.versions :=
    versions ▸ VersionMap.below_join_right s.versions t.versions
  rw [(fits_of_arises meaning left).describes_iff_aligned belowLeft,
    (fits_of_arises meaning right).describes_iff_aligned belowRight]
  constructor
  · rintro ⟨assigned, typed, admits, reads⟩
    rcases combine_block joined (fits_of_arises meaning right) second typed admits.2 with
      ⟨block, aligned⟩ | ⟨block, aligned⟩
    · exact Or.inl ⟨assigned, typed, first.admits typed block, aligned, reads⟩
    · exact Or.inr ⟨assigned, typed, second.admits typed block, aligned, reads⟩
  · rintro (⟨assigned, typed, admits, aligned, reads⟩ | ⟨assigned, typed, admits, aligned, reads⟩)
    · exact ⟨assigned, typed,
        combine_admits meaning joined meaning.join_admits (Or.inl ⟨admits, aligned⟩), reads⟩
    · exact ⟨assigned, typed,
        combine_admits meaning joined meaning.join_admits (Or.inr ⟨admits, aligned⟩), reads⟩

/-- The state brought up to later versions describes what it did before. -/
theorem describes_align_iff (meaning : Meaning a) (arises : SsaState.Arises a s)
    {target : VersionMap} (below : s.versions.Below target) {inner : σ} {block : Formula}
    (given : align a s target = .ok (some inner, block)) :
    ({ s with versions := target, block, inner } : SsaState σ).Describes meaning env ↔
      s.Describes meaning env := by
  have entails := SsaState.entails_of_arises meaning arises
  obtain ⟨blocks, data⟩ := align_eq_ok meaning below given
  rw [(fits_of_arises meaning arises).describes_iff_aligned below]
  constructor
  · rintro ⟨assigned, typed, admits, reads⟩
    obtain ⟨before, aligned⟩ := (blocks assigned).1 admits.2
    exact ⟨assigned, typed, entails.admits typed before, aligned, reads⟩
  · rintro ⟨assigned, typed, admits, aligned, reads⟩
    obtain ⟨i, found, inside⟩ := data assigned aligned admits.1
    obtain rfl := Option.some.inj found
    exact ⟨assigned, typed, ⟨inside, (blocks assigned).2 ⟨admits.2, aligned⟩⟩, reads⟩

end SingleAssignment

/-! ### Alignment does not fail -/

theorem Expression.WellTyped.rename {f : Variable → Variable}
    (types : ∀ v, (f v).dataType = v.dataType) {e : Expression} (wellTyped : e.WellTyped) :
    (e.rename f).WellTyped := by
  induction e with
  | var v => trivial
  | const c => trivial
  | not operand ih => exact ⟨ih wellTyped.1, (dataType_rename types operand).trans wellTyped.2⟩
  | binary op lhs rhs left right =>
    obtain ⟨first, second, one, two⟩ := wellTyped
    refine ⟨left first, right second, ?_, ?_⟩
    · rw [dataType_rename types, operandType_rename types, one]
    · rw [dataType_rename types, operandType_rename types, two]

theorem SingleAssignment.wellTyped_rename {versions : VersionMap} {declared : SortedSet Variable}
    {statement : Statement} (wellTyped : statement.WellTyped) :
    (rename versions declared statement).1.WellTyped := by
  have reads : ∀ {e : Expression}, e.WellTyped → (renameReads versions e).WellTyped :=
    fun inside => inside.rename fun v => VersionMap.dataType_current versions v
  have type : ∀ e : Expression, (renameReads versions e).dataType = e.dataType :=
    Expression.dataType_rename fun v => VersionMap.dataType_current versions v
  cases statement with
  | declare _ | signalFailure _ | nop => trivial
  | assign v e => exact ⟨reads wellTyped.1, (type e).trans wellTyped.2⟩
  | assume e | waitUntil e => exact ⟨reads wellTyped.1, (type e).trans wellTyped.2⟩
  | broadcast e | broadcastAndWait e | waitSecs e => exact reads wellTyped
  | call method arguments result =>
    intro e member
    obtain ⟨argument, inside, rfl⟩ := List.mem_map.1 member
    exact reads (wellTyped argument inside)
  | «return» value =>
    intro e same
    obtain ⟨returned, rfl, rfl⟩ := Option.map_eq_some_iff.1 same
    exact reads (wellTyped returned rfl)

/-- The equation that alignment assumes. -/
def versionEquation (v : Variable) (m n : Nat) : Expression :=
  .binary .eq (.var (v.atVersion m)) (.var (v.atVersion n))

/-- States of an analysis of the data that can follow every equation with a version that they do not
speak of. -/
structure TakesEquations (meaning : Meaning a) (sound : σ → Prop) : Prop where
  initial : ∀ i ∈ a.initial, sound i
  step : ∀ {i j operation next}, operation.statement.WellTyped → a.step i operation = .ok next →
    sound i → j ∈ next → sound j
  reset : ∀ i, sound (a.resetPath i)
  join : ∀ {i j}, sound i → sound j → ∃ k, a.join i j = .ok k ∧ sound k
  equation : ∀ {i p v m n}, sound i → meaning.fits (Expression.Over p) i → ¬p (v.atVersion m) →
    m ≠ n → ∃ j, a.step i (.synthesized (.assume (versionEquation v m n))) = .ok [j]

namespace TakesEquations

variable {sound : σ → Prop} {versions target : VersionMap}

theorem alignVariable_eq {i j : σ} (block : Formula) {v : Variable} {n : Nat}
    (different : versions.version v ≠ n) (stepped : a.step i (.synthesized
      (.assume (versionEquation v n (versions.version v)))) = .ok [j]) :
    ∃ next, alignVariable a versions ([i], block) (v, n) = .ok ([j], next) := by
  refine ⟨block.conjunction (.ofLiteral ⟨versionEquation v n (versions.version v), true⟩), ?_⟩
  have checked : Expression.binaryChecked .eq (.var (v.atVersion n))
      (.var (v.atVersion (versions.version v))) =
        .ok (versionEquation v n (versions.version v)) :=
    Expression.binaryChecked_eq_ok_iff.2 ⟨rfl, rfl, rfl⟩
  have followed : [i].mapM (fun s => a.step s (.synthesized
      (.assume (versionEquation v n (versions.version v))))) = .ok [[j]] :=
    mapM_eq_ok_iff.2 (.cons stepped .nil)
  unfold alignVariable
  dsimp only
  rw [if_neg different]
  refine bind_eq_ok_iff.2 ⟨_, checked, bind_eq_ok_iff.2 ⟨_, Formula.ofExpression_equation _ _, ?_⟩⟩
  exact bind_eq_ok_iff.2 ⟨_, followed, rfl⟩

/-- One entry after the other, the state inside follows the equation of its versions. It never
speaks of the later version of an entry that is still to come. -/
theorem exists_foldlM (takes : TakesEquations meaning sound) {entries : List (Variable × Nat)}
    (distinct : entries.Pairwise fun p q => p.1 ≠ q.1)
    (unversioned : ∀ entry ∈ entries, entry.1.version = none)
    (later : ∀ entry ∈ entries, versions.version entry.1 ≤ entry.2) {i : σ} (block : Formula)
    (holds : sound i) (fits : meaning.fits (Expression.Over fun w =>
      versions.Covers w ∨ ∀ entry ∈ entries, w.base ≠ entry.1) i) :
    ∃ j next, entries.foldlM (alignVariable a versions) ([i], block) = .ok ([j], next) ∧
      sound j := by
  induction entries generalizing i block with
  | nil => exact ⟨i, block, rfl, holds⟩
  | cons entry rest ih =>
    obtain ⟨v, n⟩ := entry
    obtain ⟨others, distinct⟩ := List.pairwise_cons.1 distinct
    have ih := @ih distinct (fun entry member => unversioned entry (by simp [member]))
      (fun entry member => later entry (by simp [member]))
    rw [List.foldlM_cons]
    by_cases same : versions.version v = n
    · have skipped : alignVariable a versions ([i], block) (v, n) = .ok ([i], block) := by
        unfold alignVariable
        dsimp only
        rw [if_pos same]
        rfl
      rw [skipped]
      refine ih block holds (meaning.fits_imp ?_ fits)
      intro e within w occurs
      rcases within w occurs with covers | outside
      · exact Or.inl covers
      · exact Or.inr fun entry member => outside entry (by simp [member])
    · have base : v.base = v := Variable.base_of_unversioned (unversioned (v, n) (by simp))
      -- The version is later than all that the state has written, and its entry still to come.
      have fresh : ¬(versions.Covers (v.atVersion n) ∨
          ∀ entry ∈ (v, n) :: rest, (v.atVersion n).base ≠ entry.1) := by
        rintro (⟨k, number, bound⟩ | outside)
        · have equal : n = k := Option.some.inj number
          have old : versions.version (v.atVersion n) = versions.version v :=
            VersionMap.version_congr rfl
          have := later (v, n) (by simp)
          dsimp only at this
          omega
        · exact outside (v, n) (by simp) base
      obtain ⟨j, stepped⟩ := takes.equation holds fits fresh (Ne.symm same)
      obtain ⟨next, first⟩ := alignVariable_eq block same stepped
      rw [first]
      have wellTyped : (Statement.assume
          (versionEquation v n (versions.version v))).WellTyped :=
        ⟨⟨trivial, trivial, rfl, rfl⟩, rfl⟩
      refine ih next (takes.step wellTyped stepped holds (by simp)) ?_
      refine meaning.step_fits (AtomRule.over _) rfl ?_ stepped (meaning.fits_imp ?_ fits) j
        List.mem_cons_self
      · intro e same w occurs
        obtain rfl := Option.some.inj same
        simp only [versionEquation, Expression.variables, SortedSet.mem_union,
          SortedSet.mem_singleton] at occurs
        rcases occurs with rfl | rfl
        · right
          intro entry member equal
          exact others entry member (base.symm.trans equal)
        · exact Or.inl ⟨_, rfl, Nat.le_of_eq (VersionMap.version_congr rfl)⟩
      · intro e within w occurs
        rcases within w occurs with covers | outside
        · exact Or.inl covers
        · exact Or.inr fun entry member => outside entry (by simp [member])

theorem exists_align (takes : TakesEquations meaning sound) (fits : s.Fits meaning ok)
    (holds : sound s.inner) (below : s.versions.Below target) :
    ∃ i block, align a s target = .ok (some i, block) ∧ sound i := by
  have distinct : target.versions.toList.Pairwise fun p q => p.1 ≠ q.1 := by
    refine target.versions.increasing.imp ?_
    intro p q less same
    rw [same] at less
    simp [Std.ReflCmp.compare_self] at less
  have later : ∀ entry ∈ target.versions.toList, s.versions.version entry.1 ≤ entry.2 := by
    intro entry member
    have number : target.version entry.1 = entry.2 := VersionMap.version_of_mem member
    exact number ▸ below entry.1
  obtain ⟨i, block, folded, inside⟩ := takes.exists_foldlM distinct
    target.unversioned later s.block holds
    (meaning.fits_imp (fun _ bounded w occurs => Or.inl (bounded.2 w occurs)) fits.inner)
  exact ⟨i, block, bind_eq_ok_iff.2 ⟨_, folded, rfl⟩, inside⟩

theorem of_arises (takes : TakesEquations meaning sound) (arises : SsaState.Arises a s) :
    sound s.inner := by
  induction arises with
  | initial member =>
    obtain ⟨i, inside, rfl⟩ := List.mem_map.1 member
    exact takes.initial i inside
  | step _ wellTyped stepped member ih =>
    obtain ⟨g, _, ⟨_, rfl⟩ | ⟨inner, followed, rfl⟩⟩ := step_eq_ok stepped
    · simp at member
    · obtain ⟨i, inside, rfl⟩ := List.mem_map.1 member
      exact takes.step (wellTyped_rename wellTyped) followed ih inside
  | reset => exact takes.reset _
  | @join s t u left right joined first second =>
    obtain ⟨_, _, _, _, _, alignedLeft, alignedRight, form⟩ := combine_eq_ok joined
    obtain ⟨i, _, one, soundLeft⟩ := takes.exists_align (fits_of_arises meaning left) first
      (VersionMap.below_join_left s.versions t.versions)
    obtain ⟨j, _, two, soundRight⟩ := takes.exists_align (fits_of_arises meaning right) second
      (VersionMap.below_join_right s.versions t.versions)
    obtain ⟨rfl, _⟩ := Prod.mk.inj (Except.ok.inj (alignedLeft.symm.trans one))
    obtain ⟨rfl, _⟩ := Prod.mk.inj (Except.ok.inj (alignedRight.symm.trans two))
    rcases form with ⟨_, _, same, same', combined, _⟩ | ⟨_, none, _⟩ | ⟨none, _⟩ | ⟨none, _⟩
    · cases same
      cases same'
      obtain ⟨k, met, inside⟩ := takes.join soundLeft soundRight
      obtain rfl := Except.ok.inj (met.symm.trans combined)
      exact inside
    · cases none
    · cases none
    · cases none

theorem exists_join (takes : TakesEquations meaning sound) (left : SsaState.Arises a s)
    (right : SsaState.Arises a t) : ∃ u, a.withVersions.join s t = .ok u := by
  obtain ⟨i, leftBlock, one, soundLeft⟩ := takes.exists_align (fits_of_arises meaning left)
    (takes.of_arises left) (VersionMap.below_join_left s.versions t.versions)
  obtain ⟨j, rightBlock, two, soundRight⟩ := takes.exists_align (fits_of_arises meaning right)
    (takes.of_arises right) (VersionMap.below_join_right s.versions t.versions)
  obtain ⟨k, met, _⟩ := takes.join soundLeft soundRight
  exact ⟨_, bind_eq_ok_iff.2 ⟨_, one, bind_eq_ok_iff.2 ⟨_, two, bind_eq_ok_iff.2 ⟨k, met, rfl⟩⟩⟩⟩

end TakesEquations

/-! ### Path formulas -/

namespace Formula

variable {f g : Formula}

theorem eq_bottom_of_implies (implied : f.implies bottom = true) : f = bottom :=
  implies_antisymm implied (bottom_implies f)

theorem exists_mem_of_ne_bottom (possible : f ≠ bottom) : ∃ c, c ∈ f.cubes := by
  apply Classical.byContradiction
  intro none
  apply possible
  apply eq_bottom_of_implies
  rw [implies_iff]
  intro c member
  exact absurd ⟨c, member⟩ none

theorem disjunction_ne_bottom (possible : f ≠ bottom) : f.disjunction g ≠ bottom := by
  intro same
  apply possible
  apply eq_bottom_of_implies
  have implied : (f.disjunction g).implies bottom = true := by
    rw [same]
    exact implies_refl bottom
  exact (disjunction_implies_iff.1 implied).1

theorem top_ne_bottom : (top : Formula) ≠ bottom := by
  intro same
  exact absurd (congrArg isTrue same) (by decide)

/-- A literal that the formula has no negation of contradicts no cube. -/
theorem conjunction_ofLiteral_ne_bottom {l : Literal} (possible : f ≠ bottom)
    (fresh : ∀ c ∈ f.cubes, ∀ m ∈ c, m.atom ≠ l.atom) :
    f.conjunction (ofLiteral l) ≠ bottom := by
  intro empty
  obtain ⟨c, member⟩ := exists_mem_of_ne_bottom possible
  have consistent : (c ∪ SortedSet.singleton l).Consistent := by
    rintro atom ⟨negative, positive⟩
    rw [SortedSet.mem_union, SortedSet.mem_singleton] at negative positive
    rcases negative with negative | rfl
    · rcases positive with positive | rfl
      · exact f.consistent c member atom ⟨negative, positive⟩
      · exact fresh c member _ negative rfl
    · rcases positive with positive | same
      · exact fresh c member _ positive rfl
      · cases same
  obtain ⟨d, kept, _⟩ := exists_mem_normalize
    (mem_product.2 ⟨c, member, _, mem_ofLiteral l, rfl⟩) consistent
  have inside : d ∈ (f.conjunction (ofLiteral l)).cubes := kept
  rw [empty] at inside
  simp [bottom] at inside

end Formula

theorem SymbolicMemory.takesEquations (operator : MergeOperator) :
    TakesEquations (.symbolicMemory operator) (· ≠ .bottom) where
  initial f member := by
    rw [List.mem_singleton.1 member]
    exact Formula.top_ne_bottom
  step {f g operation next} _ stepped possible member := by
    obtain ⟨c, _, ⟨_, rfl⟩ | ⟨e, h, _, _, rfl⟩⟩ := step_eq_ok stepped
    · rw [List.mem_singleton.1 member]
      exact possible
    · split at member
      · simp at member
      · rename_i consistent
        rw [List.mem_singleton.1 member]
        exact fun same => consistent (Formula.isFalse_iff.2 same)
  reset _ := Formula.top_ne_bottom
  join possible _ := ⟨_, rfl, Formula.disjunction_ne_bottom possible⟩
  equation {f p v m n} possible fits fresh _ := by
    have remains : f.conjunction (.ofLiteral ⟨versionEquation v m n, true⟩) ≠ .bottom := by
      apply Formula.conjunction_ofLiteral_ne_bottom possible
      intro c member l inside same
      apply fresh
      apply (fits c member l inside).1
      rw [same]
      simp [versionEquation, Expression.variables]
    have consistent : ¬(f.conjunction (.ofLiteral ⟨versionEquation v m n, true⟩)).isFalse = true :=
      fun empty => remains (Formula.isFalse_iff.1 empty)
    refine ⟨f.conjunction (.ofLiteral ⟨versionEquation v m n, true⟩), ?_⟩
    refine bind_eq_ok_iff.2 ⟨some (versionEquation v m n), rfl, ?_⟩
    refine bind_eq_ok_iff.2 ⟨_, Formula.ofExpression_equation _ _, ?_⟩
    exact congrArg Except.ok (if_neg consistent)

/-! ### Known values -/

/-- Values are known, each one of the type of its variable. -/
def ValueMap.WellTyped : ValueMap → Prop
  | bottom => False
  | values known => ∀ v c, known.get? v = some c → c.dataType = v.dataType

namespace ValueMap

variable {m : ValueMap} {v : Variable}

theorem WellTyped.value? (wellTyped : m.WellTyped) {c : Constant}
    (known : m.value? v = some c) : c.dataType = v.dataType := by
  cases m with
  | bottom => cases wellTyped
  | values entries =>
    rw [value?_values] at known
    exact wellTyped v c known

theorem WellTyped.set_value (wellTyped : m.WellTyped) {c : Constant}
    (type : c.dataType = v.dataType) : (m.set v (.value c)).WellTyped := by
  cases m with
  | bottom => cases wellTyped
  | values entries =>
    intro w d found
    rw [SortedMap.get?_insert] at found
    by_cases same : w = v
    · rw [if_pos same, Option.some.injEq] at found
      rw [← found, same, type]
    · rw [if_neg same] at found
      exact wellTyped w d found

theorem WellTyped.set_top (wellTyped : m.WellTyped) (v : Variable) :
    (m.set v .top).WellTyped := by
  cases m with
  | bottom => cases wellTyped
  | values entries =>
    intro w d found
    rw [SortedMap.get?_erase] at found
    by_cases same : w = v
    · simp [same] at found
    · rw [if_neg same] at found
      exact wellTyped w d found

theorem wellTyped_top : top.WellTyped := by
  intro v c found
  simp at found

end ValueMap

namespace KnownValues

variable {m middle next : ValueMap} {e side other : Expression} {v : Variable}

theorem dataType_of_evaluate (wellTyped : m.WellTyped) {c : Constant}
    (evaluated : evaluate m e = .ok (.value c)) : c.dataType = e.dataType := by
  rcases evaluate_eq_ok evaluated with ⟨d, value, same⟩ | impossible
  · cases same
    exact Expression.dataType_of_eval (fun _ _ known => wellTyped.value? known) value
  · cases impossible

theorem wellTyped_refine (known : m.WellTyped) (wellTyped : middle.WellTyped)
    (types : other.dataType = side.dataType) (refined : refine m middle side other = .ok next) :
    next.WellTyped := by
  rcases refine_eq_ok refined with rfl | ⟨v, c, rfl, evaluated, rfl⟩
  · exact wellTyped
  · exact wellTyped.set_value ((dataType_of_evaluate known evaluated).trans types)

theorem wellTyped_assume {nexts : List ValueMap} (wellTyped : m.WellTyped) (typed : e.WellTyped)
    (assumed : assume m e = .ok nexts) : ∀ n ∈ nexts, n.WellTyped := by
  intro n member
  rcases assume_eq_ok assumed with ⟨_, rfl⟩ | rfl | ⟨lhs, rhs, middle, last, rfl, first, second,
    rfl⟩
  · simp at member
  · rw [List.mem_singleton.1 member]
    exact wellTyped
  · obtain ⟨_, _, _, types⟩ := typed
    rw [List.mem_singleton.1 member]
    exact wellTyped_refine wellTyped (wellTyped_refine wellTyped wellTyped types first) types.symm
      second

theorem wellTyped_step {operation : LabeledOperation} {nexts : List ValueMap}
    (typed : operation.statement.WellTyped) (stepped : step m operation = .ok nexts)
    (wellTyped : m.WellTyped) : ∀ n ∈ nexts, n.WellTyped := by
  intro n member
  cases m with
  | bottom => cases wellTyped
  | values known =>
    simp only [step, ValueMap.isBottom, Bool.false_eq_true, if_false] at stepped
    cases statement : operation.statement with
    | declare v =>
      simp only [statement, Except.ok.injEq] at stepped
      rw [← stepped] at member
      rw [List.mem_singleton.1 member]
      exact wellTyped.set_value (DataType.dataType_default v.dataType)
    | assign v e =>
      simp only [statement] at stepped typed
      obtain ⟨result, evaluated, rest⟩ := bind_eq_ok_iff.1 stepped
      rw [← pure_eq_ok_iff.1 rest] at member
      rw [List.mem_singleton.1 member]
      rcases evaluate_eq_ok evaluated with ⟨c, _, rfl⟩ | rfl
      · exact wellTyped.set_value ((dataType_of_evaluate wellTyped evaluated).trans typed.2)
      · exact wellTyped.set_top v
    | assume condition =>
      simp only [statement] at stepped typed
      exact wellTyped_assume wellTyped typed.1 stepped n member
    | call _ _ _ | «return» _ | broadcast _ | broadcastAndWait _ | waitUntil _ | waitSecs _
    | signalFailure _ | nop =>
      simp only [statement, Except.ok.injEq] at stepped
      rw [← stepped] at member
      rw [List.mem_singleton.1 member]
      exact wellTyped

theorem evaluate_var (m : ValueMap) (v : Variable) :
    (∃ c, m.value? v = some c ∧ evaluate m (.var v) = .ok (.value c)) ∨
      m.value? v = none ∧ evaluate m (.var v) = .ok .top := by
  cases known : m.value? v with
  | none =>
    right
    simp [evaluate, known]
  | some c =>
    left
    exact ⟨c, rfl, by simp [evaluate, known]⟩

theorem exists_refine_var (m middle : ValueMap) (side : Expression) (v : Variable) :
    ∃ next, refine m middle side (.var v) = .ok next := by
  cases side with
  | var w =>
    rcases evaluate_var m v with ⟨c, _, evaluated⟩ | ⟨_, evaluated⟩
    · exact ⟨_, bind_eq_ok_iff.2 ⟨_, evaluated, rfl⟩⟩
    · exact ⟨_, bind_eq_ok_iff.2 ⟨_, evaluated, rfl⟩⟩
  | const _ | not _ | binary _ _ _ => exact ⟨middle, rfl⟩

/-- An equation of variables one of which is not known is followed. -/
theorem exists_assume_equation {v w : Variable} (unknown : m.value? v = none) :
    ∃ next, assume m (.binary .eq (.var v) (.var w)) = .ok [next] := by
  have undecided : evaluate m (.binary .eq (.var v) (.var w)) = .ok .top := by
    have value : (Expression.binary .eq (.var v) (.var w)).eval m.value? = .ok none := by
      refine Expression.eval_binary_eq_ok_iff.2 ⟨_, Expression.eval_var v, _,
        Expression.eval_var w, ?_⟩
      rw [unknown]
      rfl
    simp [evaluate, value]
  obtain ⟨middle, first⟩ := exists_refine_var m m (.var v) w
  obtain ⟨last, second⟩ := exists_refine_var m middle (.var w) v
  refine ⟨last, bind_eq_ok_iff.2 ⟨_, undecided, ?_⟩⟩
  exact bind_eq_ok_iff.2 ⟨_, first, bind_eq_ok_iff.2 ⟨_, second, rfl⟩⟩

theorem takesEquations (operator : MergeOperator) :
    TakesEquations (.knownValues operator) ValueMap.WellTyped where
  initial m member := by
    rw [List.mem_singleton.1 member]
    exact ValueMap.wellTyped_top
  step typed stepped wellTyped member := wellTyped_step typed stepped wellTyped _ member
  reset _ := ValueMap.wellTyped_top
  join {m n} left right := by
    refine ⟨m.join n, rfl, ?_⟩
    cases m with
    | bottom => cases left
    | values known =>
      cases n with
      | bottom => cases right
      | values other =>
        intro v c found
        exact left v c (SortedMap.get?_filter.1 found).1
  equation {m p v k n} wellTyped fits fresh _ := by
    cases m with
    | bottom => cases wellTyped
    | values known =>
      apply exists_assume_equation
      rw [ValueMap.value?_values]
      cases found : known.get? (v.atVersion k) with
      | none => rfl
      | some c =>
        have spoken := fits _ c found (wellTyped _ c found)
        exact absurd (spoken _ (by simp [Expression.variables])) fresh

end KnownValues

/-! ### Exact joins -/

/-- The state can be brought up to the versions, and describes the same environments there. -/
def SsaState.AlignsTo (a : LabeledAnalysis σ) (s : SsaState σ) (target : VersionMap) : Prop :=
  ∃ inner block, align a s target = .ok (some inner, block) ∧ ∀ env,
    ({ s with versions := target, block, inner } : SsaState σ).Allows a env ↔ s.Allows a env

/-- Joins of states that arise exist, after both have been brought up to the later versions, and
describe the environments of both states and no others. -/
def JoinsExactly (a : LabeledAnalysis σ) : Prop :=
  ∀ s t, SsaState.Arises a s → SsaState.Arises a t →
    s.AlignsTo a (s.versions.join t.versions) ∧ t.AlignsTo a (s.versions.join t.versions) ∧
      ∃ u, a.withVersions.join s t = .ok u ∧
        ∀ env, u.Allows a env ↔ s.Allows a env ∨ t.Allows a env

theorem TakesEquations.joinsExactly {sound : σ → Prop} (takes : TakesEquations meaning sound) :
    JoinsExactly a := by
  intro s t left right
  have aligns : ∀ {p : SsaState σ} {target : VersionMap}, SsaState.Arises a p →
      p.versions.Below target → p.AlignsTo a target := by
    intro p target arises below
    obtain ⟨i, block, given, _⟩ :=
      takes.exists_align (fits_of_arises meaning arises) (takes.of_arises arises) below
    refine ⟨i, block, given, ?_⟩
    intro env
    rw [SsaState.allows_iff meaning, SsaState.allows_iff meaning]
    exact describes_align_iff meaning arises below given
  refine ⟨aligns left (VersionMap.below_join_left _ _),
    aligns right (VersionMap.below_join_right _ _), ?_⟩
  obtain ⟨u, joined⟩ := takes.exists_join left right
  refine ⟨u, joined, ?_⟩
  intro env
  simp only [SsaState.allows_iff meaning]
  exact describes_join_iff meaning left right joined

/-- With either domain inside, joins are exact. -/
theorem joinsExactly_standard (operator : MergeOperator) :
    JoinsExactly (symbolicMemory operator) ∧ JoinsExactly (knownValues operator) :=
  ⟨(SymbolicMemory.takesEquations operator).joinsExactly,
    (KnownValues.takesEquations operator).joinsExactly⟩

/-- A state whose block gives the current version of the variable a value allows that value. -/
theorem SsaState.allows_counterEnvironment_iff (meaning : Meaning a)
    (arises : SsaState.Arises a s) {n : Int}
    (block : s.block = Formula.top.conjunction (versionIs (s.versions.version counter) n))
    (m : Int) : s.Allows a (counterEnvironment m) ↔ m = n := by
  have holds : ∀ assigned : Environment, s.block.Holds assigned.lookup ↔
      assigned (s.versions.current counter) = .int n := by
    intro assigned
    rw [block, Formula.holds_conjunction, and_iff_right Formula.holds_top]
    exact holds_versionIs
  rw [SsaState.allows_iff meaning]
  constructor
  · rintro ⟨assigned, _, ⟨_, inside⟩, reads⟩
    have read := reads counter rfl
    rw [(holds assigned).1 inside] at read
    exact Constant.int.inj read
  · rintro rfl
    have typed := (typed_counterEnvironment m).unversioned
    refine ⟨_, typed, ?_, VersionMap.reads_unversioned s.versions _⟩
    apply (entails_of_arises meaning arises).admits typed
    exact (holds _).2 rfl

/-- The values after the variable has been set to zero. -/
def stateAfterSet : SsaState ValueMap where
  versions := (∅ : VersionMap).bump counter
  block := Formula.top.conjunction (versionIs 1 0)
  inner := ValueMap.top.set (counter.atVersion 1) (.value (.int 0))

/-- The values after the variable has been asked to be one. -/
def stateAfterAsk : SsaState ValueMap where
  block := Formula.top.conjunction (versionIs 0 1)
  inner := ValueMap.top.set (counter.atVersion 0) (.value (.int 1))

theorem arises_stateAfterSet : SsaState.Arises (knownValues .join) stateAfterSet := by
  have initial : SsaState.Arises (knownValues .join) { inner := .top } := .initial (by
    simp [knownValues, LabeledAnalysis.withVersions])
  have wellTyped : (Statement.assign counter (.const (.int 0))).WellTyped := ⟨trivial, rfl⟩
  have stepped : (knownValues .join).withVersions.step { inner := .top }
      (.synthesized (.assign counter (.const (.int 0)))) = .ok [stateAfterSet] := rfl
  exact initial.step wellTyped stepped (by simp)

theorem arises_stateAfterAsk : SsaState.Arises (knownValues .join) stateAfterAsk := by
  have initial : SsaState.Arises (knownValues .join) { inner := .top } := .initial (by
    simp [knownValues, LabeledAnalysis.withVersions])
  have wellTyped : (Statement.assume
      (.binary .eq (.var counter) (.const (.int 1)))).WellTyped :=
    ⟨⟨trivial, trivial, rfl, rfl⟩, rfl⟩
  have stepped : (knownValues .join).withVersions.step { inner := .top }
      (.synthesized (.assume (.binary .eq (.var counter) (.const (.int 1))))) =
        .ok [stateAfterAsk] := rfl
  exact initial.step wellTyped stepped (by simp)

/-- The two states know values of different versions. Their join knows neither value, and allows
the two all the same and no others. -/
theorem exists_join_of_set_and_ask : ∃ u,
    SsaState.Arises (knownValues .join) stateAfterSet ∧
      SsaState.Arises (knownValues .join) stateAfterAsk ∧
      (knownValues .join).withVersions.join stateAfterSet stateAfterAsk = .ok u ∧
      u.inner = .top ∧
      ∀ n, u.Allows (knownValues .join) (counterEnvironment n) ↔ n = 0 ∨ n = 1 := by
  have left := arises_stateAfterSet
  have right := arises_stateAfterAsk
  obtain ⟨_, _, u, joined, allows⟩ := (joinsExactly_standard .join).2 _ _ left right
  have inner : ((knownValues .join).withVersions.join stateAfterSet stateAfterAsk).map
      SsaState.inner = .ok .top := by
    decide +kernel
  refine ⟨u, left, right, joined, ?_, ?_⟩
  · rw [joined] at inner
    exact Except.ok.inj inner
  · intro n
    rw [allows, SsaState.allows_counterEnvironment_iff (.knownValues .join) left rfl,
      SsaState.allows_counterEnvironment_iff (.knownValues .join) right rfl]

end EventCheck
