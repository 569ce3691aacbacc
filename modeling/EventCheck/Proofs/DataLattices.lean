import EventCheck.Proofs.Lattices
import EventCheck.Proofs.SingleAssignment

/-!
The lattices of data. A value map is the flat lattice of constants at each variable, where all maps
that contradict themselves somewhere are one; a version map is a number at each variable. So all
three orders are decided variable by variable, and joins and meets are bounds in them.
-/

namespace EventCheck

theorem SortedMap.get?_filterMap {κ β γ : Type} [Ord κ] [Std.TransOrd κ] [Std.LawfulEqOrd κ]
    {m : SortedMap κ β} {f : κ → β → Option γ} {k : κ} :
    (m.filterMap f).get? k = (m.get? k).bind (f k) := by
  refine Option.ext fun c => ?_
  rw [get?_eq_some_iff, Option.bind_eq_some_iff]
  simp only [filterMap, List.mem_filterMap, Option.map_eq_some_iff, Prod.mk.injEq,
    get?_eq_some_iff]
  constructor
  · rintro ⟨⟨l, b⟩, member, _, value, rfl, rfl⟩
    exact ⟨b, member, value⟩
  · rintro ⟨b, member, value⟩
    exact ⟨(k, b), member, c, value, rfl, rfl⟩

/-! ### One value -/

namespace Flat

variable {α : Type} [DecidableEq α] {a b c : Flat α}

theorem included_iff : included a b = true ↔ a = bottom ∨ b = top ∨ a = b := by
  cases a <;> cases b <;> simp [included, compare?]
  split <;> simp_all

theorem included_refl : included a a = true := included_iff.2 (Or.inr (Or.inr rfl))

theorem bottom_included : included bottom a = true := included_iff.2 (Or.inl rfl)

theorem included_top : included a top = true := included_iff.2 (Or.inr (Or.inl rfl))

theorem included_trans (first : included a b = true) (second : included b c = true) :
    included a c = true := by
  rw [included_iff] at *
  grind

theorem included_antisymm (first : included a b = true) (second : included b a = true) :
    a = b := by
  rw [included_iff] at *
  grind

theorem join_value (x y : α) : join (value x) (value y) = if x = y then value y else top := by
  by_cases same : x = y <;> simp [join, compare?, same]

theorem meet_value (x y : α) : meet (value x) (value y) = if x = y then value x else bottom := by
  by_cases same : x = y <;> simp [meet, compare?, same]

@[simp] theorem bottom_join (a : Flat α) : join bottom a = a := by cases a <;> rfl

@[simp] theorem join_bottom (a : Flat α) : join a bottom = a := by cases a <;> rfl

@[simp] theorem top_join (a : Flat α) : join top a = top := by cases a <;> rfl

@[simp] theorem join_top (a : Flat α) : join a top = top := by cases a <;> rfl

@[simp] theorem bottom_meet (a : Flat α) : meet bottom a = bottom := by cases a <;> rfl

@[simp] theorem meet_bottom (a : Flat α) : meet a bottom = bottom := by cases a <;> rfl

@[simp] theorem top_meet (a : Flat α) : meet top a = a := by cases a <;> rfl

@[simp] theorem meet_top (a : Flat α) : meet a top = a := by cases a <;> rfl

theorem join_included : included (join a b) c = true ↔
    included a c = true ∧ included b c = true := by
  cases a with
  | bottom => rw [bottom_join, and_iff_right bottom_included]
  | top => rw [top_join, and_iff_left_of_imp (included_trans included_top)]
  | value x =>
    cases b with
    | bottom => rw [join_bottom, and_iff_left bottom_included]
    | top => rw [join_top, and_iff_right_of_imp (included_trans included_top)]
    | value y =>
      rw [join_value]
      split_ifs with same
      · rw [same, and_self]
      -- only the top is above two values
      · simp only [included_iff]
        grind

theorem included_meet : included c (meet a b) = true ↔
    included c a = true ∧ included c b = true := by
  cases a with
  | top => rw [top_meet, and_iff_right included_top]
  | bottom =>
    rw [bottom_meet, and_iff_left_of_imp fun below => included_trans below bottom_included]
  | value x =>
    cases b with
    | top => rw [meet_top, and_iff_left included_top]
    | bottom =>
      rw [meet_bottom, and_iff_right_of_imp fun below => included_trans below bottom_included]
    | value y =>
      rw [meet_value]
      split_ifs with same
      · rw [same, and_self]
      -- only the bottom is below two values
      · simp only [included_iff]
        grind

theorem below_iff : lattice.Below a b ↔ included a b = true := by simp [Lattice.Below, lattice]

theorem lawful_lattice : (lattice : Lattice (Flat α)).Lawful where
  decides _ _ := ⟨_, rfl⟩
  refl _ := below_iff.2 included_refl
  trans _ _ _ first second := below_iff.2 (included_trans (below_iff.1 first) (below_iff.1 second))
  antisymm _ _ first second := included_antisymm (below_iff.1 first) (below_iff.1 second)
  join_below _ _ _ := below_iff.trans (join_included.trans (and_congr below_iff below_iff).symm)
  below_meet _ _ _ := below_iff.trans (included_meet.trans (and_congr below_iff below_iff).symm)
  bottom_below _ := below_iff.2 bottom_included
  below_top := by
    rintro _ ⟨⟩ _
    exact below_iff.2 included_top

end Flat

/-! ### A value for each variable -/

namespace ValueMap

variable {m n o : ValueMap} {v w : Variable} {c : Constant}

theorem get_eq_bottom_iff : m.get v = .bottom ↔ m = bottom := by
  cases m with
  | bottom => simp [get]
  | values known => cases found : known.get? v <;> simp [get, found]

/-- Maps that know the same of each variable are equal. -/
theorem eq_of_get (same : ∀ v, m.get v = n.get v) : m = n := by
  cases m with
  | bottom => exact (get_eq_bottom_iff.1 (same default).symm).symm
  | values k =>
    cases n with
    | bottom => exact get_eq_bottom_iff.1 (same default)
    | values l =>
      refine congrArg values (SortedMap.ext_get? fun v => ?_)
      rw [← value?_values k, ← value?_values l, value?, value?, same]

theorem included_iff : m.included n = true ↔ ∀ v, (m.get v).included (n.get v) = true := by
  simp only [Flat.included_iff]
  cases m with
  | bottom => simp [included, get]
  | values k =>
    cases n with
    | bottom =>
      refine iff_of_false Bool.false_ne_true fun all => ?_
      have nothing : (values k).get default = .bottom := by simpa [get] using all default
      cases get_eq_bottom_iff.1 nothing
    | values l =>
      rw [included, SortedMap.isSubmap_iff]
      refine forall_congr' fun v => ?_
      cases known : k.get? v <;> cases wanted : l.get? v <;> simp [get, known, wanted, eq_comm]

theorem get_join : (m.join n).get v = (m.get v).join (n.get v) := by
  cases m with
  | bottom => cases n <;> simp [join, get]
  | values k =>
    cases n with
    | bottom => simp [join, get]
    | values l =>
      have kept : (k.filter fun v c => l.get? v = some c).get? v =
          if l.get? v = k.get? v then k.get? v else none := by
        refine Option.ext fun c => ?_
        rw [SortedMap.get?_filter, decide_eq_true_iff]
        split_ifs <;> grind
      simp only [join, get, kept]
      cases first : k.get? v with
      | none => simp
      | some c =>
        cases second : l.get? v with
        | none => simp
        | some d => by_cases same : c = d <;> simp [same, Flat.join_value, Ne.symm]

theorem included_values_iff {n : Model} : m.included (values n) = true ↔
    ∀ entry ∈ n.toList, (m.get entry.1).included (.value entry.2) = true := by
  rw [included_iff]
  constructor
  · rintro all ⟨v, c⟩ member
    have here := all v
    rwa [get, SortedMap.get?_eq_some_iff.2 member] at here
  · intro all v
    rw [get]
    cases found : n.get? v with
    | none => exact Flat.included_top
    | some c => exact all (v, c) (SortedMap.get?_eq_some_iff.1 found)

/-- Learns an entry, which may contradict what is known. -/
def learn (m : ValueMap) (v : Variable) (c : Constant) : ValueMap :=
  m.set v ((m.get v).meet (.value c))

/-- A map is below what is learned if it is below what was known and has the entry. -/
theorem included_learn : o.included (m.learn v c) = true ↔
    o.included m = true ∧ (o.get v).included (.value c) = true := by
  have contradicts : o.included bottom = true ↔ o = bottom := by cases o <;> simp [included]
  by_cases proper : m = bottom
  · subst proper
    refine ⟨fun below => ⟨below, ?_⟩, And.left⟩
    rw [contradicts.1 below]
    rfl
  · by_cases possible : (m.get v).meet (.value c) = .bottom
    · have lost : m.learn v c = bottom := by
        cases m with
        | bottom => rfl
        | values known => rw [learn, possible, set]
      rw [lost, contradicts]
      constructor
      · rintro rfl
        exact ⟨rfl, rfl⟩
      · rintro ⟨below, entry⟩
        have nothing := Flat.included_meet.2 ⟨included_iff.1 below v, entry⟩
        rw [possible, Flat.included_iff] at nothing
        exact get_eq_bottom_iff.1 (by simpa using nothing)
    · simp only [included_iff, learn, get_set proper possible]
      constructor
      · intro all
        have here := all v
        rw [if_pos rfl, Flat.included_meet] at here
        refine ⟨fun w => ?_, here.2⟩
        by_cases same : w = v
        · exact same ▸ here.1
        · simpa [same] using all w
      · rintro ⟨all, entry⟩ w
        by_cases same : w = v
        · subst same
          rw [if_pos rfl]
          exact Flat.included_meet.2 ⟨all w, entry⟩
        · rw [if_neg same]
          exact all w

theorem included_foldl_learn {entries : List (Variable × Constant)} :
    o.included (entries.foldl (fun m entry => m.learn entry.1 entry.2) m) = true ↔
      o.included m = true ∧
        ∀ entry ∈ entries, (o.get entry.1).included (.value entry.2) = true := by
  induction entries generalizing m with
  | nil => simp
  | cons entry rest ih => rw [List.foldl_cons, ih, included_learn, List.forall_mem_cons, and_assoc]

theorem learn_values {k : Model} : (values k).learn v c =
    if k.get? v = none ∨ k.get? v = some c then values (k.insert v c) else bottom := by
  cases found : k.get? v with
  | none => simp [learn, get, found, set]
  | some d => by_cases same : d = c <;> simp [learn, get, found, set, Flat.meet_value, same]

/-- A meet learns the entries of the second map one after the other; once they contradict what is
known, nothing is left. -/
theorem meet_values (k l : Model) : (values k).meet (values l) =
    l.toList.foldl (fun m entry => m.learn entry.1 entry.2) (values k) := by
  have lost : ∀ entries : List (Variable × Constant),
      entries.foldl (fun m entry => m.learn entry.1 entry.2) bottom = bottom := by
    intro entries
    induction entries with
    | nil => rfl
    | cons entry rest ih => exact ih
  have distinct : l.toList.Pairwise fun p q => p.1 ≠ q.1 := by
    refine l.increasing.imp fun {p q} less same => ?_
    simp [same, Std.ReflCmp.compare_self] at less
  unfold meet
  dsimp only
  generalize l.toList = entries at distinct
  induction entries generalizing k with
  | nil => rfl
  | cons entry rest ih =>
    obtain ⟨v, c⟩ := entry
    obtain ⟨away, distinct⟩ := List.pairwise_cons.1 distinct
    rw [List.foldl_cons (l := rest) (b := values k), learn_values, List.all_cons]
    by_cases agrees : k.get? v = none ∨ k.get? v = some c
    -- what is learned does not speak of the variables that are still to come
    · have same : (rest.all fun p => k.get? p.1 = none ∨ k.get? p.1 = some p.2) = rest.all fun p =>
          (k.insert v c).get? p.1 = none ∨ (k.insert v c).get? p.1 = some p.2 := by
        rw [Bool.eq_iff_iff, List.all_eq_true, List.all_eq_true]
        refine forall₂_congr fun entry member => ?_
        rw [SortedMap.get?_insert, if_neg (Ne.symm (away entry member))]
      rw [if_pos agrees, ← ih _ distinct, ← same, decide_eq_true agrees, Bool.true_and]
      rfl
    · rw [if_neg agrees, lost, decide_eq_false agrees, Bool.false_and]
      rfl

theorem join_included : (m.join n).included o = true ↔
    m.included o = true ∧ n.included o = true := by
  simp only [included_iff, get_join, Flat.join_included, forall_and]

theorem included_meet : o.included (m.meet n) = true ↔
    o.included m = true ∧ o.included n = true := by
  have contradicts : o.included bottom = true → ∀ p, o.included p = true := by
    cases o <;> simp [included]
  cases m with
  | bottom => exact ⟨fun below => ⟨below, contradicts below n⟩, And.left⟩
  | values k =>
    cases n with
    | bottom => exact ⟨fun below => ⟨contradicts below _, below⟩, And.right⟩
    | values l =>
      rw [meet_values, included_foldl_learn, included_values_iff (n := l)]

theorem below_iff : lattice.Below m n ↔ m.included n = true := by simp [Lattice.Below, lattice]

theorem lawful_lattice : lattice.Lawful where
  decides _ _ := ⟨_, rfl⟩
  refl _ := below_iff.2 (included_iff.2 fun _ => Flat.included_refl)
  trans _ _ _ first second := by
    rw [below_iff, included_iff] at *
    exact fun v => Flat.included_trans (first v) (second v)
  antisymm _ _ first second := by
    rw [below_iff, included_iff] at *
    exact eq_of_get fun v => Flat.included_antisymm (first v) (second v)
  join_below _ _ _ := below_iff.trans (join_included.trans (and_congr below_iff below_iff).symm)
  below_meet _ _ _ := below_iff.trans (included_meet.trans (and_congr below_iff below_iff).symm)
  bottom_below _ := below_iff.2 rfl
  below_top := by
    rintro _ ⟨⟩ _
    exact below_iff.2 (included_iff.2 fun _ => Flat.included_top)

end ValueMap

/-! ### A number for each variable -/

namespace VersionMap

variable {m n o : VersionMap} {v : Variable}

theorem included_iff : m.included n = true ↔ m.Below n := by
  rw [included, List.all_eq_true]
  constructor
  · intro all v
    by_cases written : m.version v = 0
    · rw [written]
      exact Nat.zero_le _
    · exact of_decide_eq_true (all _ (mem_of_written written))
  · rintro below ⟨v, k⟩ member
    rw [← version_of_mem member]
    exact decide_eq_true (below v)

/-- Maps with the same versions are equal. -/
theorem eq_of_version (same : ∀ v, m.version v = n.version v) : m = n := by
  have entry : ∀ {m n : VersionMap}, (∀ v, m.version v = n.version v) →
      ∀ v k, m.versions.get? v = some k → n.versions.get? v = some k := by
    intro m n same v k found
    have member := SortedMap.get?_eq_some_iff.1 found
    have version := version_of_mem member
    have base := Variable.base_of_unversioned (m.unversioned _ member)
    have written : n.version v ≠ 0 := by
      rw [← same, version]
      exact Nat.ne_of_gt (m.positive _ member)
    have other := mem_of_written written
    rw [base, ← same, version] at other
    exact SortedMap.get?_eq_some_iff.2 other
  refine versions_injective (SortedMap.ext_get? fun v => Option.ext fun k => ?_)
  exact ⟨entry same v k, entry (fun v => (same v).symm) v k⟩

theorem version_meet : (m.meet n).version v = min (m.version v) (n.version v) := by
  have found : (m.meet n).versions.get? v.base = (m.versions.get? v.base).bind fun k =>
      if n.version v.base = 0 then none else some (min k (n.version v.base)) :=
    SortedMap.get?_filterMap
  rw [version_base] at found
  rw [version, version, SortedMap.getD, SortedMap.getD, found]
  cases m.versions.get? v.base with
  | none => simp
  | some k => by_cases unwritten : n.version v = 0 <;> simp [unwritten]

theorem below_iff : lattice.Below m n ↔ m.Below n :=
  Iff.trans (by simp [Lattice.Below, lattice]) included_iff

theorem lawful_lattice : lattice.Lawful where
  decides _ _ := ⟨_, rfl⟩
  refl _ := below_iff.2 fun _ => Nat.le_refl _
  trans _ _ _ first second :=
    below_iff.2 fun v => Nat.le_trans (below_iff.1 first v) (below_iff.1 second v)
  antisymm _ _ first second :=
    eq_of_version fun v => Nat.le_antisymm (below_iff.1 first v) (below_iff.1 second v)
  join_below _ _ _ := by
    simp only [below_iff, Below, ← forall_and, ← Nat.max_le, ← version_join]
    rfl
  below_meet _ _ _ := by
    simp only [below_iff, Below, ← forall_and, ← Nat.le_min, ← version_meet]
    rfl
  bottom_below _ := below_iff.2 fun _ => Nat.zero_le _
  below_top := nofun

/-- Another write leads above every map. -/
theorem not_below_bump (m : VersionMap) (v : Variable) : ¬lattice.Below (m.bump v) m := by
  intro below
  have later := below_iff.1 below v
  rw [version_bump, if_pos rfl] at later
  omega

end VersionMap

/-- Flat elements, value maps and version maps are lattices: joins and meets are the bounds of pairs
in the order, so they obey the laws that do not speak of the order, too. The first two have a
greatest element; version maps have none, as every variable can be written once more. -/
theorem dataLattices_lawful :
    (∀ (α : Type) [DecidableEq α],
      (Flat.lattice (α := α)).Lawful ∧ (Flat.lattice (α := α)).Algebraic) ∧
    (ValueMap.lattice.Lawful ∧ ValueMap.lattice.Algebraic) ∧
    VersionMap.lattice.Lawful ∧ VersionMap.lattice.Algebraic ∧
      ∀ m, ∃ n, ¬VersionMap.lattice.Below n m :=
  ⟨fun _ _ => ⟨Flat.lawful_lattice, Flat.lawful_lattice.algebraic⟩,
    ⟨ValueMap.lawful_lattice, ValueMap.lawful_lattice.algebraic⟩,
    VersionMap.lawful_lattice, VersionMap.lawful_lattice.algebraic,
    fun m => ⟨_, VersionMap.not_below_bump m default⟩⟩

end EventCheck
