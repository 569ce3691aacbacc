import EventCheck.Sorted.Set

/-!
Finite maps over a linear order of keys, kept as lists of entries with strictly increasing keys.
Maps with the same lookups are the same list (`SortedMap.ext_get?`).
-/

namespace EventCheck

universe u v w

set_option linter.unusedSectionVars false

/-- A finite map from `κ` to `β`, its entries listed by increasing key. -/
structure SortedMap (κ : Type u) (β : Type v) [Ord κ] where
  toList : List (κ × β)
  increasing : toList.Pairwise fun p q => compare p.1 q.1 = .lt

namespace SortedMap

variable {κ : Type u} {β : Type v} {γ : Type w} [Ord κ]

theorem toList_injective {m n : SortedMap κ β} (same : m.toList = n.toList) : m = n := by
  cases m; cases n; cases same; rfl

instance [DecidableEq κ] [DecidableEq β] : DecidableEq (SortedMap κ β) := fun m n =>
  decidable_of_iff (m.toList = n.toList) ⟨toList_injective, fun h => h ▸ rfl⟩

/-- The map without entries. -/
def empty : SortedMap κ β := ⟨[], .nil⟩

instance : EmptyCollection (SortedMap κ β) := ⟨empty⟩

instance : Inhabited (SortedMap κ β) := ⟨empty⟩

@[simp] theorem toList_empty : (∅ : SortedMap κ β).toList = [] := rfl

def size (m : SortedMap κ β) : Nat := m.toList.length

def isEmpty (m : SortedMap κ β) : Bool := m.toList.isEmpty

/-- The keys in increasing order. -/
def keys (m : SortedMap κ β) : List κ := m.toList.map (·.1)

/-- The values in the order of their keys. -/
def values (m : SortedMap κ β) : List β := m.toList.map (·.2)

/-- The first entry with the given key. -/
def listGet (k : κ) : List (κ × β) → Option β
  | [] => none
  | (l, b) :: rest =>
    match compare k l with
    | .lt => none
    | .eq => some b
    | .gt => listGet k rest

def get? (m : SortedMap κ β) (k : κ) : Option β := listGet k m.toList

def getD (m : SortedMap κ β) (k : κ) (default : β) : β := (m.get? k).getD default

def contains (m : SortedMap κ β) (k : κ) : Bool := (m.get? k).isSome

/-- Whether each entry of the first list stands in the second one, both by increasing key. -/
def listSubmap [DecidableEq β] : List (κ × β) → List (κ × β) → Bool
  | [], _ => true
  | _ :: _, [] => false
  | (k, b) :: first, (l, c) :: second =>
    match compare k l with
    | .lt => false
    | .eq => decide (b = c) && listSubmap first second
    | .gt => listSubmap ((k, b) :: first) second

/-- Whether the second map has all entries of the first one. -/
def isSubmap [DecidableEq β] (m n : SortedMap κ β) : Bool := listSubmap m.toList n.toList

/-- Puts the entry at its place, in place of an entry with the same key. -/
def listInsert (k : κ) (b : β) : List (κ × β) → List (κ × β)
  | [] => [(k, b)]
  | (l, c) :: rest =>
    match compare k l with
    | .lt => (k, b) :: (l, c) :: rest
    | .eq => (l, b) :: rest
    | .gt => (l, c) :: listInsert k b rest

/-- The entries whose key and value satisfy `keep`. -/
def filter (keep : κ → β → Bool) (m : SortedMap κ β) : SortedMap κ β :=
  ⟨m.toList.filter fun p => keep p.1 p.2, m.increasing.filter _⟩

/-- Removes the entry of a key. -/
def erase (m : SortedMap κ β) (k : κ) : SortedMap κ β := m.filter fun l _ => compare k l != .eq

/-- Changes every value. -/
def map (f : κ → β → γ) (m : SortedMap κ β) : SortedMap κ γ :=
  ⟨m.toList.map fun p => (p.1, f p.1 p.2), List.pairwise_map.2 m.increasing⟩

/-- Changes every value and drops the entries for which `f` gives none. -/
def filterMap (f : κ → β → Option γ) (m : SortedMap κ β) : SortedMap κ γ :=
  ⟨m.toList.filterMap fun p => (f p.1 p.2).map (p.1, ·), by
    refine List.pairwise_filterMap.2 (m.increasing.imp ?_)
    rintro ⟨k, b⟩ ⟨l, c⟩ less ⟨k', b'⟩ left ⟨l', c'⟩ right
    simp only [Option.map_eq_some_iff, Prod.mk.injEq] at left right
    obtain ⟨_, _, rfl, rfl⟩ := left
    obtain ⟨_, _, rfl, rfl⟩ := right
    exact less⟩

section Laws

variable [Std.TransOrd κ] [Std.LawfulEqOrd κ]

theorem mem_listInsert {k : κ} {b : β} {entry : κ × β} {entries : List (κ × β)}
    (member : entry ∈ listInsert k b entries) : entry = (k, b) ∨ entry ∈ entries := by
  induction entries with
  | nil => simpa [listInsert] using member
  | cons head rest ih =>
    obtain ⟨l, c⟩ := head
    simp only [listInsert] at member
    split at member
    · simpa using member
    · rename_i same
      have := Std.LawfulEqOrd.eq_of_compare same
      subst this
      rcases List.mem_cons.1 member with rfl | member
      · exact Or.inl rfl
      · exact Or.inr (List.mem_cons_of_mem _ member)
    · rcases List.mem_cons.1 member with rfl | member
      · exact Or.inr (by simp)
      · exact (ih member).imp_right (List.mem_cons_of_mem _)

theorem listInsert_increasing {k : κ} {b : β} {entries : List (κ × β)}
    (increasing : entries.Pairwise fun p q => compare p.1 q.1 = .lt) :
    (listInsert k b entries).Pairwise fun p q => compare p.1 q.1 = .lt := by
  induction entries with
  | nil => simp [listInsert]
  | cons head rest ih =>
    obtain ⟨l, c⟩ := head
    obtain ⟨below, tail⟩ := List.pairwise_cons.1 increasing
    simp only [listInsert]
    split
    · rename_i smaller
      refine List.pairwise_cons.2 ⟨?_, increasing⟩
      intro entry member
      rcases List.mem_cons.1 member with rfl | member
      · exact smaller
      · exact Std.TransCmp.lt_trans smaller (below entry member)
    · exact List.pairwise_cons.2 ⟨below, tail⟩
    · rename_i larger
      refine List.pairwise_cons.2 ⟨?_, ih tail⟩
      intro entry member
      rcases mem_listInsert member with rfl | member
      · exact Std.OrientedCmp.gt_iff_lt.1 larger
      · exact below entry member

theorem listGet_listInsert [DecidableEq κ] {k l : κ} {b : β} {entries : List (κ × β)} :
    listGet l (listInsert k b entries) = if l = k then some b else listGet l entries := by
  induction entries with
  | nil =>
    simp only [listInsert, listGet]
    by_cases same : l = k
    · simp [same, Std.ReflCmp.compare_self]
    · have : compare l k ≠ .eq := fun h => same (Std.LawfulEqOrd.eq_of_compare h)
      cases h : compare l k <;> simp_all
  | cons head rest ih =>
    obtain ⟨m, c⟩ := head
    simp only [listInsert]
    cases h : compare k m with
    | lt =>
      simp only [listGet]
      by_cases same : l = k
      · simp [same, Std.ReflCmp.compare_self]
      · have : compare l k ≠ .eq := fun h => same (Std.LawfulEqOrd.eq_of_compare h)
        cases less : compare l k with
        | lt => simp [same, Std.TransCmp.lt_trans less h]
        | eq => exact absurd less this
        | gt => simp [same]
    | eq =>
      have := Std.LawfulEqOrd.eq_of_compare h
      subst this
      simp only [listGet]
      by_cases same : l = k
      · simp [same, Std.ReflCmp.compare_self]
      · have : compare l k ≠ .eq := fun h => same (Std.LawfulEqOrd.eq_of_compare h)
        cases less : compare l k <;> simp_all
    | gt =>
      simp only [listGet]
      by_cases same : l = k
      · subst same
        simp [h, ih]
      · cases less : compare l m <;> simp [same, ih]

/-- The map with the value of one key set. -/
def insert (m : SortedMap κ β) (k : κ) (b : β) : SortedMap κ β :=
  ⟨listInsert k b m.toList, listInsert_increasing m.increasing⟩

theorem get?_insert [DecidableEq κ] {m : SortedMap κ β} {k l : κ} {b : β} :
    (m.insert k b).get? l = if l = k then some b else m.get? l :=
  listGet_listInsert

theorem length_listInsert {k : κ} {b : β} {entries : List (κ × β)}
    (fresh : listGet k entries = none) : (listInsert k b entries).length = entries.length + 1 := by
  induction entries with
  | nil => rfl
  | cons head rest ih =>
    simp only [listGet] at fresh
    simp only [listInsert]
    cases order : compare k head.1 with
    | lt => rfl
    | eq => simp [order] at fresh
    | gt =>
      simp only [order] at fresh
      simp only [List.length_cons, ih fresh]

/-- A new key makes the map larger by one. -/
theorem size_insert {m : SortedMap κ β} {k : κ} {b : β} (fresh : m.get? k = none) :
    (m.insert k b).size = m.size + 1 :=
  length_listInsert fresh

@[simp] theorem get?_empty (k : κ) : (∅ : SortedMap κ β).get? k = none := rfl

/-- The map of the listed entries; of two entries with one key the later one stands. -/
def ofList (entries : List (κ × β)) : SortedMap κ β :=
  entries.foldl (fun m p => m.insert p.1 p.2) ∅

theorem listGet_eq_some_iff {k : κ} {b : β} {entries : List (κ × β)}
    (increasing : entries.Pairwise fun p q => compare p.1 q.1 = .lt) :
    listGet k entries = some b ↔ (k, b) ∈ entries := by
  induction entries with
  | nil => simp [listGet]
  | cons head rest ih =>
    obtain ⟨l, c⟩ := head
    obtain ⟨below, tail⟩ := List.pairwise_cons.1 increasing
    simp only [listGet, List.mem_cons]
    cases h : compare k l with
    | lt =>
      simp only [reduceCtorEq, Prod.mk.injEq, false_iff, not_or]
      refine ⟨?_, ?_⟩
      · rintro ⟨rfl, rfl⟩
        simp [Std.ReflCmp.compare_self] at h
      · intro member
        have := Std.TransCmp.lt_trans h (below _ member)
        simp [Std.ReflCmp.compare_self] at this
    | eq =>
      have := Std.LawfulEqOrd.eq_of_compare h
      subst this
      simp only [Option.some.injEq, Prod.mk.injEq, true_and]
      refine ⟨fun same => Or.inl same.symm, ?_⟩
      rintro (same | member)
      · exact same.symm
      · have := below _ member
        simp [Std.ReflCmp.compare_self] at this
    | gt =>
      simp only [ih tail, Prod.mk.injEq]
      refine ⟨Or.inr, ?_⟩
      rintro (⟨rfl, rfl⟩ | member)
      · simp [Std.ReflCmp.compare_self] at h
      · exact member

theorem get?_eq_some_iff {m : SortedMap κ β} {k : κ} {b : β} :
    m.get? k = some b ↔ (k, b) ∈ m.toList :=
  listGet_eq_some_iff m.increasing

theorem listSubmap_iff [DecidableEq β] {first second : List (κ × β)}
    (left : first.Pairwise fun p q => compare p.1 q.1 = .lt)
    (right : second.Pairwise fun p q => compare p.1 q.1 = .lt) :
    listSubmap first second = true ↔ ∀ entry ∈ first, entry ∈ second := by
  induction second generalizing first with
  | nil =>
    cases first with
    | nil => simp [listSubmap]
    | cons head rest =>
      simp only [listSubmap, Bool.false_eq_true, false_iff]
      exact fun all => List.not_mem_nil (all head (by simp))
  | cons second rest ih =>
    obtain ⟨l, c⟩ := second
    cases first with
    | nil => simp [listSubmap]
    | cons head tail =>
      obtain ⟨k, b⟩ := head
      obtain ⟨belowk, tailk⟩ := List.pairwise_cons.1 left
      obtain ⟨belowl, taill⟩ := List.pairwise_cons.1 right
      simp only [listSubmap]
      split
      · rename_i smaller
        simp only [Bool.false_eq_true, false_iff]
        intro all
        rcases List.mem_cons.1 (all (k, b) (by simp)) with same | member
        · cases same
          simp [Std.ReflCmp.compare_self] at smaller
        · have := Std.TransCmp.lt_trans smaller (belowl _ member)
          simp [Std.ReflCmp.compare_self] at this
      · rename_i same
        have := Std.LawfulEqOrd.eq_of_compare same
        subst this
        simp only [Bool.and_eq_true, decide_eq_true_eq, ih tailk taill]
        constructor
        · rintro ⟨rfl, all⟩ entry member
          rcases List.mem_cons.1 member with rfl | member
          · simp
          · exact List.mem_cons_of_mem _ (all entry member)
        · intro all
          refine ⟨?_, ?_⟩
          · rcases List.mem_cons.1 (all (k, b) (by simp)) with found | found
            · exact (Prod.mk.inj found).2
            · have := belowl _ found
              simp [Std.ReflCmp.compare_self] at this
          · intro entry member
            rcases List.mem_cons.1 (all entry (List.mem_cons_of_mem _ member)) with rfl | found
            · have := belowk _ member
              simp [Std.ReflCmp.compare_self] at this
            · exact found
      · rename_i larger
        have smaller := Std.OrientedCmp.gt_iff_lt.1 larger
        rw [ih left taill]
        constructor
        · exact fun all entry member => List.mem_cons_of_mem _ (all entry member)
        · intro all entry member
          rcases List.mem_cons.1 (all entry member) with rfl | found
          · have after : compare l l = .lt := by
              rcases List.mem_cons.1 member with same | later
              · cases same
                exact smaller
              · exact Std.TransCmp.lt_trans smaller (belowk _ later)
            simp [Std.ReflCmp.compare_self] at after
          · exact found

theorem isSubmap_iff [DecidableEq β] {m n : SortedMap κ β} :
    m.isSubmap n = true ↔ ∀ k b, m.get? k = some b → n.get? k = some b := by
  rw [isSubmap, listSubmap_iff m.increasing n.increasing]
  simp [get?_eq_some_iff, Prod.forall]

/-- Maps with the same lookups are equal. -/
theorem ext_get? {m n : SortedMap κ β} (same : ∀ k, m.get? k = n.get? k) : m = n := by
  refine toList_injective (List.Perm.eq_of_pairwise ?_ m.increasing n.increasing ?_)
  · intro p q _ _ less greater
    have := Std.TransCmp.lt_trans less greater
    simp [Std.ReflCmp.compare_self] at this
  · have nodup : ∀ o : SortedMap κ β, o.toList.Nodup := by
      intro o
      refine o.increasing.imp ?_
      rintro p q less rfl
      simp [Std.ReflCmp.compare_self] at less
    refine (List.perm_ext_iff_of_nodup (nodup m) (nodup n)).2 ?_
    rintro ⟨k, b⟩
    rw [← get?_eq_some_iff, ← get?_eq_some_iff, same]

theorem get?_filter {m : SortedMap κ β} {keep : κ → β → Bool} {k : κ} {b : β} :
    (m.filter keep).get? k = some b ↔ m.get? k = some b ∧ keep k b = true := by
  simp [get?_eq_some_iff, filter]

theorem get?_erase [DecidableEq κ] {m : SortedMap κ β} {k l : κ} :
    (m.erase k).get? l = if l = k then none else m.get? l := by
  refine Option.ext fun b => ?_
  have same : compare k l = .eq ↔ l = k := by rw [Std.LawfulEqCmp.compare_eq_iff_eq, eq_comm]
  rw [erase, get?_filter]
  by_cases equal : l = k <;> simp [same, equal]

theorem contains_iff {m : SortedMap κ β} {k : κ} :
    m.contains k = true ↔ ∃ b, m.get? k = some b := by
  rw [contains, Option.isSome_iff_exists]

theorem contains_eq_false_iff {m : SortedMap κ β} {k : κ} :
    m.contains k = false ↔ m.get? k = none := by
  rw [contains, Option.isSome_eq_false_iff, Option.isNone_iff_eq_none]

theorem mem_keys_iff {m : SortedMap κ β} {k : κ} : k ∈ m.keys ↔ ∃ b, m.get? k = some b := by
  simp [keys, get?_eq_some_iff]

/-- After a number of insertions each entry is one of those inserted or was there before. -/
theorem get?_foldl_insert [DecidableEq κ] {entries : List (κ × β)} {m : SortedMap κ β} {k : κ}
    {b : β} (found : (entries.foldl (fun m p => m.insert p.1 p.2) m).get? k = some b) :
    (k, b) ∈ entries ∨ (∀ c, (k, c) ∉ entries) ∧ m.get? k = some b := by
  induction entries generalizing m with
  | nil => exact Or.inr ⟨by simp, found⟩
  | cons entry rest ih =>
    rcases ih found with later | ⟨absent, before⟩
    · exact Or.inl (List.mem_cons_of_mem _ later)
    · rw [get?_insert] at before
      by_cases same : k = entry.1
      · rw [if_pos same, Option.some.injEq] at before
        exact Or.inl (by simp [same, ← before])
      · rw [if_neg same] at before
        refine Or.inr ⟨fun c member => ?_, before⟩
        rcases List.mem_cons.1 member with rfl | later
        · exact same rfl
        · exact absent c later

theorem exists_get?_foldl_insert [DecidableEq κ] {entries : List (κ × β)} {m : SortedMap κ β}
    {k : κ} (present : (∃ b, (k, b) ∈ entries) ∨ ∃ b, m.get? k = some b) :
    ∃ b, (entries.foldl (fun m p => m.insert p.1 p.2) m).get? k = some b := by
  induction entries generalizing m with
  | nil => simpa using present
  | cons entry rest ih =>
    refine ih ?_
    by_cases same : k = entry.1
    · exact Or.inr ⟨entry.2, by rw [get?_insert, if_pos same]⟩
    · rw [get?_insert, if_neg same]
      refine present.imp_left ?_
      rintro ⟨b, member⟩
      rcases List.mem_cons.1 member with rfl | later
      · exact absurd rfl same
      · exact ⟨b, later⟩

theorem mem_of_get?_ofList [DecidableEq κ] {entries : List (κ × β)} {k : κ} {b : β}
    (found : (ofList entries).get? k = some b) : (k, b) ∈ entries := by
  rcases get?_foldl_insert found with member | ⟨_, before⟩
  · exact member
  · simp at before

/-- Of the listed entries each one stands whose key no other one has. -/
theorem get?_ofList_of_mem [DecidableEq κ] {entries : List (κ × β)} {k : κ} {b : β}
    (member : (k, b) ∈ entries) (only : ∀ c, (k, c) ∈ entries → c = b) :
    (ofList entries).get? k = some b := by
  obtain ⟨c, found⟩ := exists_get?_foldl_insert (m := ∅) (Or.inl ⟨b, member⟩)
  rw [← only c (mem_of_get?_ofList found)]
  exact found

/-- The entries of a map make up the map, in any order. -/
theorem ofList_of_perm [DecidableEq κ] {entries : List (κ × β)} {m : SortedMap κ β}
    (order : entries.Perm m.toList) : ofList entries = m := by
  have entry : ∀ {k b}, (k, b) ∈ entries ↔ m.get? k = some b := by
    intro k b
    rw [get?_eq_some_iff, order.mem_iff]
  apply ext_get?
  intro k
  apply Option.ext
  intro b
  constructor
  · intro found
    exact entry.1 (mem_of_get?_ofList found)
  · intro found
    apply get?_ofList_of_mem (entry.2 found)
    intro c member
    have other := entry.1 member
    rw [found] at other
    exact (Option.some.inj other).symm

/-- The keys as a set. -/
def keySet (m : SortedMap κ β) : SortedSet κ :=
  ⟨m.keys, List.pairwise_map.2 m.increasing⟩

end Laws

end SortedMap

end EventCheck
