import EventCheck.Sorted.Order

/-!
Finite sets over a linear order, kept as strictly increasing lists. Sets with the same members
are the same list (`SortedSet.ext_mem`), so equality of sets is equality of lists, and sets are
themselves ordered lexicographically.
-/

namespace EventCheck

universe u

set_option linter.unusedSectionVars false

/-- Each element is smaller than all later ones. -/
abbrev StrictlyIncreasing {α : Type u} [Ord α] (elements : List α) : Prop :=
  elements.Pairwise fun a b => compare a b = .lt

/-- A finite set of `α`, listed in increasing order. -/
structure SortedSet (α : Type u) [Ord α] where
  toList : List α
  increasing : StrictlyIncreasing toList

namespace SortedSet

variable {α : Type u} [Ord α]

theorem toList_injective {s t : SortedSet α} (same : s.toList = t.toList) : s = t := by
  cases s; cases t; cases same; rfl

instance [DecidableEq α] : DecidableEq (SortedSet α) := fun s t =>
  decidable_of_iff (s.toList = t.toList) ⟨toList_injective, fun h => h ▸ rfl⟩

instance : Ord (SortedSet α) := ⟨fun s t => compare s.toList t.toList⟩

instance [Std.TransOrd α] : Std.TransOrd (SortedSet α) where
  eq_swap := cmp_swap (compare : List α → List α → Ordering)
  isLE_trans := cmp_isLE_trans (compare : List α → List α → Ordering)

instance [Std.LawfulEqOrd α] : Std.LawfulEqOrd (SortedSet α) where
  compare_self := cmp_self (compare : List α → List α → Ordering)
  eq_of_compare h := toList_injective
    (eq_of_cmp (compare : List α → List α → Ordering) h)

instance : Membership α (SortedSet α) := ⟨fun s a => a ∈ s.toList⟩

theorem mem_def {a : α} {s : SortedSet α} : a ∈ s ↔ a ∈ s.toList := Iff.rfl

/-- The set without members. -/
def empty : SortedSet α := ⟨[], .nil⟩

instance : EmptyCollection (SortedSet α) := ⟨empty⟩

instance : Inhabited (SortedSet α) := ⟨empty⟩

@[simp] theorem toList_empty : (∅ : SortedSet α).toList = [] := rfl

@[simp] theorem not_mem_empty (a : α) : a ∉ (∅ : SortedSet α) := by simp [mem_def]

/-- The set with one member. -/
def singleton (a : α) : SortedSet α := ⟨[a], by simp⟩

@[simp] theorem mem_singleton {a b : α} : a ∈ singleton b ↔ a = b := by
  simp [mem_def, singleton]

def size (s : SortedSet α) : Nat := s.toList.length

def isEmpty (s : SortedSet α) : Bool := s.toList.isEmpty

theorem isEmpty_iff {s : SortedSet α} : s.isEmpty = true ↔ s = ∅ := by
  rw [isEmpty, List.isEmpty_iff]
  exact ⟨fun none => toList_injective none, fun same => same ▸ rfl⟩

/-- The members that satisfy `keep`. -/
def filter (keep : α → Bool) (s : SortedSet α) : SortedSet α :=
  ⟨s.toList.filter keep, s.increasing.filter keep⟩

@[simp] theorem mem_filter {keep : α → Bool} {a : α} {s : SortedSet α} :
    a ∈ s.filter keep ↔ a ∈ s ∧ keep a = true := by
  simp [mem_def, filter]

/-- Whether the element stands in the increasing list. -/
def listContains (a : α) : List α → Bool
  | [] => false
  | b :: bs =>
    match compare a b with
    | .lt => false
    | .eq => true
    | .gt => listContains a bs

def contains (s : SortedSet α) (a : α) : Bool := listContains a s.toList

/-- Puts the element at its place in the increasing list. -/
def listInsert (a : α) : List α → List α
  | [] => [a]
  | b :: bs =>
    match compare a b with
    | .lt => a :: b :: bs
    | .eq => b :: bs
    | .gt => b :: listInsert a bs

/-- Merges two increasing lists: what precedes an element of the first list is taken from the
second one before it. -/
def listUnion : List α → List α → List α
  | [], bs => bs
  | a :: as, bs =>
    bs.takeWhile (fun b => (compare b a).isLT)
      ++ a :: listUnion as (bs.dropWhile fun b => (compare b a).isLE)

/-- Whether each element of the first increasing list stands in the second one. -/
def listSubset : List α → List α → Bool
  | [], _ => true
  | _ :: _, [] => false
  | a :: as, b :: bs =>
    match compare a b with
    | .lt => false
    | .eq => listSubset as bs
    | .gt => listSubset (a :: as) bs

section Laws

variable [Std.TransOrd α] [Std.LawfulEqOrd α]

theorem mem_listInsert {a b : α} {elements : List α} :
    b ∈ listInsert a elements ↔ b = a ∨ b ∈ elements := by
  induction elements with
  | nil => simp [listInsert]
  | cons c rest ih =>
    simp only [listInsert]
    split
    · simp
    · rename_i same
      have := Std.LawfulEqOrd.eq_of_compare same
      subst this
      simp
    · simp only [List.mem_cons, ih]
      grind

theorem listInsert_increasing {a : α} {elements : List α}
    (increasing : StrictlyIncreasing elements) :
    StrictlyIncreasing (listInsert a elements) := by
  induction elements with
  | nil => simp [listInsert]
  | cons c rest ih =>
    obtain ⟨below, tail⟩ := List.pairwise_cons.1 increasing
    simp only [listInsert]
    split
    · rename_i smaller
      refine List.pairwise_cons.2 ⟨?_, increasing⟩
      intro b member
      rcases List.mem_cons.1 member with rfl | member
      · exact smaller
      · exact Std.TransCmp.lt_trans smaller (below b member)
    · exact increasing
    · rename_i larger
      refine List.pairwise_cons.2 ⟨?_, ih tail⟩
      intro b member
      rcases mem_listInsert.1 member with rfl | member
      · exact Std.OrientedCmp.gt_iff_lt.1 larger
      · exact below b member

/-- An element of an increasing list precedes `a`, is `a`, or follows it. -/
theorem mem_split {a b : α} {elements : List α} (increasing : StrictlyIncreasing elements)
    (member : b ∈ elements) :
    b ∈ elements.takeWhile (fun c => (compare c a).isLT) ∨ b = a ∨
      b ∈ elements.dropWhile fun c => (compare c a).isLE := by
  induction elements with
  | nil => simp at member
  | cons c rest ih =>
    obtain ⟨below, tail⟩ := List.pairwise_cons.1 increasing
    simp only [List.takeWhile_cons, List.dropWhile_cons]
    cases h : compare c a with
    | lt =>
      rcases List.mem_cons.1 member with rfl | member
      · simp
      · simpa [or_assoc] using Or.inr (ih tail member)
    | eq =>
      have := Std.LawfulEqOrd.eq_of_compare h
      subst this
      rcases List.mem_cons.1 member with rfl | member
      · simp
      · refine Or.inr (Or.inr ?_)
        suffices keep : rest.dropWhile (fun d => (compare d c).isLE) = rest by simpa [keep]
        cases rest with
        | nil => rfl
        | cons d ds =>
          have larger : compare d c = .gt := Std.OrientedCmp.gt_iff_lt.2 (below d (by simp))
          simp [larger]
    | gt => exact Or.inr (Or.inr (by simpa using member))

theorem mem_listUnion {b : α} {first second : List α} (increasing : StrictlyIncreasing second) :
    b ∈ listUnion first second ↔ b ∈ first ∨ b ∈ second := by
  induction first generalizing second with
  | nil => simp [listUnion]
  | cons a rest ih =>
    have dropped : StrictlyIncreasing (second.dropWhile fun b => (compare b a).isLE) :=
      increasing.sublist (List.dropWhile_sublist _)
    simp only [listUnion, List.mem_append, List.mem_cons, ih dropped]
    constructor
    · rintro (low | rfl | old | high)
      · exact Or.inr ((List.takeWhile_sublist _).subset low)
      · exact Or.inl (Or.inl rfl)
      · exact Or.inl (Or.inr old)
      · exact Or.inr ((List.dropWhile_sublist _).subset high)
    · rintro ((rfl | old) | member)
      · exact Or.inr (Or.inl rfl)
      · exact Or.inr (Or.inr (Or.inl old))
      · rcases mem_split (a := a) increasing member with low | rfl | high
        · exact Or.inl low
        · exact Or.inr (Or.inl rfl)
        · exact Or.inr (Or.inr (Or.inr high))

theorem listUnion_increasing {first second : List α} (left : StrictlyIncreasing first)
    (right : StrictlyIncreasing second) : StrictlyIncreasing (listUnion first second) := by
  induction first generalizing second with
  | nil => simpa [listUnion] using right
  | cons a rest ih =>
    obtain ⟨below, tail⟩ := List.pairwise_cons.1 left
    have dropped : StrictlyIncreasing (second.dropWhile fun b => (compare b a).isLE) :=
      right.sublist (List.dropWhile_sublist _)
    have taken : ∀ b ∈ second.takeWhile (fun b => (compare b a).isLT), compare b a = .lt := by
      intro b member
      exact Ordering.isLT_iff_eq_lt.1 (List.all_eq_true.1 List.all_takeWhile b member)
    have above : ∀ b ∈ second.dropWhile (fun b => (compare b a).isLE), compare a b = .lt := by
      clear ih left taken dropped
      induction second with
      | nil => simp
      | cons c cs ihc =>
        obtain ⟨belowc, tailc⟩ := List.pairwise_cons.1 right
        simp only [List.dropWhile_cons]
        split
        · exact ihc tailc
        · rename_i larger
          have headAbove : compare a c = .lt := by
            cases h : compare c a <;> simp [h] at larger
            exact Std.OrientedCmp.gt_iff_lt.1 h
          intro b member
          rcases List.mem_cons.1 member with rfl | member
          · exact headAbove
          · exact Std.TransCmp.lt_trans headAbove (belowc b member)
    simp only [listUnion]
    refine List.pairwise_append.2 ⟨right.sublist (List.takeWhile_sublist _), ?_, ?_⟩
    · refine List.pairwise_cons.2 ⟨?_, ih tail dropped⟩
      intro b member
      rcases (mem_listUnion dropped).1 member with old | new
      · exact below b old
      · exact above b new
    · intro b low c member
      rcases List.mem_cons.1 member with rfl | member
      · exact taken b low
      · refine Std.TransCmp.lt_trans (taken b low) ?_
        rcases (mem_listUnion dropped).1 member with old | new
        · exact below c old
        · exact above c new

theorem listContains_iff {a : α} {elements : List α} (increasing : StrictlyIncreasing elements) :
    listContains a elements = true ↔ a ∈ elements := by
  induction elements with
  | nil => simp [listContains]
  | cons b rest ih =>
    obtain ⟨below, tail⟩ := List.pairwise_cons.1 increasing
    simp only [listContains]
    split
    · rename_i smaller
      simp only [Bool.false_eq_true, List.mem_cons, false_iff, not_or]
      refine ⟨?_, ?_⟩
      · rintro rfl
        simp [Std.ReflCmp.compare_self] at smaller
      · intro member
        have := Std.TransCmp.lt_trans smaller (below a member)
        simp [Std.ReflCmp.compare_self] at this
    · rename_i same
      simp [Std.LawfulEqOrd.eq_of_compare same]
    · rename_i larger
      rw [ih tail, List.mem_cons]
      refine ⟨Or.inr, ?_⟩
      rintro (rfl | member)
      · simp [Std.ReflCmp.compare_self] at larger
      · exact member

theorem listSubset_iff {first second : List α} (left : StrictlyIncreasing first)
    (right : StrictlyIncreasing second) :
    listSubset first second = true ↔ ∀ a ∈ first, a ∈ second := by
  induction second generalizing first with
  | nil =>
    cases first with
    | nil => simp [listSubset]
    | cons a rest =>
      simp only [listSubset, Bool.false_eq_true, false_iff]
      exact fun all => List.not_mem_nil (all a (by simp))
  | cons b bs ih =>
    cases first with
    | nil => simp [listSubset]
    | cons a as =>
      obtain ⟨belowa, taila⟩ := List.pairwise_cons.1 left
      obtain ⟨belowb, tailb⟩ := List.pairwise_cons.1 right
      simp only [listSubset]
      split
      · rename_i smaller
        simp only [Bool.false_eq_true, false_iff]
        intro all
        rcases List.mem_cons.1 (all a (by simp)) with rfl | member
        · simp [Std.ReflCmp.compare_self] at smaller
        · have := Std.TransCmp.lt_trans smaller (belowb a member)
          simp [Std.ReflCmp.compare_self] at this
      · rename_i same
        have := Std.LawfulEqOrd.eq_of_compare same
        subst this
        rw [ih taila tailb]
        constructor
        · intro all c member
          rcases List.mem_cons.1 member with rfl | member
          · simp
          · exact List.mem_cons_of_mem _ (all c member)
        · intro all c member
          rcases List.mem_cons.1 (all c (List.mem_cons_of_mem _ member)) with rfl | found
          · have := belowa c member
            simp [Std.ReflCmp.compare_self] at this
          · exact found
      · rename_i larger
        have smaller := Std.OrientedCmp.gt_iff_lt.1 larger
        rw [ih left tailb]
        constructor
        · intro all c member
          exact List.mem_cons_of_mem _ (all c member)
        · intro all c member
          rcases List.mem_cons.1 (all c member) with rfl | found
          · have after : compare c c = .lt := by
              rcases List.mem_cons.1 member with rfl | later
              · exact smaller
              · exact Std.TransCmp.lt_trans smaller (belowa c later)
            simp [Std.ReflCmp.compare_self] at after
          · exact found

/-- A part of an increasing list is shorter, or is all of it. -/
theorem length_le_of_listSubset {first second : List α}
    (contained : listSubset first second = true) :
    first.length ≤ second.length ∧ (first.length = second.length → first = second) := by
  induction second generalizing first with
  | nil => cases first <;> simp_all [listSubset]
  | cons b bs ih =>
    cases first with
    | nil => simp
    | cons a as =>
      simp only [listSubset] at contained
      split at contained
      · simp at contained
      · rename_i same
        obtain ⟨shorter, whole⟩ := ih contained
        have := Std.LawfulEqOrd.eq_of_compare same
        subst this
        exact ⟨by simpa using shorter, fun equal => by rw [whole (by simpa using equal)]⟩
      · obtain ⟨shorter, _⟩ := ih contained
        simp only [List.length_cons] at shorter ⊢
        exact ⟨by omega, fun _ => by omega⟩

/-- Adds a member. -/
def insert (s : SortedSet α) (a : α) : SortedSet α :=
  ⟨listInsert a s.toList, listInsert_increasing s.increasing⟩

@[simp] theorem mem_insert {a b : α} {s : SortedSet α} : b ∈ s.insert a ↔ b = a ∨ b ∈ s :=
  mem_listInsert

/-- Removes a member. -/
def erase (s : SortedSet α) (a : α) : SortedSet α :=
  s.filter fun b => compare a b != .eq

@[simp] theorem mem_erase {a b : α} {s : SortedSet α} : b ∈ s.erase a ↔ b ∈ s ∧ b ≠ a := by
  have same : compare a b = .eq ↔ b = a := by rw [Std.LawfulEqCmp.compare_eq_iff_eq, eq_comm]
  simp [erase, same]

theorem contains_iff {a : α} {s : SortedSet α} : s.contains a = true ↔ a ∈ s :=
  listContains_iff s.increasing

instance (a : α) (s : SortedSet α) : Decidable (a ∈ s) := decidable_of_iff _ contains_iff

/-- The members of either set. -/
def union (s t : SortedSet α) : SortedSet α :=
  ⟨listUnion s.toList t.toList, listUnion_increasing s.increasing t.increasing⟩

instance : Union (SortedSet α) := ⟨union⟩

@[simp] theorem mem_union {a : α} {s t : SortedSet α} : a ∈ s ∪ t ↔ a ∈ s ∨ a ∈ t :=
  mem_listUnion t.increasing

instance : HasSubset (SortedSet α) := ⟨fun s t => ∀ a, a ∈ s → a ∈ t⟩

/-- Whether all members of the first set are members of the second. -/
def isSubset (s t : SortedSet α) : Bool := listSubset s.toList t.toList

theorem isSubset_iff {s t : SortedSet α} : s.isSubset t = true ↔ s ⊆ t :=
  listSubset_iff s.increasing t.increasing

instance (s t : SortedSet α) : Decidable (s ⊆ t) := decidable_of_iff _ isSubset_iff

/-- Whether the second set has all members of the first one and others. -/
def isProperSubset (s t : SortedSet α) : Bool := s.size < t.size && s.isSubset t

theorem isProperSubset_iff {s t : SortedSet α} : s.isProperSubset t = true ↔ s ⊆ t ∧ s ≠ t := by
  simp only [isProperSubset, Bool.and_eq_true, decide_eq_true_eq, ← isSubset_iff]
  constructor
  · rintro ⟨smaller, contained⟩
    exact ⟨contained, fun same => by simp [same] at smaller⟩
  · rintro ⟨contained, different⟩
    obtain ⟨shorter, whole⟩ := length_le_of_listSubset contained
    exact ⟨Nat.lt_of_le_of_ne shorter fun equal => different (toList_injective (whole equal)),
      contained⟩

/-- The set of the listed elements. -/
def ofList (elements : List α) : SortedSet α := elements.foldr (fun a s => s.insert a) ∅

@[simp] theorem mem_ofList {a : α} {elements : List α} : a ∈ ofList elements ↔ a ∈ elements := by
  unfold ofList
  induction elements with
  | nil => simp
  | cons b rest ih => simp only [List.foldr_cons, mem_insert, ih, List.mem_cons]

/-- The union of the sets that `f` gives for the listed elements. -/
def unionMap {β : Type v} (elements : List β) (f : β → SortedSet α) : SortedSet α :=
  elements.foldl (fun s b => s ∪ f b) ∅

theorem mem_unionMap {β : Type v} {a : α} {elements : List β} {f : β → SortedSet α} :
    a ∈ unionMap elements f ↔ ∃ b ∈ elements, a ∈ f b := by
  have grown : ∀ s : SortedSet α,
      a ∈ elements.foldl (fun s b => s ∪ f b) s ↔ a ∈ s ∨ ∃ b ∈ elements, a ∈ f b := by
    induction elements with
    | nil => simp
    | cons b rest ih => simp [ih, or_assoc]
  simp [unionMap, grown]

theorem nodup (s : SortedSet α) : s.toList.Nodup := by
  refine s.increasing.imp ?_
  rintro a b less rfl
  simp [Std.ReflCmp.compare_self] at less

/-- Sets with the same members are equal. -/
theorem ext_mem {s t : SortedSet α} (same : ∀ a, a ∈ s ↔ a ∈ t) : s = t := by
  refine toList_injective (List.Perm.eq_of_pairwise ?_ s.increasing t.increasing ?_)
  · intro a b _ _ less greater
    have := Std.TransCmp.lt_trans less greater
    simp [Std.ReflCmp.compare_self] at this
  · exact (List.perm_ext_iff_of_nodup s.nodup t.nodup).2 same

end Laws

end SortedSet

end EventCheck
