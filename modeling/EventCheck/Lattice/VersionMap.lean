import EventCheck.Lattice.Basic
import EventCheck.Sorted.Map

/-!
The current version of each variable. Every write to a variable takes the next version; a
variable that has not been written is at version zero and has no entry.
-/

namespace EventCheck

/-- The versions of the variables that have been written, keyed without version. -/
structure VersionMap where
  versions : SortedMap Variable Nat := ∅
  /-- Only written variables have an entry. -/
  positive : ∀ entry ∈ versions.toList, 0 < entry.2 := by simp
  /-- Entries are keyed by variables without version. -/
  unversioned : ∀ entry ∈ versions.toList, entry.1.version = none := by simp

namespace VersionMap

theorem versions_injective {m n : VersionMap} (same : m.versions = n.versions) : m = n := by
  cases m; cases n; cases same; rfl

instance : DecidableEq VersionMap := fun m n =>
  decidable_of_iff (m.versions = n.versions) ⟨versions_injective, fun h => h ▸ rfl⟩

/-- No variable has been written. -/
def empty : VersionMap := { versions := ∅ }

instance : EmptyCollection VersionMap := ⟨empty⟩

instance : Inhabited VersionMap := ⟨∅⟩

/-- The current version of a variable, whichever version the given one stands for. -/
def version (m : VersionMap) (v : Variable) : Nat := m.versions.getD v.base 0

/-- The variable at its current version. -/
def current (m : VersionMap) (v : Variable) : Variable := v.base.atVersion (m.version v)

/-- Sets the version of an unversioned variable. -/
def set (m : VersionMap) (v : Variable) (n : Nat) (written : 0 < n) (base : v.version = none) :
    VersionMap where
  versions := m.versions.insert v n
  positive entry member := by
    rcases SortedMap.mem_listInsert member with rfl | member
    · exact written
    · exact m.positive entry member
  unversioned entry member := by
    rcases SortedMap.mem_listInsert member with rfl | member
    · exact base
    · exact m.unversioned entry member

/-- Takes the next version of a variable. -/
def bump (m : VersionMap) (v : Variable) : VersionMap :=
  m.set v.base (m.version v + 1) (Nat.succ_pos _) rfl

/-- Takes an entry if it is newer. -/
def raise (m : VersionMap) (v : Variable) (n : Nat) (base : v.version = none) : VersionMap :=
  if newer : m.version v < n then m.set v n (Nat.zero_lt_of_lt newer) base else m

/-- The later version of each variable. -/
def join (m n : VersionMap) : VersionMap :=
  n.versions.toList.attach.foldl (fun joined entry =>
    joined.raise entry.1.1 entry.1.2 (n.unversioned entry.1 entry.2)) m

/-- The earlier version of each variable. -/
def meet (m n : VersionMap) : VersionMap where
  versions := m.versions.filterMap fun v k =>
    if n.version v = 0 then none else some (min k (n.version v))
  positive := by
    rintro ⟨v, k⟩ member
    simp only [SortedMap.filterMap, List.mem_filterMap, Option.map_eq_some_iff, Prod.mk.injEq,
      Option.ite_none_left_eq_some, Option.some.injEq] at member
    obtain ⟨entry, old, l, ⟨written, rfl⟩, _, rfl⟩ := member
    have := m.positive entry old
    show 0 < min _ _
    omega
  unversioned := by
    rintro ⟨v, k⟩ member
    simp only [SortedMap.filterMap, List.mem_filterMap, Option.map_eq_some_iff, Prod.mk.injEq]
      at member
    obtain ⟨entry, old, l, _, rfl, _⟩ := member
    exact m.unversioned entry old

/-- Whether no version of the first map is later than in the second one. -/
def included (m n : VersionMap) : Bool :=
  m.versions.toList.all fun (v, k) => k ≤ n.version v

/-- Version maps ordered at each variable. No map has all versions. -/
def lattice : Lattice VersionMap where
  top := .error .noTopVersionMap
  bottom := ∅
  join := join
  meet := meet
  included m n := .ok (included m n)

end VersionMap

end EventCheck
