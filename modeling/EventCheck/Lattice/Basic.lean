import EventCheck.Error

/-!
Lattices of abstract values. A lattice is a record of operations, so one type of elements can
carry several orders.
-/

namespace EventCheck

/-- The operations of a lattice on `α`. Some orders have no greatest element, and some can only
be decided for part of the elements. -/
structure Lattice (α : Type) where
  top : Except Error α
  bottom : α
  join : α → α → α
  meet : α → α → α
  included : α → α → Except Error Bool

/-- The join of the listed elements. -/
def Lattice.joinAll {α : Type} (lattice : Lattice α) (elements : List α) : α :=
  elements.foldl lattice.join lattice.bottom

end EventCheck
