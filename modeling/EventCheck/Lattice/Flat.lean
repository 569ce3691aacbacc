import EventCheck.Lattice.Basic

/-!
The flat lattice over a type: single values, incomparable among each other, between a bottom
that describes no value and a top that describes all.
-/

namespace EventCheck

/-- No value, one value or any value. -/
inductive Flat (α : Type) where
  | bottom
  | value (a : α)
  | top
deriving DecidableEq, Repr

namespace Flat

variable {α : Type}

instance : Inhabited (Flat α) := ⟨bottom⟩

def value? : Flat α → Option α
  | value a => some a
  | _ => none

/-- Different values are incomparable. -/
def compare? [DecidableEq α] : Flat α → Flat α → Option Ordering
  | top, top => some .eq
  | bottom, bottom => some .eq
  | top, _ => some .gt
  | _, bottom => some .gt
  | _, top => some .lt
  | bottom, _ => some .lt
  | value a, value b => if a = b then some .eq else none

def join [DecidableEq α] (a b : Flat α) : Flat α :=
  match compare? a b with
  | some .lt | some .eq => b
  | some .gt => a
  | none => top

def meet [DecidableEq α] (a b : Flat α) : Flat α :=
  match compare? a b with
  | some .lt | some .eq => a
  | some .gt => b
  | none => bottom

def included [DecidableEq α] (a b : Flat α) : Bool :=
  match compare? a b with
  | some .lt | some .eq => true
  | _ => false

/-- Flat elements ordered by how many values they describe. -/
def lattice [DecidableEq α] : Lattice (Flat α) where
  top := .ok top
  bottom := bottom
  join := join
  meet := meet
  included a b := .ok (included a b)

/-- The least element that describes all of the values. -/
def ofValues [DecidableEq α] (values : List α) : Flat α :=
  lattice.joinAll (values.map value)

/-- The values described, unless these are all there are. -/
def concretize : Flat α → Except Error (List α)
  | bottom => .ok []
  | value a => .ok [a]
  | top => .error .concretizedTop

def text (valueText : α → String) : Flat α → String
  | bottom => "⊥"
  | value a => valueText a
  | top => "⊤"

end Flat

end EventCheck
