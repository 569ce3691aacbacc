import EventCheck.Lattice.Basic

/-!
Whether and how two abstract values become one.
-/

namespace EventCheck

/-- Values stay apart, or always become their join. -/
inductive MergeOperator where
  | sep
  | join
deriving DecidableEq, Repr, Inhabited

namespace MergeOperator

def ofName (name : String) : Except Error MergeOperator :=
  if name = "SEP" then .ok sep
  else if name = "JOIN" then .ok join
  else .error (.unknownMergeOperator name)

def shouldMerge : MergeOperator → Bool
  | sep => false
  | join => true

/-- Merges the first value into the second one. -/
def merge {α : Type} (lattice : Lattice α) : MergeOperator → α → α → α
  | sep, _, b => b
  | join, a, b => lattice.join a b

end MergeOperator

end EventCheck
