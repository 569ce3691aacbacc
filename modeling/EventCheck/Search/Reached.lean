import EventCheck.Analysis.Basic

/-!
The reached states, grouped by partition key: merging and coverage look at one group only.
-/

namespace EventCheck

/-- States by key. No group is empty. -/
abbrev Groups (σ : Type) := SortedMap PartitionKey (List σ)

namespace Groups

variable {σ : Type}

/-- The states with the key, oldest first. -/
def group (groups : Groups σ) (key : PartitionKey) : List σ := groups.getD key []

/-- Makes the states those with the key. -/
def setGroup (groups : Groups σ) (key : PartitionKey) (states : List σ) : Groups σ :=
  if states.isEmpty then groups.erase key else groups.insert key states

end Groups

/-- The states that a search has admitted, grouped by key. -/
structure Reached {σ : Type} (key : σ → PartitionKey) where
  groups : Groups σ := ∅

namespace Reached

variable {σ : Type} {key : σ → PartitionKey}

instance : EmptyCollection (Reached key) := ⟨{}⟩

/-- The states with the key of the given one. -/
def partitionOf (reached : Reached key) (s : σ) : List σ := reached.groups.group (key s)

def toList (reached : Reached key) : List σ := reached.groups.values.flatten

def size (reached : Reached key) : Nat := reached.toList.length

def isEmpty (reached : Reached key) : Bool := reached.size == 0

/-- The keys of the states. -/
def keys (reached : Reached key) : List PartitionKey := reached.groups.keys

variable [DecidableEq σ]

def contains (reached : Reached key) (s : σ) : Bool := decide (s ∈ reached.partitionOf s)

/-- Adds a state behind those of its partition, unless it is there. -/
def insert (reached : Reached key) (s : σ) : Reached key :=
  if reached.contains s then reached
  else ⟨reached.groups.setGroup (key s) (reached.partitionOf s ++ [s])⟩

/-- Removes a state. -/
def erase (reached : Reached key) (s : σ) : Reached key :=
  if reached.contains s then
    ⟨reached.groups.setGroup (key s) ((reached.partitionOf s).erase s)⟩
  else reached

def insertAll (reached : Reached key) (states : List σ) : Reached key :=
  states.foldl insert reached

def eraseAll (reached : Reached key) (states : List σ) : Reached key :=
  states.foldl erase reached

end Reached

end EventCheck
