import EventCheck.Search.Frontier

/-!
Merging a new state into the reached ones. A reached state that the analysis wants merged with
the new state gives way to the merge of the two, which waits to be expanded in its turn.
-/

namespace EventCheck

/-- The states that a search has reached and those of them that it still has to expand. -/
structure SearchSets {σ : Type} (key : σ → PartitionKey) where
  reached : Reached key := ∅
  frontier : Frontier key := ∅

namespace SearchSets

variable {σ : Type} {key : σ → PartitionKey} [DecidableEq σ]

/-- Admits a state and lets it wait. -/
def insert (sets : SearchSets key) (s : σ) : SearchSets key :=
  { reached := sets.reached.insert s, frontier := sets.frontier.insert s }

/-- Puts a merge in the place of a reached state. It takes the place of the state in the queue,
too, and waits at its end if the state was not waiting. -/
def substitute (sets : SearchSets key) (old merged : σ) : SearchSets key where
  reached := (sets.reached.erase old).insert merged
  frontier :=
    if sets.frontier.contains old then sets.frontier.replace old merged
    else sets.frontier.insert merged

end SearchSets

namespace Analysis

variable {σ : Type} [DecidableEq σ]

/-- The given states that a merge with the new state changes, each with the result. -/
def replacements (a : Analysis σ) (s : σ) : List σ → Run (List (σ × σ))
  | [] => return []
  | r :: rest => do
    if ← .ofExcept (a.shouldMerge s r) then
      let merged ← a.merge s r
      let later ← a.replacements s rest
      return if merged = r then later else (r, merged) :: later
    else a.replacements s rest

/-- Merges a new state into the reached states of its partition. -/
def mergeInto (a : Analysis σ) (s : σ) (sets : SearchSets a.partitionKey) :
    Run (SearchSets a.partitionKey) := do
  let changed ← a.replacements s (sets.reached.partitionOf s)
  return changed.foldl (fun sets (old, merged) => sets.substitute old merged) sets

end Analysis

end EventCheck
