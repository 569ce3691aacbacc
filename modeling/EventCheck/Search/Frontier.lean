import EventCheck.Search.Reached

/-!
The states that wait to be expanded, first in, first out. Beside the queue they are indexed by
partition key, and whether a state waits is answered from the index.
-/

namespace EventCheck

/-- The waiting states in the order of their arrival, and grouped by key. -/
structure Frontier {σ : Type} (key : σ → PartitionKey) where
  queue : List σ := []
  index : Groups σ := ∅

namespace Frontier

variable {σ : Type} {key : σ → PartitionKey}

instance : EmptyCollection (Frontier key) := ⟨{}⟩

/-- The waiting states with the key of the given one. -/
def partitionOf (frontier : Frontier key) (s : σ) : List σ := frontier.index.group (key s)

def size (frontier : Frontier key) : Nat := frontier.queue.length

def isEmpty (frontier : Frontier key) : Bool := frontier.size == 0

variable [DecidableEq σ]

/-- Removes the first occurrence of a state and puts the last state in its place. -/
def swapErase (states : List σ) (s : σ) : List σ :=
  match states.getLast? with
  | some last => if s ∈ states then (states.replace s last).dropLast else states
  | none => []

/-- Enters a state in the index. -/
def enter (index : Groups σ) (key : PartitionKey) (s : σ) : Groups σ :=
  index.setGroup key (index.group key ++ [s])

/-- Removes a state from the index. -/
def leave (index : Groups σ) (key : PartitionKey) (s : σ) : Groups σ :=
  index.setGroup key (swapErase (index.group key) s)

def contains (frontier : Frontier key) (s : σ) : Bool := decide (s ∈ frontier.partitionOf s)

/-- Adds a state at the end of the queue, unless it is waiting. -/
def insert (frontier : Frontier key) (s : σ) : Frontier key :=
  if frontier.contains s then frontier
  else { queue := frontier.queue ++ [s], index := enter frontier.index (key s) s }

/-- Removes a state. -/
def erase (frontier : Frontier key) (s : σ) : Frontier key :=
  if frontier.contains s then
    { queue := frontier.queue.filter (· ≠ s), index := leave frontier.index (key s) s }
  else frontier

/-- The first waiting state and the frontier without it. -/
def pop? (frontier : Frontier key) : Option (σ × Frontier key) :=
  match frontier.queue with
  | [] => none
  | s :: queue => some (s, { queue, index := leave frontier.index (key s) s })

/-- Puts a state in the place of another one that is waiting. If the new state is waiting as
well, the old one is only removed. -/
def replace (frontier : Frontier key) (old new : σ) : Frontier key :=
  if !frontier.contains old then frontier
  else if frontier.contains new then frontier.erase old
  else { queue := frontier.queue.replace old new,
         index := enter (leave frontier.index (key old) old) (key new) new }

def insertAll (frontier : Frontier key) (states : List σ) : Frontier key :=
  states.foldl insert frontier

def eraseAll (frontier : Frontier key) (states : List σ) : Frontier key :=
  states.foldl erase frontier

/-- Whether a replacement takes place. -/
def replaces (frontier : Frontier key) (old new : σ) : Bool :=
  frontier.contains old && (frontier.contains new || decide (old ∈ frontier.queue))

end Frontier

/-- What a frontier is asked for. -/
inductive FrontierRequest (σ : Type) where
  | add (s : σ)
  | addAll (states : List σ)
  | remove (s : σ)
  | removeAll (states : List σ)
  | pop
  | clear
  | replace (old new : σ)
deriving DecidableEq, Repr

/-- What a frontier answers. -/
inductive FrontierAnswer (σ : Type) where
  | done
  | changed (whether : Bool)
  | popped (s : Option σ)
deriving DecidableEq, Repr

/-- Does what is asked for, with the answer. -/
def Frontier.perform {σ : Type} {key : σ → PartitionKey} [DecidableEq σ] :
    FrontierRequest σ → Frontier key → FrontierAnswer σ × Frontier key
  | .add s, frontier => (.changed (!frontier.contains s), frontier.insert s)
  | .addAll states, frontier => (.done, frontier.insertAll states)
  | .remove s, frontier => (.changed (frontier.contains s), frontier.erase s)
  | .removeAll states, frontier => (.done, frontier.eraseAll states)
  | .pop, frontier =>
    match frontier.pop? with
    | some (s, rest) => (.popped (some s), rest)
    | none => (.popped none, frontier)
  | .clear, _ => (.done, ∅)
  | .replace old new, frontier =>
    (.changed (frontier.replaces old new), frontier.replace old new)

end EventCheck
