/-!
How the scheduler treats what it does not model exactly.
-/

namespace EventCheck

/-- What happens at a wait for a condition or for a time. -/
inductive WaitPolicy where
  /-- The thread only gives way, under a caveat. -/
  | approximate
  /-- The analysis fails. -/
  | reject
deriving DecidableEq, Repr, Inhabited

structure ControlOptions where
  aggregateAtomicTransitions : Bool := false
  waitPolicy : WaitPolicy := .approximate
deriving DecidableEq, Repr, Inhabited

end EventCheck
