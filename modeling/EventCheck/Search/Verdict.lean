import EventCheck.Search.Witness

/-!
What a search concludes.
-/

namespace EventCheck

inductive Verdict where
  /-- No violation can be reached. -/
  | safe
  /-- Some run violates the properties, as the witness shows. -/
  | violated (properties : SortedSet Property) (witness : ErrorWitness)
  /-- Neither could be shown. -/
  | inconclusive (reason : String)
deriving Inhabited

namespace Verdict

def isSafe : Verdict → Bool
  | safe => true
  | _ => false

def isViolated : Verdict → Bool
  | violated .. => true
  | _ => false

def isInconclusive : Verdict → Bool
  | inconclusive _ => true
  | _ => false

def text : Verdict → String
  | safe => "safe"
  | violated properties _ =>
    "unsafe (" ++ ", ".intercalate (properties.toList.map (·.name)) ++ ")"
  | inconclusive reason => "inconclusive: " ++ reason

end Verdict

/-- What a search reports: its verdict, how often it refined the predicates, and how many states
it had reached in the end. -/
structure SearchOutcome where
  verdict : Verdict
  refinements : Nat := 0
  reachedStates : Nat := 0
deriving Inhabited

/-- The verdict on a task, the caveats under which it holds, and statistics. -/
structure AnalysisResult where
  verdict : Verdict
  caveats : SortedSet Caveat := ∅
  statistics : Statistics := {}
deriving Inhabited

/-- Whether the verdict holds only under caveats. -/
def AnalysisResult.isQualified (result : AnalysisResult) : Bool := !result.caveats.isEmpty

end EventCheck
