import EventCheck.Control.Thread
import EventCheck.Json.Decode
import EventCheck.Json.Printer
import EventCheck.Json.Reader
import EventCheck.Search.Verdict

/-!
Witnesses, verdicts, results and the names in them as documents. Fields that are not known are
ignored.
-/

namespace EventCheck

open Json

/-! ### Writing -/

/-- A map as an object, sorted by key. -/
def SortedMap.toJson (values : SortedMap String Json) : Json := .object values.toList

namespace ErrorWitness

def actorToJson (actor : ActorValues) : Json :=
  .object [("name", .string actor.name), ("variables", actor.variables.toJson)]

def stepToJson (step : WitnessStep) : Json :=
  .object [("id", .int step.id), ("timestamp", .int step.timestamp),
    ("action", .string step.action), ("actors", .array (step.actors.map actorToJson))]

def mockToJson : Mock → Json
  | .returnValues function values =>
    .object [("kind", .string "returnValues"), ("function", .string function),
      ("values", .array values)]
  | .actorAssignments actor assignments =>
    .object [("kind", .string "actorAssignments"), ("actor", .string actor),
      ("assignments", .array (assignments.map (·.toJson)))]

def toJson (witness : ErrorWitness) : Json :=
  .object [("programName", .string witness.programName),
    ("violations", .array (witness.violations.map .string)),
    ("steps", .array (witness.steps.map stepToJson)),
    ("mocks", .array (witness.mocks.map mockToJson))]

/-- The text of the witness. -/
def text (witness : ErrorWitness) : String := witness.toJson.pretty

end ErrorWitness

def Property.toJson (property : Property) : Json := .object [("name", .string property.name)]

def Verdict.toJson : Verdict → Json
  | .safe => .object [("verdict", .string "safe")]
  | .violated properties witness =>
    .object [("verdict", .string "unsafe"),
      ("properties", .array (properties.toList.map (·.toJson))), ("witness", witness.toJson)]
  | .inconclusive reason =>
    .object [("verdict", .string "inconclusive"), ("reason", .string reason)]

/-- The counts under their names, in the order in which they are written. -/
def Statistics.entries (statistics : Statistics) : List (String × Nat) :=
  [("successor-computations", statistics.successorComputations),
   ("states-computed", statistics.statesComputed),
   ("merges", statistics.merges),
   ("stop-checks", statistics.stopChecks),
   ("states-covered", statistics.statesCovered),
   ("widenings", statistics.widenings),
   ("transfer-time-ms", statistics.transferTimeMs),
   ("refinements", statistics.refinements),
   ("reached-states", statistics.reachedStates)]

def Statistics.toJson (statistics : Statistics) : Json :=
  .object (statistics.entries.map fun (name, count) => (name, .int count))

namespace AnalysisResult

def toJson (result : AnalysisResult) : Json :=
  .object [("verdict", result.verdict.toJson),
    ("caveats", .array (result.caveats.toList.map fun caveat => .string caveat.name)),
    ("statistics", result.statistics.toJson)]

/-- The text of the result. -/
def text (result : AnalysisResult) : String := result.toJson.pretty

end AnalysisResult

/-! ### Reading -/

/-- A record whose fields all have to be there. -/
def record? {α : Type} (names : List String) (build : List Json → Option α) (value : Json) :
    Option α := do
  build (← (← fields? .ignored names value).mapM id)

namespace ErrorWitness

def actorOfJson? : Json → Option ActorValues :=
  record? ["name", "variables"] fun
    | [name, values] => do
      return { name := ← string? name, «variables» := ← map? values }
    | _ => none

def stepOfJson? : Json → Option WitnessStep :=
  record? ["id", "timestamp", "action", "actors"] fun
    | [id, timestamp, action, actors] => do
      return { id := ← word? id, timestamp := ← word? timestamp, action := ← string? action,
               actors := ← list? actorOfJson? actors }
    | _ => none

def returnValuesOfJson? : Json → Option Mock :=
  record? ["function", "values"] fun
    | [function, values] => do
      return .returnValues (← string? function) (← list? canonical values)
    | _ => none

def assignmentsOfJson? : Json → Option Mock :=
  record? ["actor", "assignments"] fun
    | [actor, assignments] => do
      return .actorAssignments (← string? actor) (← list? map? assignments)
    | _ => none

/-- Inside a verdict the kind of a mock may be given by its number. -/
def mockOfJson? (inVerdict : Bool) (value : Json) : Option Mock := do
  let tagging : Tagging :=
    { field := "kind", names := ["returnValues", "actorAssignments"], numbered := inVerdict }
  let (kind, rest) ← tagged? tagging value
  if kind = "returnValues" then returnValuesOfJson? rest
  else if kind = "actorAssignments" then assignmentsOfJson? rest
  else none

def ofJson? (inVerdict : Bool) : Json → Option ErrorWitness :=
  record? ["programName", "violations", "steps", "mocks"] fun
    | [name, violations, steps, mocks] => do
      return { programName := ← string? name, violations := ← list? string? violations,
               steps := ← list? stepOfJson? steps, mocks := ← list? (mockOfJson? inVerdict) mocks }
    | _ => none

/-- Reads a witness from the text of a document. -/
def ofText (text : String) : Except Error ErrorWitness :=
  match (Json.read text).bind (ofJson? false) with
  | some witness => .ok witness
  | none => .error .malformedText

/-- Whether the witness has no contents at all. -/
def isEmpty (witness : ErrorWitness) : Bool :=
  witness.programName.isEmpty && witness.violations.isEmpty && witness.steps.isEmpty
    && witness.mocks.isEmpty

end ErrorWitness

def Property.ofJson? : Json → Option Property :=
  record? ["name"] fun
    | [name] => Property.mk <$> string? name
    | _ => none

namespace Verdict

/-- Nothing is read of a verdict without fields, but a list must not go on. -/
def safeOfJson? : Json → Option Verdict
  | .object _ | .array [] => some .safe
  | _ => none

def violatedOfJson? : Json → Option Verdict :=
  record? ["properties", "witness"] fun
    | [properties, witness] => do
      return .violated (.ofList (← list? Property.ofJson? properties))
        (← ErrorWitness.ofJson? true witness)
    | _ => none

def inconclusiveOfJson? : Json → Option Verdict :=
  record? ["reason"] fun
    | [reason] => inconclusive <$> string? reason
    | _ => none

def ofJson? (value : Json) : Option Verdict := do
  let tagging : Tagging := { field := "verdict", names := ["safe", "unsafe", "inconclusive"] }
  let (name, rest) ← tagged? tagging value
  if name = "safe" then safeOfJson? rest
  else if name = "unsafe" then violatedOfJson? rest
  else if name = "inconclusive" then inconclusiveOfJson? rest
  else none

end Verdict

def Caveat.ofJson? : Json → Option Caveat :=
  variant? (Caveat.all.map fun caveat => (caveat.name, caveat))

def Status.ofJson? : Json → Option Status :=
  variant? (Status.all.map fun status => (status.name, status))

def Statistics.ofJson? : Json → Option Statistics :=
  record? (Statistics.entries {} |>.map (·.1)) fun counts => do
    match ← counts.mapM word? with
    | [successorComputations, statesComputed, merges, stopChecks, statesCovered, widenings,
        transferTimeMs, refinements, reachedStates] =>
      return { successorComputations, statesComputed, merges, stopChecks, statesCovered, widenings,
               transferTimeMs, refinements, reachedStates }
    | _ => none

namespace AnalysisResult

def ofJson? : Json → Option AnalysisResult :=
  record? ["verdict", "caveats", "statistics"] fun
    | [verdict, caveats, statistics] => do
      return { verdict := ← Verdict.ofJson? verdict,
               caveats := .ofList (← list? Caveat.ofJson? caveats),
               statistics := ← Statistics.ofJson? statistics }
    | _ => none

/-- Reads a result from the text of a document. -/
def ofText (text : String) : Except Error AnalysisResult :=
  match (Json.read text).bind ofJson? with
  | some result => .ok result
  | none => .error .malformedText

end AnalysisResult

end EventCheck
