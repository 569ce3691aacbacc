import EventCheck.Analysis.Abstraction
import EventCheck.Analysis.Layer
import EventCheck.Control.Options
import EventCheck.Json.Decode
import EventCheck.Json.Reader
import EventCheck.Search.Reachability

/-!
The configuration of a verification run. It is read from an object with a section for each
concern; missing sections and keys take their defaults, and unknown ones are refused.
-/

namespace EventCheck

/-- How blocks are abstracted. The type is checked when it is used. -/
structure AbstractionOptions where
  abstractionType : String := AbstractionType.boolean.name
  abstractionPoints : AbstractionPoints := .always
deriving DecidableEq, Repr, Inhabited

/-- What is kept of the data. The merge operator is checked when it is used. -/
structure DataOptions where
  domain : DataDomain := .symbolic
  mergeOperator : String := "SEP"
deriving DecidableEq, Repr, Inhabited

inductive SolverKind where
  | enumeration
  | z3
deriving DecidableEq, Repr, Inhabited

structure SolverOptions where
  kind : SolverKind := .enumeration
  /-- Where the program of the external solver is found. -/
  z3Path : String := "z3"
  /-- How far from zero the enumeration tries integers. -/
  integerRange : Nat := 8
deriving DecidableEq, Repr, Inhabited

structure Config where
  control : ControlOptions := {}
  abstraction : AbstractionOptions := {}
  data : DataOptions := {}
  reachability : SearchLimits := {}
  solver : SolverOptions := {}
deriving DecidableEq, Repr, Inhabited

/-! ### Names -/

def WaitPolicy.name : WaitPolicy → String
  | approximate => "approximate"
  | reject => "reject"

def AbstractionPoints.name : AbstractionPoints → String
  | always => "always"
  | loopHeads => "loop-heads"

def DataDomain.name : DataDomain → String
  | symbolic => "symbolic"
  | value => "value"

def SolverKind.name : SolverKind → String
  | enumeration => "enumeration"
  | z3 => "z3"

/-! ### Reading -/

/-- One of the given values, by its name. -/
def namedVariant? {α : Type} (name : α → String) (values : List α) : Json → Option α :=
  Json.variant? (values.map fun a => (name a, a))

open Json in
/-- The fields of a section, each with its reader. -/
def readSection {α : Type} (names : List String) (build : List (Option Json) → Option α)
    (value : Json) : Option α := do
  build (← fields? .refused names value)

open Json

def ControlOptions.ofJson? : Json → Option ControlOptions :=
  readSection ["aggregate-atomic-transitions", "wait-policy"] fun
    | [aggregate, policy] => do
      return {
        aggregateAtomicTransitions := ← optional? false bool? aggregate
        waitPolicy :=
          ← optional? .approximate (namedVariant? WaitPolicy.name [.approximate, .reject]) policy }
    | _ => none

def AbstractionOptions.ofJson? : Json → Option AbstractionOptions :=
  readSection ["abstraction-type", "abstraction-points"] fun
    | [type, points] => do
      return {
        abstractionType := ← optional? AbstractionType.boolean.name string? type
        abstractionPoints :=
          ← optional? .always (namedVariant? AbstractionPoints.name [.always, .loopHeads]) points }
    | _ => none

def DataOptions.ofJson? : Json → Option DataOptions :=
  readSection ["domain", "merge-operator"] fun
    | [domain, operator] => do
      return {
        domain := ← optional? .symbolic (namedVariant? DataDomain.name [.symbolic, .value]) domain
        mergeOperator := ← optional? "SEP" string? operator }
    | _ => none

def SearchLimits.ofJson? : Json → Option SearchLimits :=
  readSection ["max-states", "max-refinements"] fun
    | [states, refinements] => do
      return {
        maxStates := ← optional? 100000 word? states
        maxRefinements := ← optional? 16 word? refinements }
    | _ => none

def SolverOptions.ofJson? : Json → Option SolverOptions :=
  readSection ["kind", "z3-path", "integer-range"] fun
    | [kind, path, range] => do
      return {
        kind := ← optional? .enumeration (namedVariant? SolverKind.name [.enumeration, .z3]) kind
        z3Path := ← optional? "z3" string? path
        integerRange := ← optional? 8 (nat? (Nat.pow 2 32)) range }
    | _ => none

namespace Config

def ofJson? : Json → Option Config :=
  readSection ["ControlAnalysis", "AbstractionAnalysis", "DataAnalysis", "Reachability", "Solver"] fun
    | [control, abstraction, data, reachability, solver] => do
      return {
        control := ← optional? {} ControlOptions.ofJson? control
        abstraction := ← optional? {} AbstractionOptions.ofJson? abstraction
        data := ← optional? {} DataOptions.ofJson? data
        reachability := ← optional? {} SearchLimits.ofJson? reachability
        solver := ← optional? {} SolverOptions.ofJson? solver }
    | _ => none

/-- Reads a configuration from the text of a document. -/
def ofText (text : String) : Except Error Config :=
  match (Json.read text).bind ofJson? with
  | some config => .ok config
  | none => .error .malformedText

/-! ### Writing -/

/-- The configuration as a document, in which no key is missing. -/
def toJson (config : Config) : Json :=
  .object [
    ("ControlAnalysis", .object [
      ("aggregate-atomic-transitions", .bool config.control.aggregateAtomicTransitions),
      ("wait-policy", .string config.control.waitPolicy.name)]),
    ("AbstractionAnalysis", .object [
      ("abstraction-type", .string config.abstraction.abstractionType),
      ("abstraction-points", .string config.abstraction.abstractionPoints.name)]),
    ("DataAnalysis", .object [
      ("domain", .string config.data.domain.name),
      ("merge-operator", .string config.data.mergeOperator)]),
    ("Reachability", .object [
      ("max-states", .int config.reachability.maxStates),
      ("max-refinements", .int config.reachability.maxRefinements)]),
    ("Solver", .object [
      ("kind", .string config.solver.kind.name),
      ("z3-path", .string config.solver.z3Path),
      ("integer-range", .int config.solver.integerRange)])]

end Config

end EventCheck
