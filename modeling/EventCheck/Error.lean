import EventCheck.Program.Statement

/-!
What can go wrong while a program is read, analysed or searched. An error records its cause;
`Error.kind` says of what sort it is and `Error.message` words it.
-/

namespace EventCheck

/-- The sorts of errors. -/
inductive ErrorKind where
  | arithmetic
  | actorNotFound
  | duplicate
  | edgeNotFound
  | vertexNotFound
  | illegalArgument
  | invariantViolation
  | malformedText
  | methodNotFound
  | operationNotFound
  | precondition
  | scriptNotFound
  | type
  | unimplemented
  | unsupported
deriving DecidableEq, Repr

/-- An error and its cause. -/
inductive Error where
  -- values and expressions
  | divisionByZero
  | typeMismatch (expected : DataType) (found : Expression)
  | mixedOperands (lhs rhs : DataType)
  | notTruthValue (value : Constant)
  | notFormula (e : Expression)
  | notGround (e : Expression)
  -- graphs
  | duplicateVertex
  | duplicateEdge
  | vertexNotFound (vertex : Nat)
  | edgeNotFound (head tail : Nat)
  -- tasks
  | duplicateScript (actor : String) (script : Nat)
  | duplicateMethod (actor method : String)
  | duplicateOperation (operation : Nat)
  | duplicateActor (actor : String)
  | sharedLocation (location : Nat) (first second : String)
  | actorNotFound (actor : String)
  | scriptNotFound (script : Nat)
  | methodNotFound (actor method : String)
  | operationNotFound (operation : Nat)
  -- lattices
  | noTopVersionMap
  | concretizedTop
  | concretizedFormula
  -- configurations
  | malformedText
  | unknownAbstraction (name : String)
  | unknownMergeOperator (name : String)
  | aggregation
  -- schedules
  | computedMessage (message : Expression)
  | rejectedWait (statement : Statement)
  | wrongArity (actor method : String) (expected given : Nat)
  | noEntryLocation (actor method : String)
  | noReturnedValue (actor method : String) (result : Variable)
  | stuckThread (thread : String)
  | runningAtOnce (count : Nat)
  | differentThreads
  -- analyses
  | unlabeledStep (analysis : String)
  | noPrecision
  | witnessWithoutProvenance
  | noProvenanceLayer
  | refinementWithoutProvenance
  | unreachedState (id : Nat)
  | noInitialState
deriving DecidableEq

namespace Error

def kind : Error → ErrorKind
  | divisionByZero => .arithmetic
  | typeMismatch .. | mixedOperands .. | notTruthValue _ | notFormula _ => .type
  | notGround _ => .precondition
  | duplicateVertex | duplicateEdge => .duplicate
  | vertexNotFound _ => .vertexNotFound
  | edgeNotFound .. => .edgeNotFound
  | duplicateScript .. | duplicateMethod .. | duplicateOperation _ | duplicateActor _
  | sharedLocation .. => .illegalArgument
  | actorNotFound _ => .actorNotFound
  | scriptNotFound _ => .scriptNotFound
  | methodNotFound .. => .methodNotFound
  | operationNotFound _ => .operationNotFound
  | noTopVersionMap | concretizedTop | concretizedFormula => .unsupported
  | malformedText => .malformedText
  | unknownAbstraction _ | unknownMergeOperator _ => .illegalArgument
  | aggregation | computedMessage _ | rejectedWait _ => .unimplemented
  | wrongArity .. | noEntryLocation .. | noReturnedValue .. => .illegalArgument
  | stuckThread _ | runningAtOnce _ => .invariantViolation
  | differentThreads | unlabeledStep _ | noPrecision => .unsupported
  | witnessWithoutProvenance | noProvenanceLayer | refinementWithoutProvenance => .precondition
  | unreachedState _ | noInitialState => .invariantViolation

/-- What went wrong, without its sort. -/
def detail : Error → String
  | divisionByZero => "Division by zero"
  | typeMismatch expected found =>
    "expected " ++ expected.text ++ " but " ++ found.text ++ " is " ++ found.dataType.text
  | mixedOperands lhs rhs => "arithmetic over " ++ lhs.text ++ " and " ++ rhs.text
  | notTruthValue value => value.text ++ " is not a boolean"
  | notFormula e => e.text ++ " is not a boolean formula"
  | notGround e => e.text ++ " is not a ground expression"
  | duplicateVertex => "duplicate vertex index"
  | duplicateEdge => "duplicate edge"
  | vertexNotFound vertex => toString vertex
  | edgeNotFound head tail => toString head ++ ", " ++ toString tail
  | duplicateScript actor script =>
    "actor " ++ actor ++ " already has a script " ++ toString script
  | duplicateMethod actor method => "actor " ++ actor ++ " already has a method " ++ method
  | duplicateOperation operation => "duplicate operation " ++ toString operation
  | duplicateActor actor => "duplicate actor " ++ actor
  | sharedLocation location first second =>
    "location " ++ toString location ++ " belongs to both " ++ first ++ " and " ++ second
  | actorNotFound actor => actor
  | scriptNotFound script => toString script
  | methodNotFound actor method => actor ++ "." ++ method
  | operationNotFound operation => toString operation
  | noTopVersionMap => "version maps have no top element"
  | concretizedTop => "concretization of top in a flat lattice"
  | concretizedFormula => "formulas cannot be concretized by enumeration"
  | malformedText => ""
  | unknownAbstraction name => "Unknown abstraction type " ++ name
  | unknownMergeOperator name => "Unknown merge operator " ++ name
  | aggregation => "aggregation of atomic transitions"
  | computedMessage message => "broadcast of the computed message " ++ message.text
  | rejectedWait statement => statement.text
  | wrongArity actor method expected given =>
    actor ++ "." ++ method ++ " takes " ++ toString expected ++ " arguments, "
      ++ toString given ++ " given"
  | noEntryLocation actor method => actor ++ "." ++ method ++ " has no entry location"
  | noReturnedValue actor method result =>
    actor ++ "." ++ method ++ " returns no value for " ++ result.text
  | stuckThread thread => thread ++ " is running without leaving transitions"
  | runningAtOnce count => toString count ++ " program threads are running at once"
  | differentThreads => "joining control states with different threads"
  | unlabeledStep analysis => analysis ++ " only steps through labeled operations"
  | noPrecision => "data analyses have no precision to refine"
  | witnessWithoutProvenance => "error witnesses need provenance tracking"
  | noProvenanceLayer => "no layer tracks provenance for witnesses"
  | refinementWithoutProvenance => "refinement needs provenance tracking"
  | unreachedState id => "state " ++ toString id ++ " is not reached"
  | noInitialState => "no initial state left to restart from"

end Error

/-- The words that open the message of an error of this sort. -/
def ErrorKind.lead : ErrorKind → String
  | arithmetic => "Arithmetic error: "
  | actorNotFound => "Actor not found: "
  | duplicate => ""
  | edgeNotFound => "Graph edge not found: "
  | vertexNotFound => "Graph vertex not found: "
  | illegalArgument => "Illegal argument: "
  | invariantViolation => "Invariant violation: "
  | malformedText => "Json error: "
  | methodNotFound => "Method not found: "
  | operationNotFound => "Operation not found: "
  | precondition => "Precondition failed: "
  | scriptNotFound => "Script not found: "
  | type => "Type error: "
  | unimplemented => "Not implemented: "
  | unsupported => "Not supported for this domain: "

/-- The sort of the error and what went wrong. -/
def Error.message (error : Error) : String := error.kind.lead ++ error.detail

end EventCheck
