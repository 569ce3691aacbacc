import EventCheck.Control.Thread

/-!
What a thread can do at its location: the steps that the control flow of its script, or of the
method that it is in, offers. Calls and returns become plain operations here.
-/

namespace EventCheck

/-- How a step changes the methods that its thread is in. -/
inductive StepKind where
  | plain
  | call (call : Call)
  | return
  /-- The thread leaves its script. -/
  | finish
deriving DecidableEq, Inhabited

/-- One way in which a thread can move. -/
structure Step where
  /-- The statements applied, each with the operation of the task that it is, if any. -/
  operations : List (Option Nat × Statement)
  target : Location
  kind : StepKind
  /-- The statement whose effect on threads the step has. -/
  effect : Statement
deriving DecidableEq, Inhabited

/-- The step of an operation that only the data sees, apart from its effect. -/
def Step.plain (operation : Nat) (statement : Statement) (target : Location) : Step :=
  { operations := [(some operation, statement)], target, kind := .plain, effect := statement }

namespace Task

/-- The control flow that a thread is in: that of its innermost method, or of its script. -/
def flowOf (task : Task) (t : Thread) : Except Error ControlFlow :=
  match t.calls with
  | call :: _ => do return (← (← task.actor call.actor).method call.method).flow
  | [] => do return (← (← task.actor t.actor).script t.script).flow

/-- The script that a thread runs. -/
def scriptOf (task : Task) (t : Thread) : Except Error Script := do
  (← task.actor t.actor).script t.script

/-- Whether a thread can move. Inside a method it can at least return. -/
def hasLeaving (task : Task) (t : Thread) : Except Error Bool :=
  if t.calls.isEmpty then do (← task.flowOf t).hasExits t.location else .ok true

/-- The actor and method that a call names. Without an actor it is the caller's. -/
def calleeName (caller method : String) : String × String :=
  let characters := method.toList
  match characters.dropWhile (· ≠ '.') with
  | [] => (caller, method)
  | _ :: rest => (String.ofList (characters.takeWhile (· ≠ '.')), String.ofList rest)

/-- The steps into a method: its parameters are assigned the arguments one after the other, and
it starts at any of its entries. -/
def callSteps (task : Task) (t : Thread) (exit : Exit) (statement : Statement) (method : String)
    (arguments : List Expression) (result : Option Variable) : Except Error (List Step) := do
  let (actor, name) := calleeName t.actor method
  let callee ← (← task.actor actor).method name
  if callee.parameters.length ≠ arguments.length then
    throw (.wrongArity actor name callee.parameters.length arguments.length)
  let assignments := (callee.parameters.zip arguments).map fun (v, e) => (none, .assign v e)
  let call : Call :=
    { callFrom := t.location, returnTo := exit.target, actor, method := name, result,
      atomic := callee.atomic }
  if callee.flow.entries.isEmpty then throw (.noEntryLocation actor name)
  return callee.flow.entries.toList.map fun entry =>
    { operations := (some exit.operation, statement) :: assignments, target := entry,
      kind := .call call, effect := statement }

/-- The step of a return: out of the innermost method, whose result is assigned if the caller
wants it, or out of the script. -/
def returnStep (t : Thread) (exit : Exit) (statement : Statement) (value : Option Expression) :
    Except Error Step :=
  match t.calls with
  | [] => .ok
    { operations := [(some exit.operation, statement)], target := exit.target, kind := .finish,
      effect := statement }
  | call :: _ => do
    let assignment ← match call.result, value with
      | some v, some e => pure [(none, Statement.assign v e)]
      | some v, none => throw (.noReturnedValue call.actor call.method v)
      | none, _ => pure []
    return { operations := (some exit.operation, statement) :: assignment, target := call.returnTo,
             kind := .return, effect := statement }

/-- The steps that one exit of a location offers. -/
def exitSteps (task : Task) (t : Thread) (exit : Exit) : Except Error (List Step) := do
  let statement := (← task.operation exit.operation).statement
  match statement with
  | .call method arguments result => task.callSteps t exit statement method arguments result
  | .return value => return [← returnStep t exit statement value]
  | _ => return [.plain exit.operation statement exit.target]

/-- The steps that a thread can take. The end of a method returns without a value. -/
def leavingSteps (task : Task) (t : Thread) : Except Error (List Step) := do
  match ← (← task.flowOf t).exits t.location with
  | [] =>
    match t.calls with
    | call :: _ =>
      return [{ operations := [(none, .nop)], target := call.returnTo, kind := .return,
                effect := .nop }]
    | [] => return []
  | exits => return (← exits.mapM (task.exitSteps t)).flatten

end Task

end EventCheck
