import EventCheck.Control.Scheduler
import EventCheck.Proofs.Acceptance
import EventCheck.Proofs.Evaluation
import EventCheck.Proofs.Runs
import Mathlib.Logic.Function.Basic

/-!
What a program does when it runs: statements change the values of the variables, and the scheduler
decides which thread takes which step. No symbol stands for anything here; this is what the
verdicts of the search are about.
-/

namespace EventCheck

/-! ### Statements -/

/-- The environment after a statement, if the run goes on: a variable takes a value, or a condition
has to hold. No other statement touches the data. -/
def Environment.execute (env : Environment) : Statement → Option Environment
  | .declare v => some (Function.update env v v.dataType.default)
  | .assign v e =>
    match e.eval env.lookup with
    | .ok (some c) => some (Function.update env v c)
    | _ => none
  | .assume condition =>
    match condition.eval env.lookup with
    | .ok (some (.bool true)) => some env
    | _ => none
  | _ => some env

/-- The environment after statements in order. -/
def Environment.executeAll (env : Environment) : List Statement → Option Environment
  | [] => some env
  | statement :: rest => (env.execute statement).bind (·.executeAll rest)

namespace Environment

variable {env next : Environment}

theorem execute_assign {v : Variable} {e : Expression} :
    env.execute (.assign v e) = some next ↔
      ∃ c, e.eval env.lookup = .ok (some c) ∧ Function.update env v c = next := by
  simp only [execute]
  split
  · rename_i c value
    simp [value]
  · rename_i none
    simp only [reduceCtorEq, false_iff, not_exists, not_and]
    exact fun c value => absurd value (none c)

theorem execute_assume {condition : Expression} :
    env.execute (.assume condition) = some next ↔
      condition.eval env.lookup = .ok (some (.bool true)) ∧ env = next := by
  simp only [execute]
  split
  · rename_i value
    simp [value]
  · rename_i fails
    simp only [reduceCtorEq, false_iff, not_and]
    exact fun value => absurd value fails

theorem executeAll_cons {statement : Statement} {rest : List Statement} :
    env.executeAll (statement :: rest) = some next ↔
      ∃ middle, env.execute statement = some middle ∧ middle.executeAll rest = some next := by
  rw [executeAll, Option.bind_eq_some_iff]

end Environment

/-! ### Runs -/

/-- The threads of a program together with the values of its variables. -/
structure Configuration where
  threads : List Thread
  env : Environment

namespace Task

/-- One step of the program: the thread that the scheduler picks takes one of its steps. -/
def Moves (task : Task) (policy : WaitPolicy) (before after : Configuration) : Prop :=
  ∃ index thread steps step,
    task.chooseStepping before.threads = .ok (some index) ∧
    before.threads[index]? = some thread ∧
    task.leavingSteps thread = .ok steps ∧ step ∈ steps ∧
    before.env.executeAll (step.operations.map (·.2)) = some after.env ∧
    task.applyStep policy before.threads index step = .ok after.threads

/-- A configuration at the start: every thread at its entry, every variable with any value of its
type. -/
structure Starts (task : Task) (start : Configuration) : Prop where
  threads : task.startThreads (task.newThreads 0) = .ok start.threads
  typed : start.env.Typed

/-- The configurations that runs of the program come to. -/
inductive Reaches (task : Task) (policy : WaitPolicy) : Configuration → Prop
  | start {c : Configuration} (starts : task.Starts c) : Reaches task policy c
  | step {c d : Configuration} (before : Reaches task policy c) (moves : task.Moves policy c d) :
    Reaches task policy d

end Task

/-! ### Plain programs -/

/-- An expression that is well typed, does not divide and speaks of no versions. -/
structure Expression.Plain (e : Expression) : Prop where
  total : e.Total
  unversioned : ∀ v ∈ e.variables, v.version = none

/-- The statement writes only such variables and is built from such expressions. -/
def Statement.Uses (target : Variable → Prop) (source : Expression → Prop) : Statement → Prop
  | .declare v => target v
  | .assign v e => target v ∧ source e
  | .assume e | .broadcast e | .broadcastAndWait e | .waitUntil e | .waitSecs e => source e
  | .call _ arguments result => (∀ e ∈ arguments, source e) ∧ ∀ v, result = some v → target v
  | .return value => ∀ e, value = some e → source e
  | .signalFailure _ | .nop => True

/-- All operations of the task use such variables and expressions, and the parameters of its
methods are such variables. -/
structure Task.Uses (target : Variable → Prop) (source : Expression → Prop) (task : Task) :
    Prop where
  operations : ∀ id operation, task.operations.get? id = some operation →
    operation.statement.Uses target source
  parameters : ∀ actor ∈ task.actors, ∀ name method, actor.methods.get? name = some method →
    ∀ v ∈ method.parameters, target v

/-- The statement is built from plain expressions and writes variables without version. -/
def Statement.Plain (statement : Statement) : Prop :=
  statement.Uses (fun v => v.version = none) Expression.Plain

/-- All operations of the task are plain, and so are the parameters of its methods. -/
def Task.Plain (task : Task) : Prop := task.Uses (fun v => v.version = none) Expression.Plain

/-- The task is plain, and its variables are among certain ones. -/
def Task.PlainOver (among : Variable → Prop) (task : Task) : Prop :=
  task.Uses (fun v => v.version = none ∧ among v) fun e => e.Plain ∧ ∀ v ∈ e.variables, among v

section Uses

variable {target target' : Variable → Prop} {source source' : Expression → Prop}

theorem Statement.Uses.imp (targets : ∀ v, target v → target' v)
    (sources : ∀ e, source e → source' e) {statement : Statement}
    (uses : statement.Uses target source) : statement.Uses target' source' := by
  cases statement with
  | declare v => exact targets v uses
  | assign v e => exact ⟨targets v uses.1, sources e uses.2⟩
  | assume e | broadcast e | broadcastAndWait e | waitUntil e | waitSecs e => exact sources e uses
  | call _ arguments result =>
    exact ⟨fun e member => sources e (uses.1 e member), fun v same => targets v (uses.2 v same)⟩
  | «return» value => exact fun e same => sources e (uses e same)
  | signalFailure _ | nop => trivial

theorem Task.Uses.imp (targets : ∀ v, target v → target' v) (sources : ∀ e, source e → source' e)
    {task : Task} (uses : task.Uses target source) : task.Uses target' source' :=
  ⟨fun id operation found => (uses.operations id operation found).imp targets sources,
    fun actor member name method found v inside =>
      targets v (uses.parameters actor member name method found v inside)⟩

theorem Task.PlainOver.plain {among : Variable → Prop} {task : Task}
    (plain : task.PlainOver among) : task.Plain :=
  plain.imp (fun _ target => target.1) fun _ source => source.1

/-- A task uses what its operations and methods do. -/
theorem Task.uses_of_create {task : Task} {name : String} {actors : List Actor}
    {operations : List Operation} (created : Task.create name actors operations = .ok task)
    (statements : ∀ operation ∈ operations, operation.statement.Uses target source)
    (parameters : ∀ actor ∈ actors, ∀ name method, actor.methods.get? name = some method →
      ∀ v ∈ method.parameters, target v) : task.Uses target source := by
  unfold Task.create at created
  obtain ⟨table, tabled, created⟩ := bind_eq_ok_iff.1 created
  obtain ⟨_, _, built⟩ := bind_eq_ok_iff.1 created
  obtain rfl := pure_eq_ok_iff.1 built
  refine ⟨fun id operation found => statements operation ?_, parameters⟩
  exact ((get?_operationTable tabled).1 found).1

end Uses

end EventCheck
