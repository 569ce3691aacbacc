import EventCheck.Analysis.Control
import EventCheck.Analysis.StepLabel
import EventCheck.Proofs.Threads
import EventCheck.Proofs.VersionedStates

/-!
Steps of the scheduler against steps of the program. A successor of a state comes about by the
statements of one step, each followed by the analysis inside; a step of the program from an
environment that the state describes leads to an environment that a successor describes.
-/

namespace EventCheck

variable {σ : Type}

namespace Control

/-! ### Following statements -/

/-- The analysis leads from one state to another along the statements. -/
inductive Leads (a : LabeledAnalysis σ) : List Statement → σ → σ → Prop
  | nil {s : σ} : Leads a [] s s
  | cons {s t u : σ} {operation : LabeledOperation} {rest : List Statement} {next : List σ}
    (stepped : a.step s operation = .ok next) (member : t ∈ next) (later : Leads a rest t u) :
    Leads a (operation.statement :: rest) s u

variable {a : LabeledAnalysis σ} {thread bigStep : Nat} {stepStart : Bool}
variable {operations : List (Option Nat × Statement)} {states next : List σ}

theorem leads_of_follow (followed : follow a thread bigStep stepStart operations states = .ok next) :
    ∀ t ∈ next, ∃ s ∈ states, Leads a (operations.map (·.2)) s t := by
  induction operations generalizing stepStart states with
  | nil =>
    obtain rfl := Except.ok.inj followed
    exact fun t member => ⟨t, member, .nil⟩
  | cons operation rest ih =>
    obtain ⟨lists, stepped, later⟩ := bind_eq_ok_iff.1 followed
    intro t member
    obtain ⟨u, inside, leads⟩ := ih later t member
    obtain ⟨list, found, inner⟩ := List.mem_flatten.1 inside
    obtain ⟨s, first, step⟩ := exists_left_of_mem (mapM_eq_ok_iff.1 stepped) found
    exact ⟨s, first, .cons step inner leads⟩

/-- The analysis inside keeps up with statements that run: what it describes before a statement
it describes after it. -/
def Advances (a : LabeledAnalysis σ) (describes : σ → Environment → Prop) : Prop :=
  ∀ s operation next env after, describes s env → operation.statement.Plain →
    env.execute operation.statement = some after → a.step s operation = .ok next →
    ∃ t ∈ next, describes t after

theorem exists_of_follow {describes : σ → Environment → Prop} {env after : Environment}
    (advances : Advances a describes)
    (plain : ∀ operation ∈ operations, operation.2.Plain)
    (executed : env.executeAll (operations.map (·.2)) = some after)
    (followed : follow a thread bigStep stepStart operations states = .ok next)
    (before : ∃ s ∈ states, describes s env) : ∃ t ∈ next, describes t after := by
  induction operations generalizing stepStart states env with
  | nil =>
    obtain rfl := Except.ok.inj followed
    obtain rfl := Option.some.inj executed
    exact before
  | cons operation rest ih =>
    obtain ⟨lists, stepped, later⟩ := bind_eq_ok_iff.1 followed
    obtain ⟨middle, first, others⟩ := Environment.executeAll_cons.1 executed
    refine ih (fun other member => plain other (by simp [member])) others later ?_
    obtain ⟨s, member, describes⟩ := before
    obtain ⟨list, found, step⟩ := exists_right_of_mem (mapM_eq_ok_iff.1 stepped) member
    obtain ⟨t, inside, after⟩ :=
      advances s _ list env middle describes (plain operation (by simp)) first step
    exact ⟨t, List.mem_flatten.2 ⟨list, found, inside⟩, after⟩

/-! ### Successors -/

/-- Where a successor comes from: a step of the thread that the scheduler picks. -/
structure Succeeds (task : Task) (policy : WaitPolicy) (a : LabeledAnalysis σ)
    (s t : ControlState σ) (index : Nat) (thread : Thread) (step : Step) : Prop where
  chosen : task.chooseStepping s.threads = .ok (some index)
  found : s.threads[index]? = some thread
  offered : ∃ steps, task.leavingSteps thread = .ok steps ∧ step ∈ steps
  leads : Leads a (step.operations.map (·.2)) s.inner t.inner
  applied : task.applyStep policy s.threads index step = .ok t.threads
  targets : t.targets = targetsOf t.threads

variable {task : Task} {policy : WaitPolicy} {s t : ControlState σ} {results : List (ControlState σ)}
variable {before after : Context}

/-- The threads start together, around each state that the analysis inside starts with. -/
theorem yields_initial (given : (initial task a).Yields before results after) : ∃ threads,
    task.startThreads (task.newThreads before.threads) = .ok threads ∧
      results = a.initial.map fun inner => { threads, inner, targets := targetsOf threads } := by
  obtain ⟨threads, _, begun, built⟩ := Run.yields_bind.1 given
  obtain ⟨first, _, numbered, begun⟩ := Run.yields_bind.1 begun
  obtain ⟨rfl, _⟩ := Run.yields_newThreads.1 numbered
  obtain ⟨_, _, _, begun⟩ := Run.yields_bind.1 begun
  exact ⟨threads, (Run.yields_ofExcept.1 begun).1, (Run.yields_pure.1 built).1.symm⟩

theorem yields_stepSuccessors {index : Nat} {thread : Thread} {step : Step}
    (given : (stepSuccessors task policy a s index thread bigStep step).Yields before results
      after) :
    ∃ inner, follow a thread.id bigStep true step.operations [s.inner] = .ok inner ∧
      (inner = [] ∧ results = [] ∨ ∃ threads,
        task.applyStep policy s.threads index step = .ok threads ∧
        results = inner.map fun inner => { threads, inner, targets := targetsOf threads }) := by
  unfold stepSuccessors at given
  obtain ⟨inner, middle, followed, given⟩ := Run.yields_bind.1 given
  refine ⟨inner, (Run.yields_ofExcept.1 followed).1, ?_⟩
  split at given
  · rename_i empty
    exact Or.inl ⟨List.isEmpty_iff.1 empty, (Run.yields_pure.1 given).1.symm⟩
  · obtain ⟨_, _, _, given⟩ := Run.yields_bind.1 given
    obtain ⟨threads, _, applied, built⟩ := Run.yields_bind.1 given
    exact Or.inr ⟨threads, (Run.yields_ofExcept.1 applied).1, (Run.yields_pure.1 built).1.symm⟩

theorem yields_successors (given : (successors task policy a s).Yields before results after) :
    (task.chooseStepping s.threads = .ok none ∧ results = []) ∨
      ∃ index, task.chooseStepping s.threads = .ok (some index) ∧
        (s.threads[index]? = none ∧ results = [] ∨ ∃ thread steps bigStep lists,
          s.threads[index]? = some thread ∧ task.leavingSteps thread = .ok steps ∧
          results = lists.flatten ∧ List.Forall₂ (fun step list => ∃ c d,
            (stepSuccessors task policy a s index thread bigStep step).Yields c list d)
            steps lists) := by
  unfold successors at given
  obtain ⟨choice, _, picked, given⟩ := Run.yields_bind.1 given
  have chosen := (Run.yields_ofExcept.1 picked).1
  cases choice with
  | none => exact Or.inl ⟨chosen, (Run.yields_pure.1 given).1.symm⟩
  | some index =>
    refine Or.inr ⟨index, chosen, ?_⟩
    dsimp only at given
    split at given
    · rename_i none
      exact Or.inl ⟨none, (Run.yields_pure.1 given).1.symm⟩
    · rename_i thread found
      obtain ⟨bigStep, _, _, given⟩ := Run.yields_bind.1 given
      obtain ⟨steps, _, leaving, given⟩ := Run.yields_bind.1 given
      obtain ⟨lists, _, each, built⟩ := Run.yields_bind.1 given
      exact Or.inr ⟨thread, steps, bigStep, lists, found, (Run.yields_ofExcept.1 leaving).1,
        (Run.yields_pure.1 built).1.symm, Run.forall₂_of_yields_mapM each⟩

/-- Every successor comes about by a step of the thread that the scheduler picks. -/
theorem exists_succeeds (given : (successors task policy a s).Yields before results after)
    (member : t ∈ results) : ∃ index thread step, Succeeds task policy a s t index thread step := by
  rcases yields_successors given with ⟨_, rfl⟩ | ⟨index, chosen, ⟨_, rfl⟩ | ⟨thread, steps,
    bigStep, lists, found, leaving, rfl, each⟩⟩
  · simp at member
  · simp at member
  · obtain ⟨list, inside, member⟩ := List.mem_flatten.1 member
    obtain ⟨step, offered, c, d, given⟩ := exists_left_of_mem each inside
    obtain ⟨inner, followed, ⟨_, rfl⟩ | ⟨threads, applied, rfl⟩⟩ := yields_stepSuccessors given
    · simp at member
    · obtain ⟨i, led, rfl⟩ := List.mem_map.1 member
      obtain ⟨first, only, leads⟩ := leads_of_follow followed i led
      obtain rfl := List.mem_singleton.1 only
      exact ⟨index, thread, step, chosen, found, ⟨steps, leaving, offered⟩, leads, applied, rfl⟩

/-- A step of the program from a described environment leads to one that a successor describes. -/
theorem exists_successor {describes : σ → Environment → Prop} {env : Environment}
    {d : Configuration} (advances : Advances a describes) (plain : task.Plain)
    (returns : AllReturn (fun v => v.version = none) s.threads)
    (given : (successors task policy a s).Yields before results after)
    (moves : task.Moves policy ⟨s.threads, env⟩ d) (start : describes s.inner env) :
    ∃ t ∈ results, t.threads = d.threads ∧ describes t.inner d.env := by
  obtain ⟨index, thread, steps, step, chosen, found, leaving, offered, executed, applied⟩ := moves
  rcases yields_successors given with ⟨none, _⟩ | ⟨other, some, rest⟩
  · cases chosen.symm.trans none
  · obtain rfl : index = other := Option.some.inj (Except.ok.inj (chosen.symm.trans some))
    rcases rest with ⟨none, _⟩ | ⟨same, steps', bigStep, lists, found', leaving', rfl, each⟩
    · cases found.symm.trans none
    · obtain rfl : thread = same := Option.some.inj (found.symm.trans found')
      obtain rfl : steps = steps' := Except.ok.inj (leaving.symm.trans leaving')
      obtain ⟨list, inside, c, d', given⟩ := exists_right_of_mem each offered
      obtain ⟨inner, followed, form⟩ := yields_stepSuccessors given
      have follows := Task.follows_of_leavingSteps plain
        (returns thread (List.mem_of_getElem? found)) leaving offered
      obtain ⟨i, led, after⟩ := exists_of_follow advances follows.operations executed followed
        ⟨s.inner, List.mem_singleton.2 rfl, start⟩
      rcases form with ⟨rfl, _⟩ | ⟨threads, applied', rfl⟩
      · simp at led
      · obtain rfl : d.threads = threads := Except.ok.inj (applied.symm.trans applied')
        exact ⟨_, List.mem_flatten.2 ⟨_, inside, List.mem_map.2 ⟨i, led, rfl⟩⟩, rfl, after⟩

/-- Successors are computed without numbers for them. -/
theorem keepsStates_successors : (successors task policy a s).KeepsStates := by
  have each : ∀ index thread bigStep step,
      (stepSuccessors task policy a s index thread bigStep step).KeepsStates := by
    intro index thread bigStep step
    refine (Run.keepsStates_ofExcept _).bind fun inner => ?_
    split
    · exact .pure _
    · refine Run.KeepsStates.bind ?_ fun _ => (Run.keepsStates_ofExcept _).bind fun _ => .pure _
      unfold reportWait
      split
      · exact Run.keepsStates_report _
      · exact .pure _
  refine (Run.keepsStates_ofExcept _).bind fun choice => ?_
  split
  · exact .pure _
  · split
    · exact .pure _
    · exact Run.keepsStates_newStep.bind fun bigStep => (Run.keepsStates_ofExcept _).bind
        fun steps => (Run.KeepsStates.mapM (each _ _ bigStep) steps).bind fun _ => .pure _

end Control

/-! ### Labels -/

theorem StepLabel.step_eq_ok {a : LabeledAnalysis σ} {s : LabelState σ}
    {operation : LabeledOperation} {next : List (LabelState σ)}
    (stepped : step a s operation = .ok next) :
    ∃ inner transfers, a.step s.inner operation = .ok inner ∧
      next = inner.map fun inner => { transfers, inner } := by
  unfold step at stepped
  obtain ⟨inner, followed, built⟩ := bind_eq_ok_iff.1 stepped
  exact ⟨inner, _, followed, (pure_eq_ok_iff.1 built).symm⟩

theorem Control.Leads.unlabeled {a : LabeledAnalysis σ} {statements : List Statement}
    {s t : LabelState σ} (leads : Leads a.withLabels statements s t) :
    Leads a statements s.inner t.inner := by
  induction leads with
  | nil => exact .nil
  | cons stepped member _ ih =>
    obtain ⟨inner, transfers, followed, rfl⟩ := StepLabel.step_eq_ok stepped
    obtain ⟨i, inside, rfl⟩ := List.mem_map.1 member
    exact .cons followed inside ih

end EventCheck
