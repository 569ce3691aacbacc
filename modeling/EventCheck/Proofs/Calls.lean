import EventCheck.Proofs.ThreadSteps

/-!
What a call passes to the method that it enters. The parameters are assigned one after the other,
so an argument is evaluated where the parameters before it have their new values. Unless an
argument depends on one of them it has the value that it had before the call.
-/

namespace EventCheck

/-! ### Assignments in turn -/

namespace Environment

/-- The environment in which these variables have the values of another one. -/
def override (env other : Environment) (changed : List Variable) : Environment :=
  fun v => if v ∈ changed then other v else env v

/-- Each of the variables has the value that its expression had before. -/
def Passes (env after : Environment) (bindings : List (Variable × Expression)) : Prop :=
  ∀ binding ∈ bindings, binding.2.eval env.lookup = .ok (some (after binding.1))

/-- Each of the variables has the value that its expression has where the variables before it are
assigned already, and nothing else changes. -/
structure PassesInTurn (env after : Environment) (bindings : List (Variable × Expression)) :
    Prop where
  values : ∀ (k : Nat) (v : Variable) (e : Expression), bindings[k]? = some (v, e) →
    e.eval (env.override after ((bindings.take k).map Prod.fst)).lookup = .ok (some (after v))
  others : ∀ v, v ∉ bindings.map Prod.fst → after v = env v

/-- No expression changes its value when the variables before it get theirs. -/
def Undisturbed (env : Environment) (bindings : List (Variable × Expression)) : Prop :=
  ∀ intended, env.Passes intended bindings →
    ∀ (k : Nat) (v : Variable) (e : Expression), bindings[k]? = some (v, e) →
      e.eval (env.override intended ((bindings.take k).map Prod.fst)).lookup =
        e.eval env.lookup

variable {env after : Environment} {bindings : List (Variable × Expression)}

/-- The statements that assign each variable its expression, in this order. -/
abbrev assignments (bindings : List (Variable × Expression)) : List Statement :=
  bindings.map fun binding => .assign binding.1 binding.2

@[simp] theorem override_nil {other : Environment} : env.override other [] = env := by
  funext v
  simp [override]

theorem override_cons {other : Environment} {v : Variable} {rest : List Variable} :
    env.override other (v :: rest) = Environment.override (Function.update env v (other v)) other
      rest := by
  funext w
  unfold override
  by_cases same : w = v
  · subst same
    simp
  · simp [same]

/-- Assignments to distinct variables run exactly as values are passed in turn. -/
theorem executeAll_assignments (distinct : (bindings.map Prod.fst).Nodup) :
    env.executeAll (assignments bindings) = some after ↔ env.PassesInTurn after bindings := by
  induction bindings generalizing env with
  | nil =>
    constructor
    · rintro ⟨⟩
      exact ⟨nofun, fun _ _ => rfl⟩
    · rintro ⟨_, others⟩
      exact congrArg some (funext fun v => (others v (by simp)).symm)
  | cons binding rest ih =>
    obtain ⟨v, e⟩ := binding
    obtain ⟨fresh, distinct⟩ := List.nodup_cons.1 distinct
    rw [assignments, List.map_cons, executeAll_cons]
    constructor
    · rintro ⟨middle, assigned, later⟩
      obtain ⟨c, value, rfl⟩ := execute_assign.1 assigned
      obtain ⟨values, others⟩ := (ih distinct).1 later
      have here : after v = c := (others v fresh).trans (Function.update_self v c env)
      refine ⟨fun k w f found => ?_, fun w other => ?_⟩
      · cases k with
        | zero =>
          obtain ⟨rfl, rfl⟩ := Prod.mk.inj (Option.some.inj found)
          rw [here]
          simpa using value
        | succ k =>
          rw [List.take_succ_cons, List.map_cons, override_cons, here]
          exact values k w f found
      · obtain ⟨away, other⟩ := not_or.1 (mt List.mem_cons.2 other)
        exact (others w other).trans (Function.update_of_ne away c env)
    · rintro ⟨values, others⟩
      have value := values 0 v e rfl
      rw [List.take_zero, List.map_nil, override_nil] at value
      refine ⟨_, execute_assign.2 ⟨_, value, rfl⟩, (ih distinct).2 ⟨fun k w f found => ?_, ?_⟩⟩
      · have later := values (k + 1) w f found
        rw [List.take_succ_cons, List.map_cons, override_cons] at later
        exact later
      · intro w other
        by_cases same : w = v
        · rw [same, Function.update_self]
        · rw [Function.update_of_ne same]
          exact others w (by simp [same, other])

/-- Only the values of the variables themselves count. -/
theorem override_congr {other : Environment} {changed : List Variable}
    (same : ∀ v ∈ changed, after v = other v) :
    env.override after changed = env.override other changed := by
  funext v
  unfold override
  split
  · rename_i member
    exact same v member
  · rfl

theorem Passes.eq {other : Environment} (first : env.Passes after bindings)
    (second : env.Passes other bindings) {v : Variable} (member : v ∈ bindings.map Prod.fst) :
    after v = other v := by
  obtain ⟨binding, inside, rfl⟩ := List.mem_map.1 member
  exact Option.some.inj (Except.ok.inj ((first binding inside).symm.trans (second binding inside)))

theorem mem_of_mem_take {v : Variable} {k : Nat}
    (member : v ∈ (bindings.take k).map Prod.fst) : v ∈ bindings.map Prod.fst := by
  obtain ⟨binding, inside, rfl⟩ := List.mem_map.1 member
  exact List.mem_map_of_mem (List.mem_of_mem_take inside)

/-- Distinct variables can have any values. -/
theorem exists_passes (distinct : (bindings.map Prod.fst).Nodup)
    (known : ∀ binding ∈ bindings, ∃ c, binding.2.eval env.lookup = .ok (some c)) :
    ∃ after, env.Passes after bindings ∧ ∀ v, v ∉ bindings.map Prod.fst → after v = env v := by
  induction bindings with
  | nil => exact ⟨env, nofun, fun _ _ => rfl⟩
  | cons binding rest ih =>
    obtain ⟨fresh, distinct⟩ := List.nodup_cons.1 distinct
    obtain ⟨after, passes, others⟩ := ih distinct fun b member => known b (by simp [member])
    obtain ⟨c, value⟩ := known binding (by simp)
    refine ⟨Function.update after binding.1 c, fun b member => ?_, fun v other => ?_⟩
    · rcases List.mem_cons.1 member with rfl | member
      · rw [Function.update_self]
        exact value
      · have away : b.1 ≠ binding.1 := fun same => fresh (same ▸ List.mem_map_of_mem member)
        rw [Function.update_of_ne away]
        exact passes b member
    · obtain ⟨away, other⟩ := not_or.1 (mt List.mem_cons.2 other)
      rw [Function.update_of_ne away]
      exact others v other

/-- Passing values in turn passes the values from before exactly if no expression is disturbed. -/
theorem exists_passesInTurn_iff (distinct : (bindings.map Prod.fst).Nodup)
    (known : ∀ binding ∈ bindings, ∃ c, binding.2.eval env.lookup = .ok (some c)) :
    (∃ after, env.PassesInTurn after bindings ∧ env.Passes after bindings) ↔
      env.Undisturbed bindings := by
  constructor
  · rintro ⟨after, ⟨values, _⟩, passes⟩ intended meant k v e found
    rw [override_congr fun w member => meant.eq passes (mem_of_mem_take member), values k v e found]
    exact (passes _ (List.mem_of_getElem? found)).symm
  · intro undisturbed
    obtain ⟨after, passes, others⟩ := exists_passes distinct known
    refine ⟨after, ⟨fun k v e found => ?_, others⟩, passes⟩
    rw [undisturbed after passes k v e found]
    exact passes _ (List.mem_of_getElem? found)

/-- An expression in which no variable before it occurs is not disturbed. -/
theorem undisturbed_of_pairwise
    (apart : bindings.Pairwise fun earlier later => earlier.1 ∉ later.2.variables) :
    env.Undisturbed bindings := by
  intro intended _ k v e found
  refine Expression.eval_congr fun w occurs => ?_
  have kept : w ∉ (bindings.take k).map Prod.fst := by
    intro member
    obtain ⟨binding, inside, rfl⟩ := List.mem_map.1 member
    obtain ⟨j, before, same⟩ := List.mem_take_iff_getElem.1 inside
    obtain ⟨bound, here⟩ := List.getElem?_eq_some_iff.1 found
    have earlier : j < k := by omega
    have missing := List.pairwise_iff_getElem.1 apart j k (by omega) bound earlier
    rw [same, here] at missing
    exact missing occurs
  exact congrArg some (if_neg kept)

end Environment

/-! ### Calls -/

namespace Task

variable {task : Task} {t : Thread} {step : Step} {call : Call} {steps : List Step}

/-- The step enters the method with the arguments. -/
structure Enters (task : Task) (step : Step) (call : Call) (method : Method)
    (arguments : List Expression) : Prop where
  kind : step.kind = .call call
  method : ∃ actor, task.actor call.actor = .ok actor ∧ actor.method call.method = .ok method
  effect : ∃ name result, step.effect = .call name arguments result

/-- A step into a method executes the call and then assigns each parameter its argument. -/
theorem exists_enters (given : task.leavingSteps t = .ok steps) (member : step ∈ steps)
    (calls : step.kind = .call call) : ∃ method arguments,
      task.Enters step call method arguments ∧
      method.parameters.length = arguments.length ∧ call.atomic = method.atomic ∧
      step.operations.map (·.2) =
        step.effect :: Environment.assignments (method.parameters.zip arguments) := by
  cases offers_of_leavingSteps given member with
  | @enter exit name arguments result actor callee entry _ found named arity _ =>
    obtain rfl := StepKind.call.inj calls
    refine ⟨callee, arguments, ⟨rfl, ⟨actor, found, named⟩, name, result, rfl⟩, arity, rfl, ?_⟩
    rw [List.map_cons, List.map_map]
    rfl
  | finish _ _ | leave _ _ | pass _ _ _ | fallOff _ | plain _ => cases calls

/-- The method and the arguments of a step are its own. -/
theorem Enters.unique {method other : Method} {arguments others : List Expression}
    (first : task.Enters step call method arguments) (second : task.Enters step call other others) :
    other = method ∧ others = arguments := by
  obtain ⟨actor, found, named⟩ := first.method
  obtain ⟨same, found', named'⟩ := second.method
  obtain rfl := Except.ok.inj (found.symm.trans found')
  obtain ⟨name, result, effect⟩ := first.effect
  obtain ⟨name', result', effect'⟩ := second.effect
  exact ⟨Except.ok.inj (named'.symm.trans named),
    (Statement.call.inj (effect'.symm.trans effect)).2.1⟩

theorem Enters.of_leavingSteps {method : Method} {arguments : List Expression}
    (enters : task.Enters step call method arguments) (given : task.leavingSteps t = .ok steps)
    (member : step ∈ steps) : method.parameters.length = arguments.length ∧
      call.atomic = method.atomic ∧ step.operations.map (·.2) =
        step.effect :: Environment.assignments (method.parameters.zip arguments) := by
  obtain ⟨_, _, other, rest⟩ := exists_enters given member enters.kind
  obtain ⟨rfl, rfl⟩ := enters.unique other
  exact rest

end Task

/-- The statements pass the values of the expressions in turn. They pass those from before exactly
if no expression is disturbed by the variables before it, which it is not if these do not occur in
it. -/
structure Marshals (statements : List Statement) (bindings : List (Variable × Expression)) :
    Prop where
  inTurn : ∀ env after : Environment, env.executeAll statements = some after ↔
    env.PassesInTurn after bindings
  passes : ∀ env : Environment,
    (∀ binding ∈ bindings, ∃ c, binding.2.eval env.lookup = .ok (some c)) →
      ((∃ after, env.executeAll statements = some after ∧ env.Passes after bindings) ↔
        env.Undisturbed bindings)
  apart : (bindings.Pairwise fun earlier later => earlier.1 ∉ later.2.variables) →
    ∀ env : Environment, env.Undisturbed bindings

/-- Every call marshals its arguments into the parameters of the method. -/
theorem marshals_of_call {task : Task} {t : Thread} {steps : List Step} {step : Step}
    {call : Call} {method : Method} {arguments : List Expression}
    (leaving : task.leavingSteps t = .ok steps) (offered : step ∈ steps)
    (enters : task.Enters step call method arguments) (distinct : method.parameters.Nodup) :
    method.parameters.length = arguments.length ∧
      Marshals (step.operations.map (·.2)) (method.parameters.zip arguments) := by
  obtain ⟨arity, _, executed⟩ := enters.of_leavingSteps leaving offered
  refine ⟨arity, ?_⟩
  have distinct : ((method.parameters.zip arguments).map Prod.fst).Nodup := by
    rw [List.map_fst_zip (Nat.le_of_eq arity)]
    exact distinct
  have inTurn : ∀ env after : Environment, env.executeAll (step.operations.map (·.2)) = some after ↔
      env.PassesInTurn after (method.parameters.zip arguments) := by
    intro env after
    obtain ⟨name, result, effect⟩ := enters.effect
    rw [executed, effect]
    -- the call itself leaves all variables alone
    exact Environment.executeAll_assignments distinct
  refine ⟨inTurn, fun env known => ?_, fun apart env => Environment.undisturbed_of_pairwise apart⟩
  rw [← Environment.exists_passesInTurn_iff distinct known]
  exact exists_congr fun after => and_congr_left fun _ => inTurn env after

/-! ### A method that calls itself -/

/-- The two parameters of a method. -/
def firstParameter : Variable := { name := "x", dataType := .int }

def secondParameter : Variable := { name := "y", dataType := .int }

/-- A method that calls itself with its parameters the other way round. -/
def callsItself : Except Error Task := do
  let calls ← ControlFlow.ofTransitions [0] [(0, 1, 1)]
  let body ← ControlFlow.ofTransitions [10] [(10, 1, 11)]
  let actor ← Actor.addScript { name := "A" } { id := 0, event := .bootstrap, flow := calls }
  let actor ← actor.addMethod
    { name := "m", parameters := [firstParameter, secondParameter], flow := body }
  Task.create "t" [actor] [⟨1, .call "m" [.var secondParameter, .var firstParameter] none⟩]

theorem accepted_callsItself {task : Task} (created : callsItself = .ok task) : task.Accepted := by
  obtain ⟨calls, first, created⟩ := bind_eq_ok_iff.1 created
  obtain ⟨body, second, created⟩ := bind_eq_ok_iff.1 created
  obtain ⟨one, third, created⟩ := bind_eq_ok_iff.1 created
  obtain ⟨two, fourth, created⟩ := bind_eq_ok_iff.1 created
  refine ⟨_, _, _, ?_, created⟩
  intro actor member
  obtain rfl := List.mem_singleton.1 member
  exact .method (.script .empty (ControlFlow.built_ofTransitions first) third)
    (ControlFlow.built_ofTransitions second) fourth

/-- Whether a thread inside a method is about to enter a method, with these statements. -/
def swaps (task : Task) (s : ControlState Formula) : Bool :=
  s.threads.any fun t => !t.calls.isEmpty &&
    match task.leavingSteps t with
    | .ok steps => steps.any fun step =>
      (match step.kind with | .call _ => true | _ => false) &&
        step.operations.map (·.2) ==
          [.call "m" [.var secondParameter, .var firstParameter] none,
            .assign firstParameter (.var secondParameter),
            .assign secondParameter (.var firstParameter)]
    | .error _ => false

theorem comesTo_callsItself : Control.comesTo callsItself 1 swaps = true := by decide +kernel

/-- The parameters of the method and the arguments that it is called with. -/
abbrev swapped : List (Variable × Expression) :=
  [(firstParameter, .var secondParameter), (secondParameter, .var firstParameter)]

/-- Inside the method the call comes about again, as a step into the method. -/
theorem exists_swappingCall : ∃ (task : Task) (s : ControlState Formula) (t : Thread)
    (steps : List Step) (step : Step) (call : Call) (method : Method)
    (arguments : List Expression), task.Accepted ∧
      ((symbolicMemory .sep).scheduled task .approximate).Reachable s ∧ t ∈ s.threads ∧
      t.calls ≠ [] ∧ task.leavingSteps t = .ok steps ∧ step ∈ steps ∧
      task.Enters step call method arguments ∧ method.parameters.Nodup ∧
      method.parameters.zip arguments = swapped ∧ arguments = swapped.map Prod.snd ∧
      step.operations.map (·.2) = step.effect :: Environment.assignments swapped := by
  obtain ⟨task, s, created, reachable, swaps⟩ := Control.exists_of_comesTo comesTo_callsItself
  obtain ⟨t, member, both⟩ := List.any_eq_true.1 swaps
  obtain ⟨inside, offers⟩ := Bool.and_eq_true_iff.1 both
  split at offers
  · rename_i steps leaving
    obtain ⟨step, offered, both⟩ := List.any_eq_true.1 offers
    obtain ⟨kind, same⟩ := Bool.and_eq_true_iff.1 both
    split at kind
    · rename_i call calls
      obtain ⟨method, arguments, enters, arity, _, executed⟩ :=
        Task.exists_enters leaving offered calls
      have assigns : Environment.assignments (method.parameters.zip arguments) =
          Environment.assignments swapped :=
        (List.cons.inj (executed.symm.trans (eq_of_beq same))).2
      have bindings : method.parameters.zip arguments = swapped := by
        refine List.map_injective_iff.2 (fun one other same => ?_) assigns
        obtain ⟨first, second⟩ := Statement.assign.inj same
        exact Prod.ext first second
      refine ⟨task, s, t, steps, step, call, method, arguments, accepted_callsItself created,
        reachable, member, by simpa using inside, leaving, offered, enters, ?_, bindings, ?_, ?_⟩
      · rw [← List.map_fst_zip (Nat.le_of_eq arity), bindings]
        decide
      · rw [← bindings, List.map_snd_zip (Nat.le_of_eq arity.symm)]
      · rw [executed, bindings]
    · cases kind
  · cases offers

/-- The method that calls itself marshals the arguments of its call. -/
theorem exists_marshals : ∃ (task : Task) (s : ControlState Formula) (t : Thread)
    (steps : List Step) (step : Step) (call : Call) (method : Method)
    (arguments : List Expression), task.Accepted ∧
      ((symbolicMemory .sep).scheduled task .approximate).Reachable s ∧ t ∈ s.threads ∧
      t.calls ≠ [] ∧ task.leavingSteps t = .ok steps ∧ step ∈ steps ∧
      task.Enters step call method arguments ∧ method.parameters.Nodup ∧
      method.parameters.length = arguments.length ∧
      Marshals (step.operations.map (·.2)) (method.parameters.zip arguments) := by
  obtain ⟨task, s, t, steps, step, call, method, arguments, accepted, reachable, member, inside,
    leaving, offered, enters, distinct, _⟩ := exists_swappingCall
  exact ⟨task, s, t, steps, step, call, method, arguments, accepted, reachable, member, inside,
    leaving, offered, enters, distinct, marshals_of_call leaving offered enters distinct⟩

/-- The values that the two parameters have before the call. -/
def oneAndTwo : Environment := fun v =>
  if v = firstParameter then .int 1 else if v = secondParameter then .int 2 else v.dataType.default

theorem typed_oneAndTwo : oneAndTwo.Typed := by
  intro v
  unfold oneAndTwo
  split
  · rename_i same
    rw [same]
    rfl
  · split
    · rename_i same
      rw [same]
      rfl
    · exact DataType.dataType_default v.dataType

/-- A call need not pass the values that its arguments had before it. -/
theorem not_forall_passes : ¬∀ (task : Task) (analysis : Analysis (ControlState Formula))
    (s : ControlState Formula) (t : Thread) (steps : List Step) (step : Step) (call : Call)
    (method : Method) (arguments : List Expression) (env : Environment), task.Accepted →
      (symbolicMemory .sep).withControl task {} = .ok analysis → analysis.Reachable s →
      t ∈ s.threads → task.leavingSteps t = .ok steps → step ∈ steps →
      task.Enters step call method arguments → method.parameters.Nodup → env.Typed →
      (∀ e ∈ arguments, ∃ c, e.eval env.lookup = .ok (some c)) →
      ∃ after, env.executeAll (step.operations.map (·.2)) = some after ∧
        env.Passes after (method.parameters.zip arguments) := by
  intro claim
  obtain ⟨task, s, t, steps, step, call, method, arguments, accepted, reachable, member, _,
    leaving, offered, enters, distinct, bindings, values, executed⟩ := exists_swappingCall
  obtain ⟨after, run, passes⟩ := claim task _ s t steps step call method arguments oneAndTwo
    accepted rfl reachable member leaving offered enters distinct typed_oneAndTwo (by simp [values,
      swapped, Environment.lookup])
  obtain ⟨name, result, effect⟩ := enters.effect
  rw [executed, effect] at run
  rw [bindings] at passes
  have inTurn : oneAndTwo.PassesInTurn after swapped :=
    (Environment.executeAll_assignments (by decide)).1 run
  have first : after firstParameter = .int 2 := by
    have value := passes _ List.mem_cons_self
    rw [Expression.eval_var] at value
    exact (Option.some.inj (Except.ok.inj value)).symm
  have second : after secondParameter = .int 1 := by
    have value := passes _ (List.mem_cons_of_mem _ List.mem_cons_self)
    rw [Expression.eval_var] at value
    exact (Option.some.inj (Except.ok.inj value)).symm
  -- the second argument is evaluated where the first parameter has its new value
  have last := inTurn.values 1 secondParameter (.var firstParameter) rfl
  have same : after firstParameter = after secondParameter := by
    simpa [Environment.lookup, Environment.override] using last
  rw [first, second] at same
  cases same

end EventCheck
