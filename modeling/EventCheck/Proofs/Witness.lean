import EventCheck.Proofs.Trails

/-!
What error witnesses tell. The values listed at a step are those that the variables have in the
run of the program that the witness stands for, and its inputs are those that the run starts with.
-/

namespace EventCheck

open SingleAssignment

/-! ### What a witness claims -/

/-- No two of the variables have the same name in the same actor. -/
def Apart (among : Variable → Prop) : Prop :=
  ∀ v w, among v → among w → v.actor = w.actor → v.localName = w.localName → v = w

/-- The listed values are those that the variables of the actor have. -/
def Environment.Lists (env : Environment) (among : Variable → Prop) (actor : String)
    (values : SortedMap String Json) : Prop :=
  ∀ name value, values.get? name = some value →
    (∃ v, among v ∧ v.actor = actor ∧ v.localName = name) ∧
    ∀ v, among v → v.actor = actor → v.localName = name → (env v).plain = value

/-- The variables start with the values that a replay assigns to them. -/
def Mock.Agrees (among : Variable → Prop) (env : Environment) : Mock → Prop
  | .returnValues _ _ => False
  | .actorAssignments actor assignments => ∀ values ∈ assignments, env.Lists among actor values

/-- The run of the program goes through the steps of the witness to a violation of exactly the
properties. -/
structure ErrorWitness.Shows (witness : ErrorWitness) (task : Task) (policy : WaitPolicy)
    (among : Variable → Prop) (properties : SortedSet Property) (run : List Configuration) :
    Prop where
  starts : ∃ start, run.head? = some start ∧ task.Starts start ∧
    ∀ mock ∈ witness.mocks, mock.Agrees among start.env
  moves : run.IsChain (task.Moves policy)
  values : List.Forall₂ (fun step c => ∀ actor ∈ step.actors,
    c.env.Lists among actor.name actor.variables) witness.steps run
  violates : ∃ last, run.getLast? = some last ∧ Control.targetsOf last.threads = properties

namespace ErrorWitness

variable {σ : Type} {a : Analysis σ} {s target : σ} {model : Model} {among : Variable → Prop}
variable {env : Environment}

/-! ### Values as documents -/

/-- Everything that the documents list is the value of one of the variables. -/
def Gathered (values : List (Variable × Constant))
    (actors : SortedMap String (SortedMap String Json)) : Prop :=
  ∀ actor table name value, actors.get? actor = some table → table.get? name = some value →
    ∃ v c, (v, c) ∈ values ∧ v.actor = actor ∧ v.localName = name ∧ c.plain = value

theorem Gathered.insert {values : List (Variable × Constant)} {v : Variable} {c : Constant}
    {actors : SortedMap String (SortedMap String Json)} (gathered : Gathered values actors)
    (member : (v, c) ∈ values) : Gathered values (actors.insert v.actor
      ((actors.getD v.actor ∅).insert v.localName c.plain)) := by
  intro actor table name value listed found
  rw [SortedMap.get?_insert] at listed
  split at listed
  · rename_i same
    obtain rfl := Option.some.inj listed
    rw [SortedMap.get?_insert] at found
    split at found
    · rename_i here
      exact ⟨v, c, member, same.symm, here.symm, Option.some.inj found⟩
    · rw [SortedMap.getD] at found
      cases earlier : actors.get? v.actor with
      | none => simp [earlier] at found
      | some before =>
        rw [earlier, Option.getD_some] at found
        exact same ▸ gathered _ _ _ _ earlier found
  · exact gathered _ _ _ _ listed found

theorem gathered_byActor (values : List (Variable × Constant)) :
    Gathered values (byActor values) := by
  unfold byActor
  refine List.foldlRecOn values _ (by simp [Gathered]) fun actors gathered entry member => ?_
  exact gathered.insert member

/-- If the variables have these values the documents list them. -/
theorem lists_of_byActor {values : List (Variable × Constant)} {actor : String}
    {table : SortedMap String Json} (apart : Apart among)
    (each : ∀ v c, (v, c) ∈ values → among v.base ∧ env v.base = c)
    (listed : (actor, table) ∈ (byActor values).toList) : env.Lists among actor table := by
  intro name value found
  obtain ⟨v, c, member, rfl, rfl, rfl⟩ :=
    gathered_byActor values _ _ _ _ (SortedMap.get?_eq_some_iff.2 listed) found
  obtain ⟨inside, same⟩ := each v c member
  refine ⟨⟨v.base, inside, rfl, rfl⟩, fun w other actors names => ?_⟩
  obtain rfl : w = v.base := apart w v.base other inside actors names
  rw [same]

/-- The inputs of a replay are the values of variables at version zero. -/
theorem agrees_of_inputs (apart : Apart among)
    (each : ∀ v c, model.get? v = some c → v.version = some 0 → among v.base ∧ env v.base = c) :
    ∀ mock ∈ inputMocks model, mock.Agrees among env := by
  intro mock member
  obtain ⟨⟨actor, table⟩, listed, rfl⟩ := List.mem_map.1 member
  intro values only
  obtain rfl := List.mem_singleton.1 only
  refine lists_of_byActor apart (fun v c inside => ?_) listed
  obtain ⟨entry, first⟩ := List.mem_filter.1 inside
  exact each v c (SortedMap.get?_eq_some_iff.2 entry) (by simpa using first)

/-- A value at a state is known, or the value that the model has for a variable. -/
theorem get?_valuesAt {v : Variable} {c : Constant}
    (found : (valuesAt a s model).get? v = some c) :
    (a.values s).get? v = some c ∨ v.version = none ∧ modelValue? a s model v = some c := by
  refine List.foldlRecOn
    (motive := fun values : Model => values.get? v = some c →
      (a.values s).get? v = some c ∨ v.version = none ∧ modelValue? a s model v = some c)
    (SortedSet.ofList (model.keys.map Variable.base)).toList _ Or.inl
    (fun values before base member given => ?_) found
  split at given
  · exact before given
  · split at given
    · rename_i d value
      rw [SortedMap.get?_insert] at given
      split at given
      · rename_i same
        obtain rfl := Option.some.inj given
        obtain ⟨w, _, rfl⟩ := List.mem_map.1 (SortedSet.mem_ofList.1 member)
        exact Or.inr (same ▸ ⟨rfl, value⟩)
      · exact before given
    · exact before given

/-! ### How a witness is built -/

/-- A witness has a step for each state on the path to the violation. -/
theorem build_eq_ok {task : Task} {reached : List σ} {accessibility : Accessibility}
    {violations : SortedSet Property} {witness : ErrorWitness} {provenance : Provenance}
    (known : a.provenance target = some provenance)
    (built : build a task reached accessibility target violations model = .ok witness) :
    ∃ path, accessibility.pathTo provenance.id = .ok path ∧
      List.Forall₂ (fun id step => ∃ timestamp s, (statesById a reached).get? id = some s ∧
        step = stepOf a model id timestamp s) path witness.steps ∧
      witness.mocks = inputMocks model := by
  unfold build at built
  simp only [known] at built
  obtain ⟨path, found, built⟩ := bind_eq_ok_iff.1 built
  obtain ⟨steps, each, built⟩ := bind_eq_ok_iff.1 built
  obtain rfl := pure_eq_ok_iff.1 built
  refine ⟨path, found, ?_, rfl⟩
  have shown : List.Forall₂ (fun entry step => ∃ timestamp s,
      (statesById a reached).get? entry.1 = some s ∧ step = stepOf a model entry.1 timestamp s)
      path.zipIdx steps := by
    refine (mapM_eq_ok_iff.1 each).imp fun entry step given => ?_
    unfold stepById at given
    split at given
    · rename_i s state
      exact ⟨entry.2, s, state, (Except.ok.inj given).symm⟩
    · cases given
  have firsts := (List.forall₂_map_left_iff (f := Prod.fst) (l := path.zipIdx) (u := steps)
    (R := fun id step => ∃ timestamp s, (statesById a reached).get? id = some s ∧
      step = stepOf a model id timestamp s)).2 shown
  rwa [List.zipIdx_map_fst] at firsts

end ErrorWitness

end EventCheck
