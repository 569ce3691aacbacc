import EventCheck.Analysis.Context
import Mathlib.Data.List.Forall2

/-!
When computations that may fail give a result, step by step of the computation.
-/

namespace EventCheck

universe u

section Except

variable {α β : Type u}

theorem bind_eq_ok_iff {x : Except Error α} {f : α → Except Error β} {b : β} :
    (x >>= f) = .ok b ↔ ∃ a, x = .ok a ∧ f a = .ok b := by
  cases x <;> simp [bind, Except.bind]

theorem pure_eq_ok_iff {a b : α} : (pure a : Except Error α) = .ok b ↔ a = b := by
  simp [pure, Except.pure]

theorem map_eq_ok_iff {x : Except Error α} {f : α → β} {b : β} :
    f <$> x = .ok b ↔ ∃ a, x = .ok a ∧ f a = b := by
  cases x <;> simp [Functor.map, Except.map]

theorem toOption_eq_some_iff {x : Except Error α} {a : α} : x.toOption = some a ↔ x = .ok a := by
  cases x <;> simp [Except.toOption]

/-- The results of a list, element by element. -/
theorem mapM_eq_ok_iff {f : α → Except Error β} {elements : List α} {results : List β} :
    elements.mapM f = .ok results ↔ List.Forall₂ (fun a b => f a = .ok b) elements results := by
  induction elements generalizing results with
  | nil =>
    rw [List.mapM_nil, pure_eq_ok_iff]
    cases results <;> simp
  | cons a rest ih =>
    simp only [List.mapM_cons, bind_eq_ok_iff, pure_eq_ok_iff, ih]
    constructor
    · rintro ⟨b, first, later, all, rfl⟩
      exact .cons first all
    · rintro (_ | ⟨first, all⟩)
      exact ⟨_, first, _, all, rfl⟩

end Except

section Forall₂

variable {α β γ : Type u} {r : α → β → Prop} {first : List α} {second : List β} {index : Nat}

theorem exists_left_of_mem (all : List.Forall₂ r first second) {b : β} (member : b ∈ second) :
    ∃ a ∈ first, r a b := by
  induction all with
  | nil => simp at member
  | cons related _ ih =>
    rcases List.mem_cons.1 member with rfl | later
    · exact ⟨_, by simp, related⟩
    · obtain ⟨a, inside, found⟩ := ih later
      exact ⟨a, by simp [inside], found⟩

theorem exists_right_of_mem (all : List.Forall₂ r first second) {a : α} (member : a ∈ first) :
    ∃ b ∈ second, r a b := by
  induction all with
  | nil => simp at member
  | cons related _ ih =>
    rcases List.mem_cons.1 member with rfl | later
    · exact ⟨_, by simp, related⟩
    · obtain ⟨b, inside, found⟩ := ih later
      exact ⟨b, by simp [inside], found⟩

theorem forall₂_comp {s : β → γ → Prop} {q : α → γ → Prop} {third : List γ}
    (each : ∀ a b c, r a b → s b c → q a c) (left : List.Forall₂ r first second)
    (right : List.Forall₂ s second third) : List.Forall₂ q first third := by
  induction left generalizing third with
  | nil =>
    cases right
    exact .nil
  | cons here _ ih =>
    obtain _ | ⟨there, rest⟩ := right
    exact .cons (each _ _ _ here there) (ih rest)

theorem exists_right_of_getElem? (all : List.Forall₂ r first second) {a : α}
    (found : first[index]? = some a) : ∃ b, second[index]? = some b ∧ r a b := by
  induction all generalizing index with
  | nil => simp at found
  | cons related _ ih =>
    cases index with
    | zero =>
      obtain rfl := Option.some.inj found
      exact ⟨_, rfl, related⟩
    | succ index => exact ih found

theorem exists_left_of_getElem? (all : List.Forall₂ r first second) {b : β}
    (found : second[index]? = some b) : ∃ a, first[index]? = some a ∧ r a b :=
  exists_right_of_getElem? all.flip found

theorem forall₂_modify {q : α → α → Prop} {f : α → α} {elements : List α} (same : ∀ a, q a a)
    (here : ∀ a, elements[index]? = some a → q a (f a)) :
    List.Forall₂ q elements (elements.modify index f) := by
  induction elements generalizing index with
  | nil => simp
  | cons a rest ih =>
    cases index with
    | zero => exact .cons (here a rfl) (List.forall₂_same.2 fun b _ => same b)
    | succ index => exact .cons (same a) (ih here)

/-- If each element is an image, the list is the image of a list. -/
theorem exists_map_eq {p : α → Prop} {f : α → β} (each : ∀ b ∈ second, ∃ a, p a ∧ f a = b) :
    ∃ elements : List α, (∀ a ∈ elements, p a) ∧ elements.map f = second := by
  induction second with
  | nil => exact ⟨[], by simp, rfl⟩
  | cons b rest ih =>
    obtain ⟨a, holds, same⟩ := each b (by simp)
    obtain ⟨elements, all, equal⟩ := ih fun c member => each c (by simp [member])
    exact ⟨a :: elements, List.forall_mem_cons.2 ⟨holds, all⟩, by rw [List.map_cons, same, equal]⟩

end Forall₂

/-- A computation that changes a state in place. What it has changed before it fails stays
changed. -/
abbrev InPlace (σ : Type) := ExceptT Error (StateM σ)

namespace InPlace

variable {σ α β : Type} {s : σ}

/-- The outcome of the computation and the state that it ends with. -/
def outcome (x : InPlace σ α) (s : σ) : Except Error α × σ := x.run.run s

theorem outcome_bind {x : InPlace σ α} {f : α → InPlace σ β} :
    (x >>= f).outcome s =
      match x.outcome s with
      | (.ok a, next) => (f a).outcome next
      | (.error error, next) => (.error error, next) := by
  show (ExceptT.bindCont f (x s).1 : StateM σ _) (x s).2 =
    match (x s : Except Error α × σ) with
    | (.ok a, next) => (f a).outcome next
    | (.error error, next) => (.error error, next)
  rcases (x s : Except Error α × σ) with ⟨_ | _, _⟩ <;> rfl

theorem outcome_get : (get : InPlace σ σ).outcome s = (.ok s, s) := rfl

theorem outcome_modify {f : σ → σ} : (modify f : InPlace σ PUnit).outcome s = (.ok (), f s) := rfl

end InPlace

namespace Run

variable {α β : Type}

/-- The outcome of the computation begun in a context, and the context that it ends in. -/
def outcome (x : Run α) (before : Context) : Except Error α × Context := x.run.run before

/-- The computation, begun in the first context, gives the result and ends in the second. -/
def Yields (x : Run α) (before : Context) (a : α) (after : Context) : Prop :=
  x.outcome before = (.ok a, after)

variable {before after : Context}

theorem yields_pure {a b : α} : (pure a : Run α).Yields before b after ↔ a = b ∧ before = after := by
  rw [Yields, show (pure a : Run α).outcome before = (.ok a, before) from rfl, Prod.mk.injEq,
    Except.ok.injEq]

theorem not_yields_throw {error : Error} {a : α} :
    ¬(throw error : Run α).Yields before a after := by
  intro given
  cases (Prod.mk.inj given).1

theorem outcome_bind {x : Run α} {f : α → Run β} :
    (x >>= f).outcome before =
      match x.outcome before with
      | (.ok a, middle) => (f a).outcome middle
      | (.error error, middle) => (.error error, middle) := by
  refine (InPlace.outcome_bind (x := x) (f := f)).trans ?_
  unfold InPlace.outcome outcome
  rcases x.run.run before with ⟨_ | _, _⟩ <;> rfl

theorem yields_bind {x : Run α} {f : α → Run β} {b : β} :
    (x >>= f).Yields before b after ↔
      ∃ a middle, x.Yields before a middle ∧ (f a).Yields middle b after := by
  unfold Yields
  rw [outcome_bind]
  rcases x.outcome before with ⟨error | a, middle⟩
  · simp
  · constructor
    · exact fun given => ⟨a, middle, rfl, given⟩
    · rintro ⟨a, middle, same, given⟩
      cases same
      exact given

theorem yields_ofExcept {x : Except Error α} {a : α} :
    (Run.ofExcept x).Yields before a after ↔ x = .ok a ∧ before = after := by
  cases x with
  | ok b => simp [ofExcept, yields_pure]
  | error e => simp [ofExcept, not_yields_throw]

theorem yields_newState {id : Nat} :
    newState.Yields before id after ↔
      before.states = id ∧ { before with states := before.states + 1 } = after := by
  rw [Yields, show newState.outcome before =
    (.ok before.states, { before with states := before.states + 1 }) from rfl, Prod.mk.injEq,
    Except.ok.injEq]

theorem yields_newStep {step : Nat} :
    newStep.Yields before step after ↔
      before.steps = step ∧ { before with steps := before.steps + 1 } = after := by
  rw [Yields, show newStep.outcome before =
    (.ok before.steps, { before with steps := before.steps + 1 }) from rfl, Prod.mk.injEq,
    Except.ok.injEq]

theorem yields_newThreads {count first : Nat} :
    (newThreads count).Yields before first after ↔
      before.threads = first ∧ { before with threads := before.threads + count } = after := by
  rw [Yields, show (newThreads count).outcome before =
    (.ok before.threads, { before with threads := before.threads + count }) from rfl,
    Prod.mk.injEq, Except.ok.injEq]

theorem yields_report {caveat : Caveat} {u : Unit} :
    (report caveat).Yields before u after ↔
      { before with caveats := before.caveats.insert caveat } = after := by
  rw [Yields, show (report caveat).outcome before =
    (.ok (), { before with caveats := before.caveats.insert caveat }) from rfl, Prod.mk.injEq]
  simp

theorem yields_count {f : Statistics → Statistics} {u : Unit} :
    (count f).Yields before u after ↔
      { before with statistics := f before.statistics } = after := by
  rw [Yields, show (count f).outcome before =
    (.ok (), { before with statistics := f before.statistics }) from rfl, Prod.mk.injEq]
  simp

/-- The results of a list, element by element; what one computation does to the context the next
one begins with. -/
theorem forall₂_of_yields_mapM {f : α → Run β} {elements : List α} {results : List β}
    (given : (elements.mapM f).Yields before results after) :
    List.Forall₂ (fun a b => ∃ c d, (f a).Yields c b d) elements results := by
  induction elements generalizing before results with
  | nil =>
    rw [List.mapM_nil, yields_pure] at given
    rw [← given.1]
    exact .nil
  | cons a rest ih =>
    simp only [List.mapM_cons, yields_bind, yields_pure] at given
    obtain ⟨b, middle, first, later, last, all, rfl, rfl⟩ := given
    exact .cons ⟨_, _, first⟩ (ih all)

/-- The computation hands out no numbers of states. -/
def KeepsStates (x : Run α) : Prop :=
  ∀ before a after, x.Yields before a after → after.states = before.states

theorem KeepsStates.pure (a : α) : (Pure.pure a : Run α).KeepsStates := by
  intro before b after given
  rw [(yields_pure.1 given).2]

theorem KeepsStates.bind {x : Run α} {f : α → Run β} (first : x.KeepsStates)
    (later : ∀ a, (f a).KeepsStates) : (x >>= f).KeepsStates := by
  intro before b after given
  obtain ⟨a, middle, one, other⟩ := yields_bind.1 given
  exact (later a middle b after other).trans (first before a middle one)

theorem keepsStates_ofExcept (x : Except Error α) : (Run.ofExcept x).KeepsStates := by
  intro before a after given
  rw [(yields_ofExcept.1 given).2]

theorem keepsStates_newStep : newStep.KeepsStates := by
  intro before step after given
  obtain ⟨_, rfl⟩ := yields_newStep.1 given
  rfl

theorem keepsStates_report (caveat : Caveat) : (report caveat).KeepsStates := by
  intro before u after given
  obtain rfl := yields_report.1 given
  rfl

theorem KeepsStates.mapM {f : α → Run β} (each : ∀ a, (f a).KeepsStates) (elements : List α) :
    (elements.mapM f).KeepsStates := by
  induction elements with
  | nil =>
    rw [List.mapM_nil]
    exact .pure []
  | cons a rest ih =>
    rw [List.mapM_cons]
    exact (each a).bind fun b => ih.bind fun later => .pure _

end Run

end EventCheck
