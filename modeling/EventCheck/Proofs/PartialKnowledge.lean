import EventCheck.Proofs.Enumeration
import EventCheck.Proofs.TypeSoundness

/-!
Evaluation is monotone in what is known. A connective may be decided by one operand alone, but both
operands are evaluated, and the errors of either count. So as variables become known a value stays
what it is or gives way to an error, and an error stays an error.
-/

namespace EventCheck

namespace Expression

variable {known more : Variable → Option Constant} {a b a' b' later : Option Constant}
variable {e : Expression}

/-! ### Errors stay -/

theorem exists_truthOf_of_refines {q : Option Bool} (refined : Refines a b)
    (truth : truthOf b = .ok q) : ∃ p, truthOf a = .ok p := by
  cases a with
  | none => exact ⟨none, rfl⟩
  | some c =>
    obtain rfl := refined c rfl
    exact ⟨q, truth⟩

theorem exists_onIntegers_of_refines {f : Int → Int → Except Error Constant}
    (left : Refines a a') (right : Refines b b') (applied : onIntegers f a' b' = .ok later) :
    ∃ earlier, onIntegers f a b = .ok earlier := by
  cases a with
  | none => exact ⟨none, rfl⟩
  | some x =>
    cases b with
    | none => exact ⟨none, by cases x <;> rfl⟩
    | some y =>
      obtain rfl := left x rfl
      obtain rfl := right y rfl
      exact ⟨later, applied⟩

/-- Operands that an operator accepts were accepted when less was known of them. -/
theorem exists_apply_of_refines {op : BinaryOp} (left : Refines a a') (right : Refines b b')
    (applied : op.apply a' b' = .ok later) : ∃ earlier, op.apply a b = .ok earlier := by
  cases op with
  | add | sub | mul | div | mod | lt => exact exists_onIntegers_of_refines left right applied
  | eq => exact ⟨_, rfl⟩
  | and =>
    obtain ⟨_, first, _, second, _⟩ := apply_and_eq_ok_iff.1 applied
    obtain ⟨p, truth⟩ := exists_truthOf_of_refines left first
    obtain ⟨q, other⟩ := exists_truthOf_of_refines right second
    exact ⟨_, apply_and_eq_ok_iff.2 ⟨p, truth, q, other, rfl⟩⟩
  | or =>
    obtain ⟨_, first, _, second, _⟩ := apply_or_eq_ok_iff.1 applied
    obtain ⟨p, truth⟩ := exists_truthOf_of_refines left first
    obtain ⟨q, other⟩ := exists_truthOf_of_refines right second
    exact ⟨_, apply_or_eq_ok_iff.2 ⟨p, truth, q, other, rfl⟩⟩

/-- An expression without an error had none when less was known. -/
theorem exists_eval_of_refines (refined : ∀ v, Refines (known v) (more v))
    (value : e.eval more = .ok later) : ∃ earlier, e.eval known = .ok earlier := by
  induction e generalizing later with
  | var v => exact ⟨known v, eval_var v⟩
  | const c => exact ⟨some c, eval_const c⟩
  | not operand ih =>
    obtain ⟨_, second, _, truth, _⟩ := eval_not_eq_ok_iff.1 value
    obtain ⟨a, first⟩ := ih second
    obtain ⟨p, before⟩ := exists_truthOf_of_refines (eval_refines refined first second) truth
    exact ⟨_, eval_not_eq_ok_iff.2 ⟨a, first, p, before, rfl⟩⟩
  | binary op lhs rhs left right =>
    obtain ⟨_, leftLater, _, rightLater, applied⟩ := eval_binary_eq_ok_iff.1 value
    obtain ⟨a, leftEarlier⟩ := left leftLater
    obtain ⟨b, rightEarlier⟩ := right rightLater
    obtain ⟨earlier, before⟩ :=
      exists_apply_of_refines (eval_refines refined leftEarlier leftLater)
        (eval_refines refined rightEarlier rightLater) applied
    exact ⟨earlier, eval_binary_eq_ok_iff.2 ⟨a, leftEarlier, b, rightEarlier, before⟩⟩

theorem exists_error_of_refines {error : Error} (refined : ∀ v, Refines (known v) (more v))
    (fails : e.eval known = .error error) : ∃ other, e.eval more = .error other := by
  cases second : e.eval more with
  | error other => exact ⟨other, rfl⟩
  | ok later =>
    obtain ⟨earlier, first⟩ := exists_eval_of_refines refined second
    cases fails.symm.trans first

/-- A value stays unless it gives way to an error. -/
theorem eval_of_refines {c : Constant} (refined : ∀ v, Refines (known v) (more v))
    (value : e.eval known = .ok (some c)) :
    e.eval more = .ok (some c) ∨ ∃ error, e.eval more = .error error := by
  cases second : e.eval more with
  | error error => exact Or.inr ⟨error, rfl⟩
  | ok later => exact Or.inl (by rw [eval_refines refined value second c rfl])

/-! ### Nothing is contradicted -/

/-- A literal that is decided is not decided otherwise later. -/
theorem literalHolds_of_refines {l : Literal} {b : Bool}
    (refined : ∀ v, Refines (known v) (more v))
    (decided : Enumeration.literalHolds known l = some b) :
    Enumeration.literalHolds more l ≠ some (!b) := by
  intro opposite
  have value := Enumeration.literalHolds_eq_some_iff.1 decided
  rcases eval_of_refines refined value with stays | ⟨error, fails⟩
  · have same := stays.symm.trans (Enumeration.literalHolds_eq_some_iff.1 opposite)
    cases b <;> cases positive : l.positive <;> simp [positive] at same
  · cases fails.symm.trans (Enumeration.literalHolds_eq_some_iff.1 opposite)

/-- Evaluation with more known bears out evaluation with less: a value stays or gives way to an
error, and an error stays an error, if not the same one. So no literal is decided otherwise later,
and a cube that the values forced on some variables refute holds with no values of the others. -/
theorem eval_monotone (refined : ∀ v, Refines (known v) (more v)) :
    (∀ e : Expression,
      match e.eval known with
      | .ok (some c) => e.eval more = .ok (some c) ∨ ∃ error, e.eval more = .error error
      | .ok none => True
      | .error _ => ∃ error, e.eval more = .error error) ∧
    (∀ (l : Literal) (b : Bool), Enumeration.literalHolds known l = some b →
      Enumeration.literalHolds more l ≠ some (!b)) ∧
    ∀ cube : Cube, Enumeration.allHold known cube.toList = some false →
      Enumeration.allHold more cube.toList ≠ some true := by
  refine ⟨fun e => ?_, fun l b => literalHolds_of_refines refined, fun cube refuted holds => ?_⟩
  · split
    · exact eval_of_refines refined ‹_›
    · trivial
    · exact exists_error_of_refines refined ‹_›
  · obtain ⟨l, member, fails⟩ := Enumeration.allHold_eq_false_iff.1 refuted
    exact literalHolds_of_refines refined fails (Enumeration.allHold_eq_true_iff.1 holds l member)

/-- Knows that the flag is set, and nothing else. -/
def flagOnly (v : Variable) : Option Constant := if v = flag then some (.bool true) else none

theorem refines_knowing (n : Int) (v : Variable) : Refines (flagOnly v) (knowing n v) := by
  intro c decided
  unfold flagOnly at decided
  split at decided
  · subst_vars
    exact decided
  · cases decided

/-- The flag decides. When the divisor is known, too, the value stays or there is an error, and then
there is one whatever else is known. -/
theorem eval_monotone_quotientBelow :
    (∀ n v, Refines (flagOnly v) (knowing n v)) ∧
      quotientBelow.eval flagOnly = .ok (some (.bool true)) ∧
      (∀ n, quotientBelow.eval (knowing n) = .ok (some (.bool true)) ∨
        ∃ error, quotientBelow.eval (knowing n) = .error error) ∧
      quotientBelow.eval (knowing 3) = .ok (some (.bool true)) ∧
      quotientBelow.eval (knowing 0) = .error .divisionByZero ∧
      ∀ more, (∀ v, Refines (knowing 0 v) (more v)) →
        ∃ error, quotientBelow.eval more = .error error := by
  have decided : quotientBelow.eval flagOnly = .ok (some (.bool true)) := rfl
  have divides : quotientBelow.eval (knowing 0) = .error .divisionByZero := rfl
  refine ⟨refines_knowing, decided, fun n => ?_, rfl, divides, fun more refined => ?_⟩
  · have stays := (eval_monotone (refines_knowing n)).1 quotientBelow
    rwa [decided] at stays
  · have fails := (eval_monotone refined).1 quotientBelow
    rwa [divides] at fails

end Expression

end EventCheck
