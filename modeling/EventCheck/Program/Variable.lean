import EventCheck.Program.Value

/-!
Variables of a program. A name may be qualified by the actor that owns it, as in `Cat.score`;
along a path a variable also carries the number of the write that it stands for, so `x@3` and
`x@4` are different symbols.
-/

namespace EventCheck

/-- A variable, at one of its versions or at none. -/
structure Variable where
  name : String
  dataType : DataType
  version : Option Nat := none
deriving DecidableEq, Repr, Inhabited

namespace Variable

/-- Variables are ordered by name, type and version; no version comes first. -/
def order : Variable → Variable → Ordering :=
  compareLex (compareOn name) (compareLex (compareOn dataType) (compareOn version))

instance : Ord Variable := ⟨order⟩

instance : Std.TransOrd Variable := inferInstanceAs (Std.TransCmp
  (compareLex (compareOn name) (compareLex (compareOn dataType) (compareOn version))))

instance : Std.LawfulEqOrd Variable where
  compare_self := cmp_self
    (compareLex (compareOn name) (compareLex (compareOn dataType) (compareOn version)))
  eq_of_compare {a b} same := by
    have same : order a b = .eq := same
    simp only [order, compareLex, compareOn, Ordering.then_eq_eq] at same
    obtain ⟨names, types, versions⟩ := same
    have names := Std.LawfulEqOrd.eq_of_compare (α := String) names
    have types := Std.LawfulEqOrd.eq_of_compare (α := DataType) types
    have versions := Std.LawfulEqOrd.eq_of_compare (α := Option Nat) versions
    cases a; cases b; simp_all

/-- The variable at the given version. -/
def atVersion (v : Variable) (version : Nat) : Variable := { v with version := some version }

/-- The variable without its version. -/
def base (v : Variable) : Variable := { v with version := none }

@[simp] theorem base_atVersion (v : Variable) (n : Nat) : (v.atVersion n).base = v.base := rfl

@[simp] theorem version_atVersion (v : Variable) (n : Nat) : (v.atVersion n).version = some n := rfl

@[simp] theorem dataType_atVersion (v : Variable) (n : Nat) :
    (v.atVersion n).dataType = v.dataType := rfl

/-- The owner of variables whose name has no qualifier. -/
def stageActor : String := "Stage"

/-- The name's parts before and after its first dot, if it has one. -/
def qualifier? (v : Variable) : Option (String × String) :=
  let characters := v.name.toList
  match characters.dropWhile (· != '.') with
  | [] => none
  | _ :: rest => some (String.ofList (characters.takeWhile (· != '.')), String.ofList rest)

/-- The actor that owns the variable. -/
def actor (v : Variable) : String := v.qualifier?.elim stageActor (·.1)

/-- The name inside its actor. -/
def localName (v : Variable) : String := v.qualifier?.elim v.name (·.2)

/-- The name together with the version. -/
def identifier (v : Variable) : String :=
  match v.version with
  | none => v.name
  | some version => v.name ++ "@" ++ toString version

def text (v : Variable) : String := v.identifier

end Variable

end EventCheck
