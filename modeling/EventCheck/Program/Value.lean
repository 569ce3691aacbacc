import EventCheck.Sorted.Order
import EventCheck.Text.Quoted

/-!
The values of a program and their types: unbounded integers, truth values and texts.
-/

namespace EventCheck

/-- The type of a value. -/
inductive DataType where
  | int
  | bool
  | string
deriving DecidableEq, Repr, Inhabited

namespace DataType

/-- Types are ordered as they are declared. -/
def rank : DataType → Nat
  | int => 0
  | bool => 1
  | string => 2

instance : Ord DataType := ⟨compareOn rank⟩

instance : Std.TransOrd DataType := inferInstanceAs (Std.TransCmp (compareOn rank))

instance : Std.LawfulEqOrd DataType where
  compare_self := cmp_self (compareOn rank)
  eq_of_compare {a b} same := by
    have := Std.LawfulEqOrd.eq_of_compare (α := Nat) same
    cases a <;> cases b <;> simp [rank] at this ⊢

def text : DataType → String
  | int => "int"
  | bool => "bool"
  | string => "string"

end DataType

/-- A value of the program. -/
inductive Constant where
  | int (value : Int)
  | bool (value : Bool)
  | str (value : String)
deriving DecidableEq, Repr, Inhabited

namespace Constant

def dataType : Constant → DataType
  | int _ => .int
  | bool _ => .bool
  | str _ => .string

def asInt? : Constant → Option Int
  | int value => some value
  | _ => none

def asBool? : Constant → Option Bool
  | bool value => some value
  | _ => none

def asStr? : Constant → Option String
  | str value => some value
  | _ => none

/-- Values are ordered by type, then among their own kind. -/
def order : Constant → Constant → Ordering :=
  compareLex (compareOn dataType)
    (compareLex (compareOn asInt?) (compareLex (compareOn asBool?) (compareOn asStr?)))

instance : Ord Constant := ⟨order⟩

instance : Std.TransOrd Constant := inferInstanceAs (Std.TransCmp
  (compareLex (compareOn dataType)
    (compareLex (compareOn asInt?) (compareLex (compareOn asBool?) (compareOn asStr?)))))

instance : Std.LawfulEqOrd Constant where
  compare_self := cmp_self (compareLex (compareOn dataType)
    (compareLex (compareOn asInt?) (compareLex (compareOn asBool?) (compareOn asStr?))))
  eq_of_compare {a b} same := by
    have same : order a b = .eq := same
    simp only [order, compareLex, compareOn, Ordering.then_eq_eq] at same
    obtain ⟨types, ints, bools, strs⟩ := same
    have ints := Std.LawfulEqOrd.eq_of_compare (α := Option Int) ints
    have bools := Std.LawfulEqOrd.eq_of_compare (α := Option Bool) bools
    have strs := Std.LawfulEqOrd.eq_of_compare (α := Option String) strs
    cases a <;> cases b <;> simp_all [asInt?, asBool?, asStr?]

/-- Integers in decimal, truth values as words, texts in quotes. -/
def text : Constant → String
  | int value => toString value
  | bool true => "true"
  | bool false => "false"
  | str value => Text.quoted value

end Constant

/-- What a newly declared variable of the type holds. -/
def DataType.default : DataType → Constant
  | int => .int 0
  | bool => .bool false
  | string => .str ""

theorem DataType.dataType_default (type : DataType) : type.default.dataType = type := by
  cases type <;> rfl

end EventCheck
