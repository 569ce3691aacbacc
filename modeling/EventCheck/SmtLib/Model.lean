import EventCheck.SmtLib.Script
import EventCheck.SmtLib.Tree
import EventCheck.Text.Numeral

/-!
Models as SMT-LIB solvers print them: a list of definitions of symbols without parameters.
-/

namespace EventCheck.SmtLib

/-- The integer that a tree denotes: a numeral, or one negated any number of times. -/
def integer? : Tree → Option Int
  | .atom text => Text.readInt text.toList
  | .list [.atom "-", operand] => (integer? operand).map (- ·)
  | _ => none

/-- The constant of the given type that a tree denotes. -/
def constant? (tree : Tree) : DataType → Option Constant
  | .int => (integer? tree).map .int
  | .bool =>
    match tree with
    | .atom "true" => some (.bool true)
    | .atom "false" => some (.bool false)
    | _ => none
  | .string =>
    match tree with
    | .string text => some (.str text)
    | _ => none

/-- Adds what a definition says. Other trees, unknown symbols and values that are no constants
are passed over. -/
def define (byName : SortedMap String Variable) (m : Model) : Tree → Model
  | .list [.atom "define-fun", .atom name, .list [], _, value] =>
    match byName.get? name with
    | some v =>
      match constant? value v.dataType with
      | some c => m.insert v c
      | none => m
    | none => m
  | _ => m

/-- The model in the last list of the text. Of two variables with one symbol the later one
stands. -/
def readModel (output : String) (wanted : SortedSet Variable) : Option Model := do
  let byName := SortedMap.ofList (wanted.toList.map fun v => (symbolName v, v))
  match (← trees output.toList).getLast? with
  | some (.list definitions) => return definitions.foldl (define byName) ∅
  | _ => none

end EventCheck.SmtLib
