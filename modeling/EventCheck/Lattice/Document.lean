import EventCheck.Lattice.Flat
import EventCheck.Lattice.Formula
import EventCheck.Lattice.ValueMap
import EventCheck.Lattice.VersionMap
import EventCheck.Program.Document

/-!
Models and abstract values as documents: maps are lists of pairs, a formula is an expression or
its list of cubes.
-/

namespace EventCheck

open Json

/-- A list of pairs. -/
def Json.pairs? {α β : Type} (first : Json → Option α) (second : Json → Option β) (value : Json) :
    Option (List (α × β)) := do
  (← elements? value).mapM fun
    | .array parts => do return (← first (part parts 0), ← second (part parts 1))
    | _ => none

/-! ### Models -/

/-- Of two entries for a variable the later one stands. -/
def Model.ofJson? (value : Json) : Option Model :=
  SortedMap.ofList <$> pairs? Variable.ofJson? Constant.ofJson? value

def Model.toJson (m : Model) : Json :=
  .array (m.toList.map fun (v, c) => .array [v.toJson, c.toJson])

/-! ### Formulas -/

def Literal.ofJson : Json → Except Error Literal
  | .array parts => do
    return {
      atom := ← Expression.ofJson (part parts 0)
      positive := ← understood (flag? false (part parts 1)) }
  | _ => .error .malformedText

def Literal.toJson (l : Literal) : Json := .array [l.atom.toJson, .bool l.positive]

namespace Formula

def cubeOfJson (value : Json) : Except Error Cube :=
  SortedSet.ofList <$> do (← understood (elements? value)).mapM Literal.ofJson

/-- The disjunction of cubes, or the formula of an expression. -/
def ofJson : Json → Except Error Formula
  | .object entries => do
    (← (Json.object entries).listField "cubes").foldlM (fun f cube => do
      return f.disjunction (.ofCube (← cubeOfJson cube))) bottom
  | value => do ofExpression (← Expression.ofJson value)

/-- The cubes, each with its literals. -/
def cubesToJson (f : Formula) : Json :=
  .array (f.cubes.toList.map fun c => .array (c.toList.map Literal.toJson))

end Formula

/-! ### Values and versions -/

def Flat.ofJson? : Json → Option (Flat Constant)
  | .string "top" => some .top
  | .string "bottom" => some .bottom
  | constant => Flat.value <$> Constant.ofJson? constant

/-- The entries are set one after the other. -/
def ValueMap.ofJson? : Json → Option ValueMap
  | .string "bottom" => some .bottom
  | value => do
    let entries ← pairs? Variable.ofJson? Flat.ofJson? value
    return entries.foldl (fun m (v, a) => m.set v a) .top

/-- Each variable is written as often as its entry says. -/
def VersionMap.ofJson? (value : Json) : Option VersionMap := do
  let entries ← pairs? Variable.ofJson? word? value
  return entries.foldl (fun m (v, n) => n.repeat (·.bump v) m) ∅

def VersionMap.toJson (m : VersionMap) : Json :=
  .array (m.versions.toList.map fun (v, n) => .array [v.toJson, .int n])

end EventCheck
