import EventCheck.Solver.Basic

/-!
A solver that looks for models by trying values. In each cube, equations that force the value
of a variable are used first. The variables left over are enumerated: truth values
exhaustively, integers and texts over candidates drawn from the constants of the cube. A model
found proves the cube satisfiable; that there is none is only concluded if every variable
enumerated is a truth value.
-/

namespace EventCheck

namespace Enumeration

/-- How many assignments are tried for a cube at most. -/
def maxAssignments : Nat := 16384

/-- Whether a literal holds, if its value is known. -/
def literalHolds (lookup : Variable → Option Constant) (l : Literal) : Option Bool :=
  match l.atom.eval lookup with
  | .ok (some (.bool b)) => some (b == l.positive)
  | _ => none

/-- The value of an expression, if it has one. -/
def knownValue (m : Model) (e : Expression) : Option Constant :=
  match e.eval m.get? with
  | .ok value => value
  | .error _ => none

/-- A variable and the value that the literal forces on it. A literal that is a variable forces
its polarity. A positive equation with an unassigned variable on one side forces the value of
the other side, the left variable being looked at first. -/
def forced? (m : Model) (l : Literal) : Option (Variable × Constant) :=
  match l.atom, l.positive with
  | .var v, positive => some (v, .bool positive)
  | .binary .eq lhs rhs, true =>
    match lhs.asVariable?.filter (!m.contains ·), rhs.asVariable?.filter (!m.contains ·) with
    | some v, _ => (knownValue m rhs).map (v, ·)
    | none, some v => (knownValue m lhs).map (v, ·)
    | none, none => none
  | _, _ => none

/-- Assigns the value that the literal forces, unless the variable has one. -/
def force (m : Model) (l : Literal) : Model :=
  match forced? m l with
  | some (v, c) => if m.contains v then m else m.insert v c
  | none => m

/-- Goes through the cube until nothing more is forced, at most the given number of times. -/
def settle (c : Cube) : Nat → Model → Model
  | 0, m => m
  | rounds + 1, m =>
    let next := c.toList.foldl force m
    if next.size = m.size then m else settle c rounds next

def cubeVariables (c : Cube) : SortedSet Variable :=
  .unionMap c.toList fun l => l.atom.variables

def cubeConstants (c : Cube) : SortedSet Constant :=
  .unionMap c.toList fun l => l.atom.constants

/-- The values that the cube forces. Each round but the last assigns a variable. -/
def propagate (c : Cube) : Model := settle c (cubeVariables c).size ∅

/-- The integers from `-n` to `n`. -/
def integersWithin (n : Nat) : SortedSet Int where
  toList := (List.range (2 * n + 1)).map fun (i : Nat) => (i : Int) - n
  increasing := by
    refine List.pairwise_map.2 (List.pairwise_lt_range.imp ?_)
    intro i j less
    have shifted : (i : Int) - n < (j : Int) - n := by omega
    simp [compare, compareOfLessAndEq, shifted]

/-- The integers tried: those up to the range, and the constants of the cube with their
neighbours. -/
def integerCandidates (range : Nat) (constants : List Constant) : SortedSet Int :=
  (constants.filterMap Constant.asInt?).foldl (fun values n =>
    ((values.insert (n - 1)).insert n).insert (n + 1)) (integersWithin range)

/-- The texts tried: those of the cube, the empty one and one that occurs nowhere. -/
def textCandidates (constants : List Constant) : SortedSet String :=
  .ofList ("" :: "\x00fresh" :: constants.filterMap Constant.asStr?)

/-- The values tried for a variable of the given type, in order. -/
def candidates (range : Nat) (constants : List Constant) : DataType → List Constant
  | .bool => [.bool false, .bool true]
  | .int => (integerCandidates range constants).toList.map .int
  | .string => (textCandidates constants).toList.map .str

/-- The variables to enumerate, each with its candidates. -/
abbrev Choices := List (Variable × Array Constant)

/-- How many assignments there are. -/
def Choices.count (choices : Choices) : Nat := choices.foldl (fun n choice => n * choice.2.size) 1

/-- The assignment with the given number, the choice for the first variable changing fastest. -/
def Choices.assignment : Choices → Nat → List (Variable × Constant)
  | [], _ => []
  | (v, values) :: rest, index =>
    match values[index % values.size]? with
    | some c => (v, c) :: Choices.assignment rest (index / values.size)
    | none => Choices.assignment rest (index / values.size)

/-- Looks a variable up in an assignment, then among the forced values. -/
def lookupIn (m : Model) (chosen : List (Variable × Constant)) (v : Variable) : Option Constant :=
  match chosen.find? (·.1 == v) with
  | some (_, c) => some c
  | none => m.get? v

/-- Whether all literals hold; one that does not decides even if others are unknown. -/
def allHold (lookup : Variable → Option Constant) : List Literal → Option Bool
  | [] => some true
  | l :: rest =>
    match literalHolds lookup l with
    | some true => allHold lookup rest
    | some false => some false
    | none => if allHold lookup rest = some false then some false else none

/-- What the search says of a cube. -/
inductive Outcome where
  | model (m : Model)
  | none
  | undecided
deriving DecidableEq

def Outcome.result : Outcome → SatResult
  | model _ => .sat
  | none => .unsat
  | undecided => .unknown

def Outcome.model? : Outcome → Option Model
  | model m => some m
  | _ => Option.none

/-- Tries the given number of assignments, from the one with number `index`. If none is a model
the outcome is `rest`, unless some assignment left a literal unknown. -/
def tryAssignments (c : Cube) (m : Model) (choices : Choices) (rest : Outcome) :
    Nat → Nat → Outcome
  | 0, _ => rest
  | remaining + 1, index =>
    let chosen := choices.assignment index
    match allHold (lookupIn m chosen) c.toList with
    | some true => .model (chosen.foldl (fun m (v, value) => m.insert v value) m)
    | some false => tryAssignments c m choices rest remaining (index + 1)
    | none => tryAssignments c m choices .undecided remaining (index + 1)

/-- Decides a cube as far as trying values can. -/
def checkCube (range : Nat) (c : Cube) : Outcome :=
  let m := propagate c
  if c.toList.any fun l => literalHolds m.get? l = some false then .none
  else
    let free := (cubeVariables c).toList.filter (!m.contains ·)
    let constants := (cubeConstants c).toList
    let choices : Choices := free.map fun v => (v, (candidates range constants v.dataType).toArray)
    let complete := free.all (·.dataType == .bool) && choices.count ≤ maxAssignments
    tryAssignments c m choices (if complete then .none else .undecided)
      (min choices.count maxAssignments) 0

/-- A disjunction is satisfiable if a cube is, and unsatisfiable if all cubes are. -/
def checkCubes (range : Nat) : List Cube → SatResult
  | [] => .unsat
  | c :: rest =>
    match (checkCube range c).result with
    | .sat => .sat
    | .unsat => checkCubes range rest
    | .unknown => if checkCubes range rest = .sat then .sat else .unknown

def check (range : Nat) (f : Formula) : SatResult := checkCubes range f.cubes.toList

/-- The model of the first cube that has one. -/
def model (range : Nat) (f : Formula) : Option Model :=
  f.cubes.toList.findSome? fun c => (checkCube range c).model?

end Enumeration

/-- The solver that tries integers up to the range. -/
def Solver.enumeration (range : Nat) : Solver where
  check := Enumeration.check range
  model := Enumeration.model range

end EventCheck
