import EventCheck.Solver.Basic

/-!
Predicate abstraction: a formula is replaced by what a set of predicates can say of it, as far
as a solver can tell. Boolean abstraction keeps any disjunction of predicate cubes, cartesian
abstraction a single cube.
-/

namespace EventCheck

/-- How much of the predicates an abstraction keeps. -/
inductive AbstractionType where
  | boolean
  | cartesian
deriving DecidableEq, Repr, Inhabited

namespace AbstractionType

def name : AbstractionType → String
  | boolean => "boolean"
  | cartesian => "cartesian"

def ofName (name : String) : Except Error AbstractionType :=
  if name = "boolean" then .ok boolean
  else if name = "cartesian" then .ok cartesian
  else .error (.unknownAbstraction name)

end AbstractionType

/-- Formulas with the solver that decides about them. -/
structure PredicateDomain where
  solver : Solver
  abstraction : AbstractionType

/-- The predicates that an abstraction may use. -/
abbrev Precision := SortedSet Expression

namespace PredicateDomain

/-- Boolean abstraction looks at every cube of predicates, so there must not be more. -/
def maxBooleanPredicates : Nat := 10

/-- A predicate and its negation as formulas. -/
def polarities (predicate : Expression) : Except Error (Formula × Formula) := do
  let positive ← Formula.ofExpression predicate
  let negative ← Formula.ofExpression (← Expression.notChecked predicate)
  return (positive, negative)

/-- Adds the polarity of a predicate that follows from the formula, if one does. -/
def strengthen (solver : Solver) (f : Formula) (result : Formula)
    (predicate : Formula × Formula) : Formula :=
  if solver.isUnsat (f.conjunction predicate.2) then result.conjunction predicate.1
  else if solver.isUnsat (f.conjunction predicate.1) then result.conjunction predicate.2
  else result

/-- The conjunction of the predicates and negated predicates that follow from the formula. -/
def cartesianAbstraction (solver : Solver) (f : Formula) (predicates : Precision) :
    Except Error Formula :=
  if solver.isUnsat f then .ok .bottom
  else do
    let pairs ← predicates.toList.mapM polarities
    return pairs.foldl (strengthen solver f) .top

/-- The conjunctions that take a side of each pair. -/
def combinations (chosen : Formula) : List (Formula × Formula) → List Formula
  | [] => [chosen]
  | (positive, negative) :: rest =>
    if chosen.isFalse then []
    else combinations (chosen.conjunction negative) rest
      ++ combinations (chosen.conjunction positive) rest

/-- The disjunction of the predicate cubes that the formula may meet. -/
def booleanAbstraction (solver : Solver) (f : Formula) (predicates : Precision) :
    Except Error Formula :=
  if predicates.size > maxBooleanPredicates then cartesianAbstraction solver f predicates
  else do
    let pairs ← predicates.toList.mapM polarities
    let met := (combinations .top pairs).filter fun cube =>
      !cube.isFalse && !solver.isUnsat (f.conjunction cube)
    return met.foldl Formula.disjunction .bottom

/-- The strongest combination of the predicates that the formula is known to imply. -/
def widen (domain : PredicateDomain) (f : Formula) (predicates : Precision) :
    Except Error Formula :=
  match domain.abstraction with
  | .boolean => booleanAbstraction domain.solver f predicates
  | .cartesian => cartesianAbstraction domain.solver f predicates

/-- Inclusion that the form of the formulas shows, or else the solver. -/
def included (domain : PredicateDomain) (f g : Formula) : Except Error Bool :=
  if f.implies g then .ok true
  else do
    let complement ← Formula.ofExpression (← Expression.notChecked g.toExpression)
    return domain.solver.isUnsat (f.conjunction complement)

/-- Formulas ordered by implication, as far as it is known. -/
def lattice (domain : PredicateDomain) : Lattice Formula where
  top := .ok .top
  bottom := .bottom
  join := Formula.disjunction
  meet := Formula.conjunction
  included := domain.included

/-- The formula that describes exactly the models. -/
def ofModels (models : List Model) : Except Error Formula :=
  models.foldlM (fun f m => do return f.disjunction (.ofCube (← Cube.ofModel m))) .bottom

/-- Formulas have no list of their models. -/
def concretize (_ : Formula) : Except Error (List Model) := .error .concretizedFormula

end PredicateDomain

end EventCheck
