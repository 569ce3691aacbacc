import EventCheck.Lattice.Flat
import EventCheck.Program.Evaluation

/-!
Known values of variables: the flat lattice of constants, taken at each variable. A variable
without an entry may hold any value, and the bottom map describes no environment.
-/

namespace EventCheck

/-- What is known of the values of variables. -/
inductive ValueMap where
  | bottom
  | values (known : Model)
deriving DecidableEq

namespace ValueMap

/-- The map that knows nothing. -/
def top : ValueMap := values ∅

instance : Inhabited ValueMap := ⟨top⟩

def isBottom : ValueMap → Bool
  | bottom => true
  | values _ => false

/-- What is known of one variable. -/
def get : ValueMap → Variable → Flat Constant
  | bottom, _ => .bottom
  | values known, v =>
    match known.get? v with
    | some c => .value c
    | none => .top

/-- The value of a variable, if it is known. -/
def value? (m : ValueMap) (v : Variable) : Option Constant := (m.get v).value?

/-- Sets what is known of one variable. -/
def set : ValueMap → Variable → Flat Constant → ValueMap
  | bottom, _, _ => bottom
  | values known, v, .value c => values (known.insert v c)
  | values known, v, .top => values (known.erase v)
  | values _, _, .bottom => bottom

/-- The known values; the bottom map lists none. -/
def known : ValueMap → Model
  | bottom => ∅
  | values known => known

/-- Keeps what both maps know alike. -/
def join : ValueMap → ValueMap → ValueMap
  | bottom, n => n
  | m, bottom => m
  | values k, values l => values (k.filter fun v c => l.get? v = some c)

/-- Knows what either map knows; contradictory knowledge describes nothing. -/
def meet : ValueMap → ValueMap → ValueMap
  | values k, values l =>
    if l.toList.all fun (v, c) => k.get? v = none ∨ k.get? v = some c then
      values (l.toList.foldl (fun met (v, c) => met.insert v c) k)
    else bottom
  | _, _ => bottom

/-- Whether the first map knows all that the second one does. -/
def included : ValueMap → ValueMap → Bool
  | bottom, _ => true
  | _, bottom => false
  | values k, values l => l.isSubmap k

/-- Value maps ordered by the environments that they describe. -/
def lattice : Lattice ValueMap where
  top := .ok top
  bottom := bottom
  join := join
  meet := meet
  included m n := .ok (included m n)

def text : ValueMap → String
  | bottom => "⊥"
  | values known =>
    "\x7b" ++ ", ".intercalate (known.toList.map fun (v, c) => v.text ++ "=" ++ c.text) ++ "\x7d"

end ValueMap

end EventCheck
