import EventCheck.Json.Basic
import EventCheck.Sorted.Map

/-!
Taking values out of documents: numbers, texts, lists, the fields of records and the names of
variants.
-/

namespace EventCheck.Json

def nat? (bound : Nat) : Json → Option Nat
  | int value => if 0 ≤ value ∧ value < bound then some value.toNat else none
  | _ => none

/-- A natural number of 64 bits. -/
def word? : Json → Option Nat := nat? (Nat.pow 2 64)

def bool? : Json → Option Bool
  | bool value => some value
  | _ => none

def string? : Json → Option String
  | string value => some value
  | _ => none

def list? {α : Type} (item : Json → Option α) : Json → Option (List α)
  | array items => items.mapM item
  | _ => none

/-- Whether a record may have fields of other names. -/
inductive Extra where
  | ignored
  | refused
deriving DecidableEq, Repr

/-- Looks the named fields up; a name that is given twice is refused. A record is an object, or a
list of the fields in their order, from which the last ones may be missing. -/
def fields? (extra : Extra) (names : List String) : Json → Option (List (Option Json))
  | object entries => do
    if extra = .refused ∧ entries.any (!names.contains ·.1) then none
    if names.any fun name => 1 < entries.countP (·.1 = name) then none
    return names.map fun name => (entries.find? (·.1 = name)).map (·.2)
  | array items =>
    if items.length ≤ names.length then some ((List.range names.length).map (items[·]?)) else none
  | _ => none

/-- A field that has to be there. -/
def required? {α : Type} (decode : Json → Option α) (field : Option Json) : Option α :=
  field.bind decode

/-- A field that takes a default. -/
def optional? {α : Type} (default : α) (decode : Json → Option α) : Option Json → Option α
  | none => some default
  | some value => decode value

/-- An entry of an object; one that is missing is null. -/
def field (value : Json) (name : String) : Json :=
  match value with
  | object entries => (entries.lookup name).getD null
  | _ => null

/-- The part of a list at a place; one that is missing is null. -/
def part (parts : List Json) (place : Nat) : Json := parts[place]?.getD null

/-- A list; null stands for the empty one. -/
def elements? : Json → Option (List Json)
  | array items => some items
  | null => some []
  | _ => none

/-- A value, or nothing for null. -/
def nullable? {α : Type} (decode : Json → Option α) : Json → Option (Option α)
  | null => some none
  | value => some <$> decode value

/-- A truth value; null stands for the default. -/
def flag? (default : Bool) : Json → Option Bool
  | null => some default
  | value => bool? value

/-- A variant without fields: its name, or an object with the name and nothing. -/
def variant? {α : Type} (variants : List (String × α)) : Json → Option α
  | string name => variants.lookup name
  | object [(name, null)] => variants.lookup name
  | _ => none

mutual

/-- The document with the entries of objects sorted by key, of repeated keys the last one. It has
to be readable throughout. -/
def canonical : Json → Option Json
  | array items => array <$> canonicalItems items
  | object entries => do
    let entries ← canonicalEntries entries
    return object (SortedMap.ofList entries).toList
  | unreadable => none
  | value => some value

def canonicalItems : List Json → Option (List Json)
  | [] => some []
  | value :: rest => do return (← canonical value) :: (← canonicalItems rest)

def canonicalEntries : List (String × Json) → Option (List (String × Json))
  | [] => some []
  | (key, value) :: rest => do return (key, ← canonical value) :: (← canonicalEntries rest)

end

/-- A map from texts to documents. -/
def map? : Json → Option (SortedMap String Json)
  | object entries => SortedMap.ofList <$> canonicalEntries entries
  | _ => none

/-- How variants with fields name themselves: the field that holds the name, the names, and
whether the place of a name among them will do in its stead. -/
structure Tagging where
  field : String
  names : List String
  numbered : Bool := false

/-- The variant that a document names. -/
def Tagging.name? (tagging : Tagging) : Json → Option String
  | string name => some name
  | int n => if tagging.numbered ∧ 0 ≤ n then tagging.names[n.toNat]? else none
  | _ => none

/-- A variant that names itself in a field, or at the front of a list: the name, and the document
that is left. All of it has to be readable. -/
def tagged? (tagging : Tagging) (value : Json) : Option (String × Json) := do
  let _ ← canonical value
  match value with
  | object entries =>
    match entries.filter (·.1 = tagging.field) with
    | [(_, name)] =>
      return (← tagging.name? name, object (entries.filter (·.1 ≠ tagging.field)))
    | _ => none
  | array (name :: rest) => return (← tagging.name? name, array rest)
  | _ => none

end EventCheck.Json
