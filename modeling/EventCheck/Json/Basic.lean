/-!
JSON documents as trees.
-/

namespace EventCheck

/-- A document. Objects keep their entries as they are written, repeated keys among them. -/
inductive Json where
  | null
  | bool (value : Bool)
  | int (value : Int)
  | float (value : Float)
  | string (value : String)
  | array (items : List Json)
  | object (entries : List (String × Json))
  /-- Text of the right form that has no value: a number out of range, half of a surrogate pair,
  or brackets that are nested too deeply. It does no harm where nothing is read. -/
  | unreadable
deriving Inhabited

namespace Json

def nat (n : Nat) : Json := int n

/-- A list of the documents of the items. -/
def list {α : Type} (document : α → Json) (items : List α) : Json := array (items.map document)

def nats (items : List Nat) : Json := list nat items

def strings (items : List String) : Json := list string items

/-- The document of a value, null if there is none. -/
def orNull {α : Type} (document : α → Json) : Option α → Json
  | some a => document a
  | none => null

end Json

end EventCheck
