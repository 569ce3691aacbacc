import EventCheck.Json.Decode
import EventCheck.Program.Expression.Typed
import EventCheck.Program.Task
import EventCheck.Text.Numeral

/-!
Programs as documents. Expressions and statements are lists that start with a tag, actors and
their parts are objects. What is missing at the end of a list is null. Expressions are type
checked as they are read, operands first; a tag with an exclamation mark in front makes a node
without a check.
-/

namespace EventCheck

open Json

/-- A value that was understood. -/
def Json.understood {α : Type} : Option α → Except Error α
  | some a => .ok a
  | none => .error .malformedText

/-- The elements of a list that an entry of an object holds. -/
def Json.listField (value : Json) (name : String) : Except Error (List Json) :=
  understood (elements? (field value name))

/-! ### Variables and constants -/

def DataType.ofJson? : Json → Option DataType :=
  variant? ([.int, .bool, .string].map fun type => (DataType.text type, type))

namespace Variable

/-- A variable without its list: name, type and perhaps a version. -/
def ofParts? (parts : List Json) : Option Variable := do
  return {
    name := ← string? (part parts 0)
    dataType := ← DataType.ofJson? (part parts 1)
    version := ← nullable? word? (part parts 2) }

def ofJson? : Json → Option Variable
  | .array parts => ofParts? parts
  | _ => none

def parts (v : Variable) : List Json :=
  [.string v.name, .string v.dataType.text] ++ (v.version.map fun n => .int n).toList

def toJson (v : Variable) : Json := .array v.parts

end Variable

namespace Constant

/-- Integers are written as text, so that they may have any size. -/
def ofJson? : Json → Option Constant
  | .array (.string "int" :: parts) => do
    int <$> Text.readInt (← string? (part parts 0)).toList
  | .array (.string "bool" :: parts) => bool <$> flag? false (part parts 0)
  | .array (.string "str" :: parts) => str <$> string? (part parts 0)
  | _ => none

def toJson : Constant → Json
  | int value => .array [.string "int", .string (toString value)]
  | bool value => .array [.string "bool", .bool value]
  | str text => .array [.string "str", .string text]

end Constant

/-! ### Expressions -/

namespace BinaryOp

def tag : BinaryOp → String
  | add => "add"
  | sub => "sub"
  | mul => "mul"
  | div => "div"
  | mod => "mod"
  | eq => "eq"
  | lt => "lt"
  | and => "and"
  | or => "or"

def all : List BinaryOp := [add, sub, mul, div, mod, eq, lt, and, or]

/-- An operator by its tag, and whether its operands are checked. -/
def ofTag? (tag : String) : Option (BinaryOp × Bool) :=
  let checked := all.map fun op => (op.tag, (op, true))
  let unchecked := all.map fun op => ("!" ++ op.tag, (op, false))
  (checked ++ unchecked).lookup tag

end BinaryOp

namespace Expression

/-- An expression without operands. -/
def leafOfJson? : Json → Option Expression
  | .array (.string "var" :: parts) => var <$> Variable.ofParts? parts
  | value => const <$> Constant.ofJson? value

def ofJson : Json → Except Error Expression
  | .array (.string "not" :: operand :: _) => do (← ofJson operand).notChecked
  | .array (.string "!not" :: operand :: _) => do return .not (← ofJson operand)
  | .array (.string tag :: lhs :: rhs :: rest) =>
    match BinaryOp.ofTag? tag with
    | some (op, checked) => do
      let lhs ← ofJson lhs
      let rhs ← ofJson rhs
      if checked then binaryChecked op lhs rhs else return .binary op lhs rhs
    | none => understood (leafOfJson? (.array (.string tag :: lhs :: rhs :: rest)))
  | value => understood (leafOfJson? value)

def toJson : Expression → Json
  | var v => .array (.string "var" :: v.parts)
  | const c => c.toJson
  | not operand => .array [.string "not", operand.toJson]
  | binary op lhs rhs => .array [.string op.tag, lhs.toJson, rhs.toJson]

end Expression

/-! ### Statements and events -/

def Statement.ofJson : Json → Except Error Statement
  | .array (.string "declare" :: parts) => .declare <$> understood (Variable.ofJson? (part parts 0))
  | .array (.string "assign" :: parts) => do
    return .assign (← understood (Variable.ofJson? (part parts 0)))
      (← Expression.ofJson (part parts 1))
  | .array (.string "assume" :: parts) => .assume <$> Expression.ofJson (part parts 0)
  | .array (.string "call" :: parts) => do
    let method ← understood (string? (part parts 0))
    let arguments ← (← understood (elements? (part parts 1))).mapM Expression.ofJson
    return .call method arguments (← understood (nullable? Variable.ofJson? (part parts 2)))
  | .array (.string "return" :: parts) =>
    match part parts 0 with
    | .null => return .return none
    | e => do return .return (some (← Expression.ofJson e))
  | .array (.string "broadcast" :: parts) => .broadcast <$> Expression.ofJson (part parts 0)
  | .array (.string "broadcast_wait" :: parts) =>
    .broadcastAndWait <$> Expression.ofJson (part parts 0)
  | .array (.string "wait_until" :: parts) => .waitUntil <$> Expression.ofJson (part parts 0)
  | .array (.string "wait_secs" :: parts) => .waitSecs <$> Expression.ofJson (part parts 0)
  | .array (.string "fail" :: parts) => do
    let names ← (← understood (elements? (part parts 0))).mapM fun name => understood (string? name)
    return .signalFailure (.ofList (names.map Property.mk))
  | .array (.string "nop" :: _) => .ok .nop
  | _ => .error .malformedText

def Event.ofJson? : Json → Option Event
  | .array (.string "bootstrap" :: _) => some .bootstrap
  | .array (.string "message" :: parts) => .message <$> string? (part parts 0)
  | .array (.string "after" :: _) => some .afterStatement
  | .array (.string "never" :: _) => some .never
  | _ => none

/-! ### Tasks -/

namespace ControlFlow

/-- A transition: its head, its operation and its tail. -/
def transitionOfJson? : Json → Option (Location × Nat × Location)
  | .array parts => do
    return (← word? (part parts 0), ← word? (part parts 1), ← word? (part parts 2))
  | _ => none

/-- The entries, transitions and further locations among the entries of an object. -/
def ofJson (value : Json) : Except Error ControlFlow := do
  let entries ← (← value.listField "entry").mapM fun l => understood (word? l)
  let transitions ←
    (← value.listField "transitions").mapM fun t => understood (transitionOfJson? t)
  let locations ← (← value.listField "locations").mapM fun l => understood (word? l)
  locations.foldlM addLocation (← ofTransitions entries transitions)

end ControlFlow

/-- A truth value that may be missing. -/
def Json.flagField (value : Json) (name : String) (default : Bool) : Except Error Bool :=
  understood (flag? default (field value name))

def Script.ofJson (value : Json) : Except Error Script := do
  return {
    id := ← understood (word? (field value "id"))
    event := ← understood (Event.ofJson? (field value "event"))
    restartOnTrigger := ← value.flagField "restart" true
    flow := ← ControlFlow.ofJson value }

def Method.ofJson (value : Json) : Except Error Method := do
  return {
    name := ← understood (string? (field value "name"))
    parameters := ← (← value.listField "params").mapM fun v => understood (Variable.ofJson? v)
    atomic := ← value.flagField "atomic" false
    flow := ← ControlFlow.ofJson value }

/-- An actor; its scripts are read before its methods. -/
def Actor.ofJson (value : Json) : Except Error Actor := do
  let actor : Actor := {
    name := ← understood (string? (field value "name"))
    isObserver := ← value.flagField "observer" false }
  let actor ← (← value.listField "scripts").foldlM (fun actor script => do
    actor.addScript (← Script.ofJson script)) actor
  (← value.listField "methods").foldlM (fun actor method => do
    actor.addMethod (← Method.ofJson method)) actor

def Operation.ofJson : Json → Except Error Operation
  | .array parts => do
    return {
      id := ← understood (word? (part parts 0))
      statement := ← Statement.ofJson (part parts 1) }
  | _ => .error .malformedText

/-- A task; its actors are read before its operations. -/
def Task.ofJson (value : Json) : Except Error Task := do
  let actors ← (← value.listField "actors").mapM Actor.ofJson
  let operations ← (← value.listField "operations").mapM Operation.ofJson
  create (← understood (string? (field value "name"))) actors operations

end EventCheck
