import EventCheck.Json.Numeral

/-!
Reading JSON texts.
-/

namespace EventCheck.Json

def isBlank (c : Char) : Bool := c = ' ' || c = '\n' || c = '\t' || c = '\r'

def skipBlanks (cs : List Char) : List Char := cs.dropWhile isBlank

/-! ### Strings -/

def hexDigit? (c : Char) : Option Nat :=
  if c.isDigit then some (c.toNat - '0'.toNat)
  else if 'a' ≤ c ∧ c ≤ 'f' then some (c.toNat - 'a'.toNat + 10)
  else if 'A' ≤ c ∧ c ≤ 'F' then some (c.toNat - 'A'.toNat + 10)
  else none

/-- What a letter behind a backslash stands for. -/
def escape? : Char → Option Nat
  | '"' => some 0x22
  | '\\' => some 0x5c
  | '/' => some 0x2f
  | 'b' => some 0x08
  | 'f' => some 0x0c
  | 'n' => some 0x0a
  | 'r' => some 0x0d
  | 't' => some 0x09
  | _ => none

/-- The code units of a string up to its closing quote. Control characters have to be escaped. -/
def codeUnits : List Char → Option (List Nat × List Char)
  | [] => none
  | '"' :: rest => some ([], rest)
  | '\\' :: 'u' :: a :: b :: c :: d :: rest => do
    let unit := 4096 * (← hexDigit? a) + 256 * (← hexDigit? b) + 16 * (← hexDigit? c) + (← hexDigit? d)
    let (units, rest) ← codeUnits rest
    return (unit :: units, rest)
  | '\\' :: c :: rest => do
    let unit ← escape? c
    let (units, rest) ← codeUnits rest
    return (unit :: units, rest)
  | c :: rest =>
    if c.toNat < 0x20 then none
    else do
      let (units, rest) ← codeUnits rest
      return (c.toNat :: units, rest)

/-- The characters of code units, two halves of a surrogate pair making one. -/
def characters : List Nat → Option (List Char)
  | [] => some []
  | high :: rest =>
    if 0xd800 ≤ high ∧ high < 0xdc00 then
      match rest with
      | low :: rest =>
        if 0xdc00 ≤ low ∧ low < 0xe000 then do
          return Char.ofNat (0x10000 + 1024 * (high - 0xd800) + (low - 0xdc00)) :: (← characters rest)
        else none
      | [] => none
    else if 0xdc00 ≤ high ∧ high < 0xe000 then none
    else do return Char.ofNat high :: (← characters rest)

/-- A string behind its opening quote. It has no value if it holds half of a surrogate pair. -/
def readString (cs : List Char) : Option (Option String × List Char) := do
  let (units, rest) ← codeUnits cs
  return ((characters units).map String.ofList, rest)

/-! ### Documents -/

section Items

variable {α : Type} (item : List Char → Option (α × List Char)) (close : Char)

/-- One or more items with commas between them, up to the closing bracket. -/
def someItems : Nat → List Char → Option (List α × List Char)
  | 0, _ => none
  | fuel + 1, cs => do
    let (first, rest) ← item cs
    match skipBlanks rest with
    | [] => none
    | c :: rest =>
      if c = ',' then do
        let (others, rest) ← someItems fuel rest
        return (first :: others, rest)
      else if c = close then return ([first], rest)
      else none

/-- Any number of items up to the closing bracket. Each has a character of its own. -/
def items (cs : List Char) : Option (List α × List Char) :=
  match skipBlanks cs with
  | [] => none
  | c :: rest => if c = close then some ([], rest) else someItems item close cs.length cs

end Items

/-- An entry of an object. -/
def readEntry (read : List Char → Option (Json × List Char)) (cs : List Char) :
    Option ((Option String × Json) × List Char) :=
  match skipBlanks cs with
  | '"' :: rest => do
    let (key, rest) ← readString rest
    match skipBlanks rest with
    | ':' :: rest => do
      let (value, rest) ← read rest
      return ((key, value), rest)
    | _ => none
  | _ => none

/-- Brackets nested this deeply have no value. -/
def maxDepth : Nat := 128

/-- An object with its keys, if they all have a value. -/
def ofEntries (entries : List (Option String × Json)) : Json :=
  match entries.mapM fun (key, value) => key.map (·, value) with
  | some entries => .object entries
  | none => .unreadable

/-- The document that the text starts with, inside `depth` brackets. -/
def readValue : Nat → Nat → List Char → Option (Json × List Char)
  | 0, _, _ => none
  | fuel + 1, depth, cs =>
    let inside := readValue fuel (depth + 1)
    let bracketed (value : Json) : Json := if depth + 1 < maxDepth then value else .unreadable
    match skipBlanks cs with
    | 'n' :: 'u' :: 'l' :: 'l' :: rest => some (.null, rest)
    | 't' :: 'r' :: 'u' :: 'e' :: rest => some (.bool true, rest)
    | 'f' :: 'a' :: 'l' :: 's' :: 'e' :: rest => some (.bool false, rest)
    | '"' :: rest => do
      let (value, rest) ← readString rest
      return ((value.map Json.string).getD .unreadable, rest)
    | '[' :: rest => do
      let (values, rest) ← items inside ']' rest
      return (bracketed (.array values), rest)
    | '\x7b' :: rest => do
      let (entries, rest) ← items (readEntry inside) '\x7d' rest
      return (bracketed (ofEntries entries), rest)
    | cs => do
      let (n, rest) ← Numeral.read cs
      return (n.toJson, rest)

/-- Reads a text that is one document. -/
def read (text : String) : Option Json :=
  let cs := text.toList
  match readValue (cs.length + 1) 0 cs with
  | some (value, rest) => if (skipBlanks rest).isEmpty then some value else none
  | none => none

end EventCheck.Json
