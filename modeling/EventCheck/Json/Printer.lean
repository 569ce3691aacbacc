import EventCheck.Decimal.Shortest
import EventCheck.Json.Basic
import EventCheck.Text.Quoted

/-!
Writing JSON texts: one entry a line, indented by two spaces a level, or all on one line.
-/

namespace EventCheck.Json

/-- Only quotes, backslashes and control characters are escaped. -/
def escapedChar (c : Char) : List Char :=
  match c with
  | '"' => ['\\', '"']
  | '\\' => ['\\', '\\']
  | '\x08' => ['\\', 'b']
  | '\x0c' => ['\\', 'f']
  | '\n' => ['\\', 'n']
  | '\r' => ['\\', 'r']
  | '\t' => ['\\', 't']
  | c =>
    if c.toNat < 0x20 then
      ['\\', 'u', '0', '0', Nat.digitChar (c.toNat / 16), Nat.digitChar (c.toNat % 16)]
    else [c]

def quotedText (s : String) : String :=
  "\"" ++ String.ofList (s.toList.flatMap escapedChar) ++ "\""

/-- Numbers from 0.00001 to below 10 ^ 16 are written without an exponent; every exponent has a
sign. -/
def floatStyle : Decimal.Style where
  lowest := -4
  highest := 16
  plus := ['+']

/-- The shortest text that is read back as the number. -/
def floatText (x : Float) : String :=
  let magnitude :=
    match (Binary.ofFloat x).shortest with
    | some d => d.text floatStyle
    | none => "0.0"
  if x.toBits.toNat < Nat.pow 2 63 then magnitude else "-" ++ magnitude

/-- A line break and the indentation of a level. -/
def lineBreak (level : Nat) : String := "\n" ++ String.ofList (List.replicate (2 * level) ' ')

mutual

def prettyAt (level : Nat) : Json → String
  | null => "null"
  | bool value => if value then "true" else "false"
  | int value => toString value
  | float value => floatText value
  | string value => quotedText value
  | array [] => "[]"
  | array (first :: rest) =>
    "[" ++ lineBreak (level + 1) ++ prettyAt (level + 1) first ++ prettyItems (level + 1) rest
      ++ lineBreak level ++ "]"
  | object [] => "\x7b\x7d"
  | object ((key, value) :: rest) =>
    "\x7b" ++ lineBreak (level + 1) ++ quotedText key ++ ": " ++ prettyAt (level + 1) value
      ++ prettyEntries (level + 1) rest ++ lineBreak level ++ "\x7d"
  | unreadable => "null"

/-- Items after the first one. -/
def prettyItems (level : Nat) : List Json → String
  | [] => ""
  | value :: rest => "," ++ lineBreak level ++ prettyAt level value ++ prettyItems level rest

/-- Entries after the first one. -/
def prettyEntries (level : Nat) : List (String × Json) → String
  | [] => ""
  | (key, value) :: rest =>
    "," ++ lineBreak level ++ quotedText key ++ ": " ++ prettyAt level value
      ++ prettyEntries level rest

end

/-- The text of a document. -/
def pretty (value : Json) : String := prettyAt 0 value

mutual

/-- The text of a document on one line without blanks. -/
def compact : Json → String
  | null => "null"
  | bool value => if value then "true" else "false"
  | int value => toString value
  | float value => floatText value
  | string value => quotedText value
  | array items => "[" ++ ",".intercalate (compactItems items) ++ "]"
  | object entries => "\x7b" ++ ",".intercalate (compactEntries entries) ++ "\x7d"
  | unreadable => "null"

def compactItems : List Json → List String
  | [] => []
  | value :: rest => compact value :: compactItems rest

def compactEntries : List (String × Json) → List String
  | [] => []
  | (key, value) :: rest => (quotedText key ++ ":" ++ compact value) :: compactEntries rest

end

end EventCheck.Json
