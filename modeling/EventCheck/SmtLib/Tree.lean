import EventCheck.Text.Blank

/-!
Text of the SMT-LIB language as trees: atoms, string literals and lists in parentheses.
-/

namespace EventCheck.SmtLib

/-- A piece of SMT-LIB text. -/
inductive Tree where
  /-- A symbol or numeral; a quoted symbol without its bars. -/
  | atom (text : String)
  | string (text : String)
  | list (items : List Tree)
deriving Inhabited

/-- The trees of an open list, the last one first. -/
abbrev OpenList := List Tree

/-- What the reader is inside of, with the characters of it so far, the last one first. -/
inductive Mode where
  | between
  | symbol (read : List Char)
  | string (read : List Char)
  /-- After a quote that either ends the literal or stands for itself with another one. -/
  | quote (read : List Char)
  | atom (read : List Char)

/-- The lists that are open, the innermost one first and the outermost one apart, and what is
being read. -/
structure Reader where
  inner : List OpenList := []
  outermost : OpenList := []
  mode : Mode := .between

namespace Reader

/-- Adds a tree to the innermost list. -/
def push (r : Reader) (tree : Tree) : Reader :=
  match r.inner with
  | [] => { r with outermost := tree :: r.outermost }
  | opened :: inner => { r with inner := (tree :: opened) :: inner }

/-- Reads a character outside of symbols, literals and atoms. -/
def between (r : Reader) (c : Char) : Option Reader :=
  match c with
  | '(' => some { r with inner := [] :: r.inner, mode := .between }
  | ')' =>
    match r.inner with
    | [] => none
    | opened :: inner => some { ({ r with inner }.push (.list opened.reverse)) with mode := .between }
  | '|' => some { r with mode := .symbol [] }
  | '"' => some { r with mode := .string [] }
  | c => some { r with mode := if Text.isBlank c then .between else .atom [c] }

/-- Reads a character. -/
def step (r : Reader) (c : Char) : Option Reader :=
  match r.mode with
  | .between => r.between c
  | .symbol read =>
    some (if c = '|' then { r.push (.atom (String.ofList read.reverse)) with mode := .between }
      else { r with mode := .symbol (c :: read) })
  | .string read => some { r with mode := if c = '"' then .quote read else .string (c :: read) }
  | .quote read =>
    if c = '"' then some { r with mode := .string ('"' :: read) }
    else (r.push (.string (String.ofList read.reverse))).between c
  | .atom read =>
    if Text.isBlank c ∨ c = '(' ∨ c = ')' then
      (r.push (.atom (String.ofList read.reverse))).between c
    else some { r with mode := .atom (c :: read) }

/-- The trees read, unless something is still open. -/
def finish (r : Reader) : Option (List Tree) :=
  match r.inner, r.mode with
  | [], .between => some r.outermost.reverse
  | [], .quote read => some (r.push (.string (String.ofList read.reverse))).outermost.reverse
  | [], .atom read => some (r.push (.atom (String.ofList read.reverse))).outermost.reverse
  | _, _ => none

end Reader

/-- The trees that the text consists of, if its parentheses and quotes are closed. -/
def trees (text : List Char) : Option (List Tree) := do
  let reader ← text.foldlM Reader.step {}
  reader.finish

end EventCheck.SmtLib
