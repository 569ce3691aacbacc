import EventCheck.Json.Basic

/-!
Numbers in JSON texts. An integer that fits 64 bits is kept as it is. Any other number is a
binary number near it, found from as many of its digits as fit 64 bits and from one power of ten
at a time; it need not be the nearest one.
-/

namespace EventCheck.Json

/-- The parts of a written number. -/
structure Numeral where
  negative : Bool
  whole : List Nat
  /-- The digits behind a point. -/
  fraction : Option (List Nat) := none
  exponent : Option Int := none

namespace Numeral

def digit? (c : Char) : Option Nat := if c.isDigit then some (c.toNat - '0'.toNat) else none

/-- The digits that the text starts with, and the rest. -/
def digits (cs : List Char) : List Nat × List Char :=
  ((cs.takeWhile Char.isDigit).filterMap digit?, cs.dropWhile Char.isDigit)

/-- At least one digit. -/
def someDigits (cs : List Char) : Option (List Nat × List Char) :=
  match digits cs with
  | ([], _) => none
  | found => some found

def valueOf (digits : List Nat) : Nat := digits.foldl (10 * · + ·) 0

/-- An exponent behind its letter. -/
def readExponent (cs : List Char) : Option (Int × List Char) := do
  let (negative, cs) :=
    match cs with
    | '-' :: rest => (true, rest)
    | '+' :: rest => (false, rest)
    | _ => (false, cs)
  let (digits, rest) ← someDigits cs
  let n : Int := valueOf digits
  return (if negative then -n else n, rest)

/-- The number that the text starts with. Only zero starts with a zero. -/
def read (cs : List Char) : Option (Numeral × List Char) := do
  let (negative, cs) :=
    match cs with
    | '-' :: rest => (true, rest)
    | _ => (false, cs)
  let (whole, cs) ← someDigits cs
  if whole.head? = some 0 ∧ 1 < whole.length then none
  let (fraction, cs) ←
    match cs with
    | '.' :: rest => do
      let (digits, rest) ← someDigits rest
      pure (some digits, rest)
    | _ => pure (none, cs)
  let (exponent, cs) ←
    match cs with
    | c :: rest =>
      if c = 'e' ∨ c = 'E' then do
        let (exponent, rest) ← readExponent rest
        pure (some exponent, rest)
      else pure (none, cs)
    | [] => pure (none, cs)
  return ({ negative, whole, fraction, exponent }, cs)

/-- Appends digits to a number as long as it fits 64 bits; also gives how many are left over. -/
def extend : Nat → List Nat → Nat × Nat
  | n, [] => (n, 0)
  | n, d :: rest => if 10 * n + d < Nat.pow 2 64 then extend (10 * n + d) rest else (n, rest.length + 1)

/-- Divides by powers of ten that are themselves in range. -/
def scaleDown : Nat → Float → Nat → Float
  | 0, x, _ => x
  | fuel + 1, x, e =>
    if e ≤ 308 then x / Float.ofScientific 1 false e
    else if x == 0 then x
    else scaleDown fuel (x / Float.ofScientific 1 false 308) (e - 308)

/-- The number times a power of ten, unless it is out of range. -/
def scale (x : Float) (e : Int) : Option Float :=
  if e < 0 then some (scaleDown (-e).toNat x (-e).toNat)
  else if e ≤ 308 then
    let y := x * Float.ofScientific 1 false e.toNat
    if y.isInf then none else some y
  else if x == 0 then some x
  else none

/-- The value of a number that is not an integer of 64 bits. -/
def toFloat? (n : Numeral) : Option Float :=
  let (whole, skipped) := extend 0 n.whole
  let fraction := n.fraction.getD []
  let (significand, unused) := extend whole fraction
  let shift : Int := skipped - (fraction.length - unused : Nat) + n.exponent.getD 0
  (scale significand.toUInt64.toFloat shift).map fun x => if n.negative then -x else x

/-- The value of the number as a document. A negative zero is no integer. -/
def toJson (n : Numeral) : Json :=
  let float := (n.toFloat?.map Json.float).getD .unreadable
  if n.fraction.isSome || n.exponent.isSome then float
  else
    let value := valueOf n.whole
    if n.negative then if 0 < value ∧ value ≤ Nat.pow 2 63 then .int (-value) else float
    else if value < Nat.pow 2 64 then .int value else float

end Numeral

end EventCheck.Json
