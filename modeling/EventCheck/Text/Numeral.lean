/-!
Integers read from decimal text: an optional sign, then digits that underscores may separate but
not precede.
-/

namespace EventCheck.Text

/-- Reads digits onto a number. -/
def readDigits (n : Nat) : List Char → Option Nat
  | [] => some n
  | '_' :: rest => readDigits n rest
  | c :: rest => if c.isDigit then readDigits (10 * n + (c.toNat - '0'.toNat)) rest else none

/-- Reads a number that starts with a digit. -/
def readNat : List Char → Option Nat
  | [] => none
  | c :: rest => if c.isDigit then readDigits 0 (c :: rest) else none

/-- Reads an integer with at most one sign. -/
def readInt : List Char → Option Int
  | '-' :: rest => (readNat rest).map fun n => -(n : Int)
  | '+' :: rest => (readNat rest).map fun n => (n : Int)
  | text => (readNat text).map fun n => (n : Int)

end EventCheck.Text
