/-!
The shortest decimals of binary numbers: of all decimals that are read back as the number, those
on the coarsest decimal grid, and of these the nearest one.
-/

namespace EventCheck

/-- The number `mantissa * 2 ^ exponent` of a binary format. -/
structure Binary where
  mantissa : Nat
  exponent : Int
deriving DecidableEq, Repr

/-- The number `digits * 10 ^ exponent`. -/
structure Decimal where
  digits : Nat
  exponent : Int
deriving DecidableEq, Repr

namespace Binary

/-- The magnitude of a finite number of 64 bits. -/
def ofFloat (x : Float) : Binary :=
  let bits := x.toBits.toNat
  let fraction := bits % Nat.pow 2 52
  match bits / Nat.pow 2 52 % Nat.pow 2 11 with
  | 0 => ⟨fraction, -1074⟩
  | field => ⟨Nat.pow 2 52 + fraction, (field : Int) - 1075⟩

/-- `numerator / denominator` in units of `10 ^ k`, as a fraction again. -/
def inUnits (numerator denominator : Nat) (k : Int) : Nat × Nat :=
  if 0 ≤ k then (numerator, denominator * Nat.pow 10 k.toNat)
  else (numerator * Nat.pow 10 (-k).toNat, denominator)

/-- A multiple of `10 ^ k` that is read back as the number, the nearest of them. Decimals are
read back as the number up to half the distance to its neighbours; at exactly half they go to
the even mantissa. Below a power of two the neighbour is half as far away. -/
def nearestOn (b : Binary) (k : Int) : Option Nat :=
  let scale := b.exponent - 2
  let quarters (n : Nat) : Nat × Nat :=
    if 0 ≤ scale then inUnits (n * Nat.pow 2 scale.toNat) 1 k
    else inUnits n (Nat.pow 2 (-scale).toNat) k
  let gap := if b.mantissa = Nat.pow 2 52 ∧ b.exponent ≠ -1074 then 1 else 2
  let (value, unit) := quarters (4 * b.mantissa)
  let low := (quarters (4 * b.mantissa - gap)).1
  let high := (quarters (4 * b.mantissa + 2)).1
  let even := b.mantissa % 2 = 0
  let fits (n : Nat) : Bool :=
    let point := n * unit
    if even then low ≤ point && point ≤ high else low < point && point < high
  let below := value / unit
  let lower := 2 * (value % unit)
  let downFirst := lower < unit || (lower == unit && below % 2 == 0)
  let candidates := if downFirst then [below, below + 1] else [below + 1, below]
  candidates.find? fits

/-- The shortest decimal that is read back as the number, if it is positive. -/
def shortest (b : Binary) : Option Decimal :=
  if b.mantissa = 0 then none
  else (List.range 640).findSome? fun (step : Nat) =>
    let k := 309 - (step : Int)
    (b.nearestOn k).map (⟨·, k⟩)

end Binary

namespace Decimal

/-- How numbers are written: from which to which place of the decimal point without an exponent,
counted from the front of the digits, and what stands before an exponent that is not negative. -/
structure Style where
  lowest : Int
  highest : Int
  plus : List Char

/-- Digits with a point after the first `point` of them, filled up with zeros. -/
def positional (digits : List Char) (point : Int) : List Char :=
  if point ≤ 0 then '0' :: '.' :: List.replicate (-point).toNat '0' ++ digits
  else if digits.length ≤ point then
    digits ++ List.replicate (point.toNat - digits.length) '0' ++ ['.', '0']
  else digits.take point.toNat ++ '.' :: digits.drop point.toNat

/-- One digit before the point, the others behind it, and an exponent. -/
def scientific (plus digits : List Char) (exponent : Int) : List Char :=
  let mantissa :=
    match digits with
    | first :: second :: rest => first :: '.' :: second :: rest
    | _ => digits
  let sign := if exponent < 0 then ['-'] else plus
  mantissa ++ 'e' :: sign ++ (toString exponent.natAbs).toList

def text (style : Style) (d : Decimal) : String :=
  let digits := (toString d.digits).toList
  let point := digits.length + d.exponent
  String.ofList <|
    if style.lowest ≤ point ∧ point ≤ style.highest then positional digits point
    else scientific style.plus digits (point - 1)

end Decimal

end EventCheck
