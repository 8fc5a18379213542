/-!
Exact decimal numbers of bounded size: an integer coefficient of at most 96 bits, divided by a
power of ten of at most 28. The power is part of the number, so `1.0` and `1.00` are written
differently and compare equal.
-/

namespace SqlFront

/-- Ten to the power of `n`. -/
def powerOfTen (n : Nat) : Nat := Nat.pow 10 n

/-- The largest coefficient, which is that of 96 bits. -/
def Decimal.maxCoefficient : Nat := 79228162514264337593543950335

/-- The largest power of ten that a number is divided by. -/
def Decimal.maxScale : Nat := 28

/-- The coefficient, divided by ten to the power of the scale. -/
structure Decimal where
  coefficient : Int
  scale : Nat
  fits : coefficient.natAbs ≤ Decimal.maxCoefficient ∧ scale ≤ Decimal.maxScale
  deriving DecidableEq

namespace Decimal

/-- The number of these two parts, if they are in range. -/
def ofParts? (coefficient : Int) (scale : Nat) : Option Decimal :=
  if fits : coefficient.natAbs ≤ maxCoefficient ∧ scale ≤ maxScale then
    some ⟨coefficient, scale, fits⟩
  else none

/-- Equality of the values, whatever the scales. -/
def same (left right : Decimal) : Bool :=
  left.coefficient * powerOfTen right.scale == right.coefficient * powerOfTen left.scale

/-- The decimal digits of a number, without leading zeros. -/
def digitText (n : Nat) : List Char := Nat.toDigits 10 n

/-- Digits with a point before the last `scale` of them, and zeros in front where they are
too few. -/
def placed (digits : List Char) (scale : Nat) : List Char :=
  let padded := List.replicate (scale + 1 - digits.length) '0' ++ digits
  match scale with
  | 0 => padded
  | _ => padded.take (padded.length - scale) ++ '.' :: padded.drop (padded.length - scale)

/-- Plain decimal notation with all the digits of the scale. -/
def render (d : Decimal) : String :=
  let digits := placed (digitText d.coefficient.natAbs) d.scale
  String.ofList (if d.coefficient < 0 then '-' :: digits else digits)

/-- The value of a list of decimal digits that follow the digits of `start`. -/
def digitsValue (start : Nat) (digits : List Char) : Nat :=
  digits.foldl (fun n c => 10 * n + (c.toNat - '0'.toNat)) start

/-- A coefficient and its scale without the zeros at the end of the fraction. -/
def strip (coefficient : Nat) : (scale : Nat) → Nat × Nat
  | 0 => (coefficient, 0)
  | scale + 1 =>
      if coefficient % 10 = 0 then strip (coefficient / 10) scale else (coefficient, scale + 1)

end Decimal

end SqlFront
