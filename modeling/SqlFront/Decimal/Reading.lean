import SqlFront.Decimal

/-!
Reading decimals from their digits. More digits than a decimal holds are rounded away, so that a
number that was read need not be the one that was written.
-/

namespace SqlFront.Decimal

/-- A way to read numbers: in plain notation, and in notation with a power of ten. -/
class Reader where
  plain (negative : Bool) (whole fraction : List Char) : Option Decimal
  scientific (negative : Bool) (whole fraction : List Char) (exponent : Int) : Option Decimal

/-- A coefficient after which a digit is dropped; from five on it is rounded up. A coefficient that
gets too large by that loses its own last digit, if this is one of the fraction. -/
def roundAt (coefficient scale : Nat) (dropped : Char) : Option (Nat × Nat) :=
  if digitsValue 0 [dropped] < 5 then some (coefficient, scale)
  else if coefficient < maxCoefficient then some (coefficient + 1, scale)
  else if scale = 0 then none
  else some ((coefficient + 5) / 10, scale - 1)

/-- Reads fraction digits after a coefficient as long as they fit, and rounds at the first one that
does not. -/
def absorb (coefficient scale : Nat) : List Char → Option (Nat × Nat)
  | [] => some (coefficient, scale)
  | c :: digits =>
      if scale < maxScale ∧ digitsValue coefficient [c] ≤ maxCoefficient then
        absorb (digitsValue coefficient [c]) (scale + 1) digits
      else roundAt coefficient scale c

/-- The coefficient and scale of digits before and after a decimal point. -/
def ofDigits? (whole fraction : List Char) : Option (Nat × Nat) :=
  if digitsValue 0 whole ≤ maxCoefficient then absorb (digitsValue 0 whole) 0 fraction
  else none

/-- Multiplies by ten to the power `exponent`: first by moving the point, and then, towards
larger numbers, by appending zeros. Powers beyond the largest scale are out of range. -/
def shift? (coefficient scale : Nat) (exponent : Int) : Option (Nat × Nat) :=
  if maxScale < exponent.natAbs then none
  else if exponent < 0 then some (coefficient, scale + exponent.natAbs)
  else if exponent.natAbs ≤ scale then some (coefficient, scale - exponent.natAbs)
  else some (coefficient * powerOfTen (exponent.natAbs - scale), 0)

/-- The number of these parts, with a sign, if they are in range. -/
def ofSigned? (negative : Bool) (coefficient scale : Nat) : Option Decimal :=
  ofParts? (if negative then -(coefficient : Int) else coefficient) scale

/-- The number that is written with these digits. -/
def ofPlain? (negative : Bool) (whole fraction : List Char) : Option Decimal := do
  let (coefficient, scale) ← ofDigits? whole fraction
  ofSigned? negative coefficient scale

/-- The number that is written with these digits and this exponent. -/
def ofScientific? (negative : Bool) (whole fraction : List Char) (exponent : Int) :
    Option Decimal := do
  let (coefficient, scale) ← ofDigits? whole fraction
  let (coefficient, scale) ← shift? coefficient scale exponent
  ofSigned? negative coefficient scale

/-- Reading with as many digits as a decimal holds. -/
instance reader : Reader := ⟨ofPlain?, ofScientific?⟩

end SqlFront.Decimal
