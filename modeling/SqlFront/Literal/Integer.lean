import SqlFront.Decimal

/-!
Whole numbers of 64 bits, and the texts that stand for them.
-/

namespace SqlFront

/-- The integer has 64 bits. -/
def fitsInt64 (n : Int) : Bool :=
  -9223372036854775808 ≤ n && n ≤ 9223372036854775807

/-- The integer of 64 bits that differs from `n` by a multiple of their number: what a counter of
64 bits holds after it has passed its end. -/
def wrapInt64 (n : Int) : Int :=
  n.bmod 18446744073709551616

/-- The difference of two integers, if it has 64 bits. -/
def subtractInt64? (m n : Int) : Option Int :=
  if fitsInt64 (m - n) then some (m - n) else none

/-- The value of a text that consists of digits, at least one. -/
def digits? (text : List Char) : Option Nat :=
  if text.isEmpty || !text.all Char.isDigit then none
  else some (Decimal.digitsValue 0 text)

/-- The integer of 64 bits that is written as digits, perhaps after a sign. -/
def int64? (text : List Char) : Option Int := do
  let value : Int ←
    match text with
    | '-' :: rest => (digits? rest).map fun n => -(n : Int)
    | '+' :: rest => (digits? rest).map fun n => (n : Int)
    | digits => (digits? digits).map fun n => (n : Int)
  if fitsInt64 value then some value else none

/-- The natural number of 64 bits that is written as digits, perhaps after a plus sign. -/
def nat64? (text : List Char) : Option Nat := do
  let value ←
    match text with
    | '+' :: rest => digits? rest
    | digits => digits? digits
  if value ≤ 18446744073709551615 then some value else none

end SqlFront
