import SqlFront.Decimal.Reading
import SqlFront.Error
import SqlFront.Literal.Integer

/-!
Numbers: from the text of a numeric literal to the exact value it stands for. Digits alone are an
integer where it fits 64 bits; every other number is a decimal that keeps the scale it is written
with. Reading a decimal may round, so what was read is compared with the digits that are written,
and a number that no decimal holds exactly is refused.
-/

namespace SqlFront

/-- The parts of a written number. -/
structure Numeral where
  negative : Bool
  /-- The digits before the point. -/
  whole : List Char
  /-- The digits after the point. -/
  fraction : List Char
  /-- The power of ten that the digits are multiplied by, where one is written. -/
  exponent : Option Int
  deriving DecidableEq

/-- The digits of a number without zeros at either end, and the power of ten that they are divided
by as one integer; a negative power stands for zeros after them. -/
structure Significand where
  digits : List Char
  scale : Int
  deriving DecidableEq

namespace Numeral

/-- The text before and after the first character that passes a test, if there is one. -/
def splitAt? (test : Char → Bool) (text : List Char) : Option (List Char × List Char) :=
  match text.dropWhile (!test ·) with
  | [] => none
  | _ :: after => some (text.takeWhile (!test ·), after)

/-- The digits before and after the point. A missing part next to a point counts as a zero, and
without a point there has to be a digit. -/
def mantissa? (text : List Char) : Option (List Char × List Char) :=
  let (whole, fraction) :=
    match splitAt? (· == '.') text with
    | none => (text, [])
    | some (whole, fraction) =>
        (if whole.isEmpty then ['0'] else whole, if fraction.isEmpty then ['0'] else fraction)
  if whole.isEmpty || !(whole ++ fraction).all Char.isDigit then none
  else some (whole, fraction)

/-- The parts of a numeral, after a minus sign if `negative`. An exponent has to fit 64 bits. -/
def read? (negative : Bool) (text : List Char) : Option Numeral := do
  let (before, exponent) ←
    match splitAt? (fun c => c == 'e' || c == 'E') text with
    | none => some (text, none)
    | some (before, after) => (int64? after).map fun e => (before, some e)
  let (whole, fraction) ← mantissa? before
  return ⟨negative, whole, fraction, exponent⟩

/-- The parts of a numeral that may start with a minus sign. -/
def readSigned? : List Char → Option Numeral
  | '-' :: text => read? true text
  | text => read? false text

/-- All digits of a numeral. -/
def digits (numeral : Numeral) : List Char :=
  numeral.whole ++ numeral.fraction

/-- The power of ten by which the digits of a numeral, read as one integer, are divided, if it has
64 bits. -/
def scale? (numeral : Numeral) : Option Int :=
  subtractInt64? numeral.fraction.length (numeral.exponent.getD 0)

/-- Drops the zeros at the end of digits, which come with the last one first. Each of them takes one
from the scale, which is counted in 64 bits. -/
def dropZeros : List Char → Int → List Char × Int
  | '0' :: digits, scale => dropZeros digits (wrapInt64 (scale - 1))
  | digits, scale => (digits, scale)

/-- The digits of a numeral that count. -/
def significand? (numeral : Numeral) : Option Significand :=
  numeral.scale?.map fun scale =>
    let (digits, scale) := dropZeros numeral.digits.reverse scale
    ⟨digits.reverse.dropWhile (· == '0'), scale⟩

/-- The decimal that a numeral is read as. -/
def decimal? (reader : Decimal.Reader) (numeral : Numeral) : Option Decimal :=
  match numeral.exponent with
  | none => reader.plain numeral.negative numeral.whole numeral.fraction
  | some exponent =>
      reader.scientific numeral.negative numeral.whole numeral.fraction exponent

end Numeral

/-- A decimal has these digits at this scale, its sign and zeros at the ends left aside. -/
def Significand.isOf (significand : Significand) (value : Decimal) : Bool :=
  let (coefficient, scale) := Decimal.strip value.coefficient.natAbs value.scale
  let digits := Decimal.digitText coefficient
  if coefficient == 0 || significand.digits.isEmpty then
    coefficient == 0 && significand.digits.isEmpty
  else if 0 ≤ significand.scale then
    digits == significand.digits && (scale : Int) == significand.scale
  else
    scale == 0 && digits.length == significand.digits.length + significand.scale.natAbs &&
      significand.digits.isPrefixOf digits &&
      (digits.drop significand.digits.length).all (· == '0')

namespace Literal

/-- A text with a minus sign before it if `negative`. -/
def signed (negative : Bool) (text : List Char) : List Char :=
  if negative then '-' :: text else text

/-- The decimal that is written as a text that may start with a minus sign, where decimals are read
by `reader`. -/
def decimalBy (reader : Decimal.Reader) (text : List Char) : Except SemanticCause Decimal :=
  let parts? := do
    let numeral ← Numeral.readSigned? text
    let significand ← numeral.significand?
    return (numeral, significand)
  match parts? with
  | none => .error (.invalidNumber (String.ofList text))
  | some (numeral, significand) =>
      match (numeral.decimal? reader).filter significand.isOf with
      | some value => .ok value
      | none => .error (.inexactNumber (String.ofList text))

/-- The constant that a number stands for, after a minus sign if `negative`, where decimals are read
by `reader`. -/
def numberBy (reader : Decimal.Reader) (negative : Bool) (text : String) :
    Except SemanticCause Constant :=
  let written := signed negative text.toList
  let integer? := if text.toList.all Char.isDigit then int64? written else none
  match integer? with
  | some value => .ok (.int value)
  | none => (decimalBy reader written).map .decimal

/-- The constant that a number stands for, after a minus sign if `negative`. -/
def number (negative : Bool) (text : String) : Except SemanticCause Constant :=
  numberBy Decimal.reader negative text

end Literal

end SqlFront
