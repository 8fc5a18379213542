import SqlFront.Literal.Integer
import SqlFront.Toml.Table
import SqlFront.Toml.Text

/-!
Values of a TOML document that hold no other values: numbers, truth values and dates.
-/

namespace SqlFront.Toml

/-! ### Numbers -/

/-- Reads digits; single underscores may stand between them. -/
def digitsFrom (isDigit : Char → Bool) : List Char → List Char × List Char
  | '_' :: c :: text =>
      if isDigit c then
        let (digits, rest) := digitsFrom isDigit text
        (c :: digits, rest)
      else ([], '_' :: c :: text)
  | c :: text =>
      if isDigit c then
        let (digits, rest) := digitsFrom isDigit text
        (c :: digits, rest)
      else ([], c :: text)
  | [] => ([], [])

/-- Reads digits, at least one of them, with underscores between them. -/
def digits (isDigit : Char → Bool) : Reader (List Char)
  | [] => none
  | c :: text => if isDigit c then some (digitsFrom isDigit (c :: text)) else none

/-- Reads a sign, if there is one, and says whether it is a minus. -/
def sign : List Char → Bool × List Char
  | '-' :: text => (true, text)
  | '+' :: text => (false, text)
  | text => (false, text)

/-- Reads the digits of a decimal integer, which have no leading zeros. -/
def wholeDigits : Reader (List Char)
  | '0' :: text => some (['0'], text)
  | text => digits Char.isDigit text

/-- The integer of 64 bits with this sign and these digits. -/
def integer? (negative : Bool) (magnitude : Nat) : Option Item :=
  let value : Int := if negative then -(magnitude : Int) else magnitude
  if fitsInt64 value then some (.integer value) else none

/-- Reads digits of a base as an integer. -/
def basedInteger (base : Nat) (isDigit : Char → Bool) (text : List Char) :
    Option (Item × List Char) := do
  let (digits, rest) ← digits isDigit text
  return (← integer? false (ofDigits base digits), rest)

def isOctalDigit (c : Char) : Bool := '0' ≤ c && c ≤ '7'

def isBinaryDigit (c : Char) : Bool := c == '0' || c == '1'

/-- Reads an integer. -/
def integer : Reader Item
  | '0' :: 'x' :: text => basedInteger 16 isHexDigit text
  | '0' :: 'o' :: text => basedInteger 8 isOctalDigit text
  | '0' :: 'b' :: text => basedInteger 2 isBinaryDigit text
  | text => do
      let (negative, text) := sign text
      let (digits, rest) ← wholeDigits text
      return (← integer? negative (ofDigits 10 digits), rest)

/-- Reads an exponent, if there is one. -/
def exponent : Reader (Option Int)
  | c :: text =>
      if c = 'e' || c = 'E' then do
        let (negative, text) := sign text
        let (digits, rest) ← digits Char.isDigit text
        let magnitude : Int := ofDigits 10 digits
        return (some (if negative then -magnitude else magnitude), rest)
      else some (none, c :: text)
  | [] => some (none, [])

/-- Reads the digits behind a decimal point, if there is one. -/
def fraction : Reader (Option (List Char))
  | '.' :: text => do
      let (digits, rest) ← digits Char.isDigit text
      return (some digits, rest)
  | text => some (none, text)

/-- The smallest integer that is rounded to infinity as a binary number of 64 bits. -/
def floatBound : Nat := Nat.pow 2 1024 - Nat.pow 2 970

/-- Whether `n`, times ten to the power of an exponent, reaches that bound; `n` has at most `width`
decimal digits. -/
def reachesFloatBound (n width : Nat) : Int → Bool
  | .ofNat e => n != 0 && (309 ≤ e || floatBound ≤ n * powerOfTen e)
  | .negSucc e => e < width && floatBound * powerOfTen (e + 1) ≤ n

/-- Reads a number with a fraction or an exponent. A positive one must not be too large. -/
def decimalFloat (text : List Char) : Option (Item × List Char) := do
  let (negative, text) := sign text
  let (whole, text) ← wholeDigits text
  let (fraction, text) ← fraction text
  let (exponent, rest) ← exponent text
  if fraction.isNone && exponent.isNone then none
  let digits := whole ++ fraction.getD []
  let shift : Int := exponent.getD 0 - (fraction.getD []).length
  if !negative && reachesFloatBound (ofDigits 10 digits) digits.length shift then none
  return (.float, rest)

/-- Reads one of the names of floats that no digits stand for. -/
def namedFloat (text : List Char) : Option (Item × List Char) := do
  let (_, text) := sign text
  let rest ← expect ['i', 'n', 'f'] text <|> expect ['n', 'a', 'n'] text
  return (.float, rest)

def boolean (text : List Char) : Option (Item × List Char) :=
  match expect "true".toList text with
  | some rest => some (.boolean true, rest)
  | none => (expect "false".toList text).map fun rest => (.boolean false, rest)

/-! ### Dates and times -/

/-- Reads a number of exactly `width` digits that is in a range. -/
def field (width low high : Nat) (text : List Char) : Option (Nat × List Char) :=
  let digits := text.take width
  let value := ofDigits 10 digits
  if digits.length = width && digits.all Char.isDigit && low ≤ value && value ≤ high then
    some (value, text.drop width)
  else none

/-- The number of days of a month. -/
def daysOfMonth (year month : Nat) : Nat :=
  if month = 2 then
    if year % 4 = 0 && (year % 100 != 0 || year % 400 = 0) then 29 else 28
  else if month = 4 || month = 6 || month = 9 || month = 11 then 30
  else 31

/-- Reads a day of the calendar, and yields what is left. -/
def date (text : List Char) : Option (List Char) := do
  let (year, text) ← field 4 0 9999 text
  let text ← expect ['-'] text
  let (month, text) ← field 2 1 12 text
  let text ← expect ['-'] text
  let (_, text) ← field 2 1 (daysOfMonth year month) text
  return text

/-- Reads hours and minutes. -/
def hourMinute (text : List Char) : Option (List Char) := do
  let (_, text) ← field 2 0 23 text
  let text ← expect [':'] text
  let (_, text) ← field 2 0 59 text
  return text

/-- Reads a fraction of a second, if there is one. -/
def secondFraction : List Char → List Char
  | '.' :: c :: text => if c.isDigit then text.dropWhile Char.isDigit else '.' :: c :: text
  | text => text

/-- Reads a time of the day. -/
def time (text : List Char) : Option (List Char) := do
  let text ← hourMinute text
  let text ← expect [':'] text
  let (_, text) ← field 2 0 60 text
  return secondFraction text

/-- Reads the distance from universal time. -/
def offset : List Char → Option (List Char)
  | 'Z' :: text => some text
  | 'z' :: text => some text
  | '+' :: text => hourMinute text
  | '-' :: text => hourMinute text
  | _ => none

/-- Reads a time behind the mark or the blank that separates it from a date. -/
def timeOfDate : List Char → Option (List Char)
  | c :: text => if c = 'T' || c = 't' || c = ' ' then time text else none
  | [] => none

/-- Reads a date, a time, or both. -/
def dateTime (text : List Char) : Option (Item × List Char) :=
  match date text with
  | some afterDate =>
      match timeOfDate afterDate with
      | some afterTime => some (.dateTime, (offset afterTime).getD afterTime)
      | none => some (.dateTime, afterDate)
  | none => (time text).map fun rest => (.dateTime, rest)

/-! ### Scalars -/

/-- Reads a value that holds no other values. A text that starts several kinds of value is read
as the longest of them, and the order here is that of their lengths. -/
def scalar (text : List Char) : Option (Item × List Char) :=
  match string text with
  | some (text, rest) => some (.string text, rest)
  | none =>
      dateTime text <|> decimalFloat text <|> namedFloat text <|> boolean text <|> integer text

end SqlFront.Toml
