import SqlFront.Decimal

/-!
Constant values: what a literal or a placeholder of a query stands for.
-/

namespace SqlFront

/-- A decoded literal, or the label of a parameter that is bound later. -/
inductive Constant where
  /-- A signed integer of 64 bits. -/
  | int (value : Int)
  | decimal (value : Decimal)
  | string (text : String)
  /-- Bytes in written order. -/
  | binary (bytes : List UInt8)
  | null
  | placeholder (label : String)
  deriving DecidableEq

/-- The lower-case hexadecimal digits of a byte. -/
def byteDigits (byte : UInt8) : List Char :=
  [Nat.digitChar (byte.toNat / 16), Nat.digitChar (byte.toNat % 16)]

namespace Constant

/-- The name of the kind of a constant in messages. -/
def kindName : Constant → String
  | int _ => "integer"
  | decimal _ => "decimal"
  | string _ => "string"
  | binary _ => "binary"
  | null => "null"
  | placeholder _ => "placeholder"

def isNull : Constant → Bool
  | null => true
  | _ => false

/-- A text in single quotes, with the quotes inside it doubled. -/
def quoted (text : String) : String :=
  String.ofList ('\'' :: text.toList.flatMap (fun c => if c = '\'' then ['\'', '\''] else [c])
    ++ ['\''])

/-- A constant as SQL text. -/
def render : Constant → String
  | int value => toString value
  | decimal value => value.render
  | string text => quoted text
  | binary bytes => String.ofList ('0' :: 'x' :: bytes.flatMap byteDigits)
  | null => "NULL"
  | placeholder label => label

/-- Equality of constants; decimals compare by value, and a number of one kind never equals a
number of the other. -/
def same : Constant → Constant → Bool
  | decimal left, decimal right => left.same right
  | left, right => left = right

end Constant

end SqlFront
