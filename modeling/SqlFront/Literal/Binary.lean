import SqlFront.Error

/-!
Binary literals: two hexadecimal digits for each byte, the first byte first.
-/

namespace SqlFront.Literal

/-- A way to decode the bytes of a text of hexadecimal digits. It gives a byte for each pair of
digits, or the first byte of the text that is no digit, with its place. -/
class HexDecoder where
  decode (text : List UInt8) : Except (UInt8 × Nat) (List UInt8)

/-- The value of a byte that is a hexadecimal digit in ASCII. -/
def hexValue? (byte : UInt8) : Option Nat :=
  let n := byte.toNat
  if 48 ≤ n && n ≤ 57 then some (n - 48)
  else if 97 ≤ n && n ≤ 102 then some (n - 87)
  else if 65 ≤ n && n ≤ 70 then some (n - 55)
  else none

/-- The value of the digit at a place, or that place and the byte there. -/
def hexDigit (byte : UInt8) (place : Nat) : Except (UInt8 × Nat) Nat :=
  match hexValue? byte with
  | some value => .ok value
  | none => .error (byte, place)

/-- The bytes that pairs of digits stand for, the first digit being at `place`. -/
def hexBytes (place : Nat) : List UInt8 → Except (UInt8 × Nat) (List UInt8)
  | high :: low :: rest => do
      let first ← hexDigit high place
      let second ← hexDigit low (place + 1)
      let bytes ← hexBytes (place + 2) rest
      return UInt8.ofNat (16 * first + second) :: bytes
  | _ => .ok []

/-- Decoding pair by pair. -/
instance HexDecoder.pairwise : HexDecoder := ⟨hexBytes 0⟩

/-- The bytes that a text of hexadecimal digits stands for, where they are decoded by `decoder`. -/
def hexBy (decoder : HexDecoder) (digits : String) : Except SemanticCause (List UInt8) :=
  let encoded := utf8Bytes digits.toList
  if encoded.length % 2 = 1 then .error (.oddHexDigits digits)
  else (decoder.decode encoded).mapError fun (byte, place) => .invalidHexDigit digits byte place

/-- The bytes that a text of hexadecimal digits stands for. -/
def hex (digits : String) : Except SemanticCause (List UInt8) :=
  hexBy .pairwise digits

end SqlFront.Literal
