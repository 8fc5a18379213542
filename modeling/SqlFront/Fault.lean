import SqlFront.Token.Basic

/-!
Faults of a text: what keeps it from being read as tokens or as statements, and where.
-/

namespace SqlFront

/-- Why a text cannot be read. -/
inductive SyntaxCause where
  | unterminatedComment
  | unterminatedString
  | unterminatedHexString
  /-- The first byte of the offending character is shown as the character of that number. -/
  | notHexDigit (byte : Char)
  | invalidHexNumber
  | missingExponent
  | unterminatedName
  | emptyName
  | missingParameterNumber
  | missingParameterName
  | unexpectedCharacter (c : Char)
  | unexpectedToken (wanted : String) (found : Token)
  | nestingLimit (levels : Nat)
  | derivedTableAlias
  /-- A cause that the caller describes. -/
  | custom (text : String)
  deriving DecidableEq

def SyntaxCause.message : SyntaxCause → String
  | unterminatedComment => "unterminated block comment"
  | unterminatedString => "unterminated string literal"
  | unterminatedHexString => "unterminated hex literal"
  | notHexDigit byte => "invalid character '" ++ byte.toString ++ "' in hex literal"
  | invalidHexNumber => "invalid hex literal"
  | missingExponent => "expected digit after exponent"
  | unterminatedName => "unterminated quoted identifier"
  | emptyName => "empty quoted identifier"
  | missingParameterNumber => "expected parameter number after '$'"
  | missingParameterName => "expected parameter name after '@'"
  | unexpectedCharacter c => "unexpected character '" ++ c.toString ++ "'"
  | unexpectedToken wanted found => "expected " ++ wanted ++ ", found " ++ found.describe
  | nestingLimit levels => "nesting exceeds the limit of " ++ toString levels ++ " levels"
  | derivedTableAlias => "a derived table needs an alias"
  | custom text => text

/-- A cause and the byte offset it is reported at; without an offset, the end of the text. -/
structure Fault where
  cause : SyntaxCause
  offset : Option Nat
  deriving DecidableEq

/-- The line and column of a fault. -/
def Fault.position (fault : Fault) (source : Source) : Position :=
  source.position (fault.offset.getD (byteLength source))

end SqlFront
