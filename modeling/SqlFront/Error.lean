import SqlFront.Constant
import SqlFront.DataType
import SqlFront.Fault
import SqlFront.Tree

/-!
Errors of the front end, by cause. The wording of every error is here.
-/

namespace SqlFront

/-- Why a query of the right shape has no meaning. -/
inductive SemanticCause where
  /-- A part is missing or misplaced under a production, or, without one, a token stands where a
  part belongs. -/
  | malformed (rule : Option Rule)
  | emptyTableName
  | tooManyQualifiers (qualifiers : List String) (table : String)
  | notACondition (clause found : String)
  | notAnOperand (found : String)
  | conditionAsValue (text : String)
  | notNegatable (found : String)
  | starArgument (function : String)
  | distinctArgument (function : String)
  | rowWidth (row width expected : Nat)
  | lengthOfFixedType (dataType : DataType) (column : String)
  | lengthOfMemberType (dataType : DataType) (column : String)
  | maximalPrecision (dataType : DataType) (column : String)
  | negativeLength (length : Int) (column : String)
  | severalLengths (dataType : DataType) (column : String)
  | invalidLength (text : String)
  | notAString (found : String)
  | invalidRowCount (found : String)
  | unknownFlag (name : String)
  | unknownKeyColumn (constraint column : String)
  | notALiteralSeed (text : String)
  | notBypassable (statement : String)
  | invalidNumber (text : String)
  | inexactNumber (text : String)
  | oddHexDigits (digits : String)
  /-- The byte at this place is no hexadecimal digit. -/
  | invalidHexDigit (digits : String) (byte : UInt8) (place : Nat)
  | notACharacter (found : Constant)
  /-- A cause that the caller describes. -/
  | custom (text : String)
  deriving DecidableEq

/-- What a query asks for that is understood and refused. -/
inductive UnsupportedCause where
  | topPercent
  | placeholderLimit
  | insertSelect
  | multiColumnUnique
  | unknownType (name : String) (dialect : Dialect)
  | alterAction (word : String)
  | modifyColumn (dialect : Dialect)
  | useDisabled
  | useStatement (dialect : Dialect)
  | bitwiseOperator (text : String)
  | modulo
  | subquery
  | inSubquery
  | notAColumn (operator found : String)
  | notALiteral (what text : String)
  | tooManyTerms (count limit : Nat)
  /-- A cause that the caller describes. -/
  | custom (text : String)
  deriving DecidableEq

/-- Why the settings cannot be used. -/
inductive ConfigCause where
  /-- The settings cannot be read at all. -/
  | unreadable
  | unknownDialect (name : String)
  | zeroNestingDepth
  | zeroTerms
  /-- A cause that the caller describes. -/
  | custom (text : String)
  deriving DecidableEq

/-- The decimal digits of a number in a message. -/
def numeral (n : Nat) : String := toString n

/-- A byte that is no hexadecimal digit, shown as the quoted character of that number. Controls
and blanks that do not print are shown by their number. -/
def quotedByte (byte : UInt8) : String :=
  let n := byte.toNat
  let shown : List Char :=
    if n = 0 then ['\\', '0']
    else if n = 9 then ['\\', 't']
    else if n = 10 then ['\\', 'n']
    else if n = 13 then ['\\', 'r']
    else if n = 39 then ['\\', '\'']
    else if n = 92 then ['\\', '\\']
    else if n < 32 || (127 ≤ n && n ≤ 160) || n = 173 then
      '\\' :: 'u' :: '\x7b' :: Nat.toDigits 16 n ++ ['\x7d']
    else [Char.ofNat n]
  String.ofList ('\'' :: shown ++ ['\''])

namespace SemanticCause

/-- The subject of a message about the length of a type. -/
def typeOfColumn (dataType : DataType) (column : String) : String :=
  "type " ++ dataType.name ++ " of column " ++ column

def message : SemanticCause → String
  | malformed rule => "malformed " ++ (rule.map Rule.name).getD "Terminal" ++ " node"
  | emptyTableName => "empty table name"
  | tooManyQualifiers qualifiers table =>
      "too many qualifiers in table name " ++ joined "." qualifiers ++ "." ++ table
  | notACondition clause found => clause ++ " expects a condition, found " ++ found
  | notAnOperand found => "AND / OR operands must be conditions, found " ++ found
  | conditionAsValue text => "a condition cannot be used as a value: " ++ text
  | notNegatable found => "NOT cannot be applied to a " ++ found
  | starArgument function => function ++ "(*) is not allowed"
  | distinctArgument function =>
      "DISTINCT is only allowed in aggregate functions, not " ++ function
  | rowWidth row width expected =>
      "VALUES row " ++ numeral row ++ " has " ++ numeral width ++ " values, expected " ++
        numeral expected
  | lengthOfFixedType dataType column =>
      typeOfColumn dataType column ++ " does not take a length"
  | lengthOfMemberType dataType column =>
      typeOfColumn dataType column ++ " takes a member list, not a length"
  | maximalPrecision dataType column => typeOfColumn dataType column ++ " does not accept MAX"
  | negativeLength length column =>
      "negative length " ++ toString length ++ " for column " ++ column
  | severalLengths dataType column => typeOfColumn dataType column ++ " takes a single length"
  | invalidLength text => "invalid type length " ++ text
  | notAString found => "expected a string literal, found " ++ found
  | invalidRowCount found => "row count must be a whole number, found " ++ found
  | unknownFlag name => "unknown encryption flag " ++ name
  | unknownKeyColumn constraint column => constraint ++ " names unknown column " ++ column
  | notALiteralSeed text => "opetree seed " ++ text ++ " is not a literal"
  | notBypassable statement => statement ++ " cannot be bypassed"
  | invalidNumber text => "invalid numeric literal " ++ text
  | inexactNumber text => "numeric literal " ++ text ++ " exceeds 28 digits of precision"
  | oddHexDigits digits =>
      "hexadecimal literal '" ++ digits ++ "' has an odd number of digits"
  | invalidHexDigit digits byte place =>
      "invalid hexadecimal literal '" ++ digits ++ "': Invalid character " ++ quotedByte byte ++
        " at position " ++ numeral place
  | notACharacter found => "ESCAPE expects a single character, found " ++ found.render
  | custom text => text

end SemanticCause

namespace UnsupportedCause

def message : UnsupportedCause → String
  | topPercent => "TOP ... PERCENT is not supported"
  | placeholderLimit => "placeholders are not supported as row limits"
  | insertSelect => "INSERT ... SELECT is not supported"
  | multiColumnUnique => "multi-column UNIQUE constraints are not supported"
  | unknownType name dialect =>
      "unknown data type " ++ name ++ " for the " ++ dialect.name ++ " dialect"
  | alterAction word => "ALTER TABLE ... " ++ word ++ " is not supported"
  | modifyColumn dialect =>
      "MODIFY COLUMN is not supported by the " ++ dialect.name ++ " dialect"
  | useDisabled => "USE statements are disabled by configuration"
  | useStatement dialect =>
      "USE statements are not supported by the " ++ dialect.name ++ " dialect"
  | bitwiseOperator text => "bitwise operator " ++ text ++ " is not supported"
  | modulo => "the modulo operator % is not supported"
  | subquery => "subqueries inside expressions are not supported"
  | inSubquery => "IN (SELECT ...) is not supported"
  | notAColumn operator found =>
      "the left side of " ++ operator ++ " must be a column, found " ++ found
  | notALiteral what text => what ++ " must be a literal, found " ++ text
  | tooManyTerms count limit =>
      "predicate expands to " ++ numeral count ++
        " terms in conjunctive normal form, the limit is " ++ numeral limit
  | custom text => text

end UnsupportedCause

namespace ConfigCause

def message : ConfigCause → String
  | unreadable => "unreadable settings"
  | unknownDialect name => "unknown dialect '" ++ name ++ "'"
  | zeroNestingDepth => "max_nesting_depth must be greater than zero"
  | zeroTerms => "max_cnf_leaves must be greater than zero"
  | custom text => text

end ConfigCause

/-- A failure of one of the stages. -/
inductive Failure where
  /-- The text cannot be read. -/
  | unreadable (cause : SyntaxCause) (position : Position)
  | semantic (cause : SemanticCause)
  | unsupported (cause : UnsupportedCause)
  | config (cause : ConfigCause)
  deriving DecidableEq

namespace Failure

def message : Failure → String
  | unreadable cause position =>
      "syntax error at line " ++ numeral position.line ++ ", column " ++
        numeral position.column ++ ": " ++ cause.message
  | semantic cause => "invalid query: " ++ cause.message
  | unsupported cause => "unsupported: " ++ cause.message
  | config cause => "invalid configuration: " ++ cause.message

end Failure

/-- An error of the front end: a failure, which is marked once when it ended the reading of a
batch. -/
inductive Error where
  | plain (failure : Failure)
  | parseFailed (failure : Failure)
  deriving DecidableEq

namespace Error

/-- The failure behind an error. -/
def failure : Error → Failure
  | plain failure => failure
  | parseFailed failure => failure

/-- Marks an error as one that ended the reading of a batch. -/
def mark (error : Error) : Error :=
  parseFailed error.failure

/-- The failure that a marked error carries. -/
def source? : Error → Option Failure
  | plain _ => none
  | parseFailed failure => some failure

/-- The error comes from reading a text. -/
def isParseFailure : Error → Bool
  | parseFailed _ => true
  | plain (.unreadable _ _) => true
  | plain _ => false

def message : Error → String
  | plain failure => failure.message
  | parseFailed failure => "parse failed: " ++ failure.message

@[simp]
theorem mark_mark (error : Error) : error.mark.mark = error.mark := rfl

end Error

/-- The result of a stage that reads no text. -/
abbrev Built (α : Type) := Except Failure α

/-- A refusal of what a query means. -/
def Built.reject {α : Type} (cause : SemanticCause) : Built α := .error (.semantic cause)

/-- A refusal of what a query asks for. -/
def Built.refuse {α : Type} (cause : UnsupportedCause) : Built α := .error (.unsupported cause)

/-- The value, or the refusal of a part that has no value. -/
def Built.require {α : Type} (cause : SemanticCause) : Option α → Built α
  | some value => .ok value
  | none => reject cause

/-- Where a dialect has no such statement, the refusal of it. -/
def Dialect.checkUse (dialect : Dialect) : Built Unit :=
  if dialect.supportsUse then .ok () else .error (.unsupported (.useStatement dialect))

end SqlFront
