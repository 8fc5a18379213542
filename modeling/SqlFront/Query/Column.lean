import SqlFront.EncryptionFlags
import SqlFront.Error
import SqlFront.Expr.Basic

/-!
Column definitions of new and changed tables.
-/

namespace SqlFront

/-- The length that stands for `MAX`. -/
def maxLength : Int := -1

/-- A column with its type and its properties. -/
structure ColumnDefinition where
  name : String
  dataType : DataType
  /-- The length or the precision, `maxLength` for `MAX`. -/
  length : Option Int
  scale : Option Int
  nullable : Bool
  encryption : EncryptionFlags
  defaultValue : Option Expr
  autoIncrement : Bool
  /-- The members of an enumeration. -/
  members : List String
  primaryKey : Bool
  unique : Bool

namespace ColumnDefinition

/-- A column of which only the name and the type are given. -/
def ofType (name : String) (dataType : DataType) : ColumnDefinition :=
  { name, dataType, length := none, scale := none, nullable := true,
    encryption := EncryptionFlags.none, defaultValue := none, autoIncrement := false,
    members := [], primaryKey := false, unique := false }

/-- Gives a length or a precision to a column whose type takes one. -/
def setLength (column : ColumnDefinition) (length : Int) :
    Except SemanticCause ColumnDefinition :=
  match column.dataType.lengthClass with
  | .fixed => .error (.lengthOfFixedType column.dataType column.name)
  | .members => .error (.lengthOfMemberType column.dataType column.name)
  | lengthClass =>
      if lengthClass = .precision ∧ length = maxLength then
        .error (.maximalPrecision column.dataType column.name)
      else if length < 0 ∧ length ≠ maxLength then
        .error (.negativeLength length column.name)
      else .ok { column with length := some length }

/-- The column is encrypted for some operation. -/
def isEncrypted (column : ColumnDefinition) : Bool := !column.encryption.isEmpty

/-- Equality of columns; default values compare as expressions do. -/
def same (left right : ColumnDefinition) : Bool :=
  left.name == right.name && left.dataType == right.dataType && left.length == right.length &&
    left.scale == right.scale && left.nullable == right.nullable &&
    left.encryption == right.encryption && left.autoIncrement == right.autoIncrement &&
    left.members == right.members && left.primaryKey == right.primaryKey &&
    left.unique == right.unique &&
    match left.defaultValue, right.defaultValue with
    | some l, some r => l.same r
    | none, none => true
    | _, _ => false

end ColumnDefinition

end SqlFront
