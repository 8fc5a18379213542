import SqlFront.Dialect

/-!
Column types, the way each of them treats arguments in parentheses, and the names that the
dialects give them.
-/

namespace SqlFront

/-- A column type of any dialect. -/
inductive DataType where
  | tinyInt
  | smallInt
  | mediumInt
  | int
  | bigInt
  | boolean
  | decimal
  | numeric
  | money
  | smallMoney
  | real
  | float
  | double
  | date
  | time
  | timeTz
  | dateTime
  | dateTime2
  | smallDateTime
  | dateTimeOffset
  | timestamp
  | timestampTz
  | year
  | char
  | varChar
  | nChar
  | nVarChar
  | text
  | nText
  | tinyText
  | mediumText
  | longText
  | bit
  | binary
  | varBinary
  | image
  | blob
  | tinyBlob
  | mediumBlob
  | longBlob
  | bytea
  | uniqueIdentifier
  | uuid
  | json
  | enum
  | set
  deriving DecidableEq, Repr

/-- What the arguments in parentheses after a type mean. -/
inductive LengthClass where
  /-- The width is fixed and no argument is allowed. -/
  | fixed
  /-- One length, or `MAX`. -/
  | variable
  /-- A precision, and then perhaps a scale. -/
  | precision
  /-- The member strings of an enumeration. -/
  | members
  deriving DecidableEq, Repr

namespace DataType

def lengthClass : DataType → LengthClass
  | tinyInt | smallInt | mediumInt | int | bigInt | boolean | money | smallMoney | real | float
  | double | date | time | timeTz | dateTime | dateTime2 | smallDateTime | dateTimeOffset
  | timestamp | timestampTz | year | uniqueIdentifier | uuid | json => .fixed
  | decimal | numeric => .precision
  | enum | set => .members
  | char | varChar | nChar | nVarChar | text | nText | tinyText | mediumText | longText | bit
  | binary | varBinary | image | blob | tinyBlob | mediumBlob | longBlob | bytea => .variable

/-- The upper-case name of a type, the same in every dialect. -/
def name : DataType → String
  | tinyInt => "TINYINT"
  | smallInt => "SMALLINT"
  | mediumInt => "MEDIUMINT"
  | int => "INT"
  | bigInt => "BIGINT"
  | boolean => "BOOLEAN"
  | decimal => "DECIMAL"
  | numeric => "NUMERIC"
  | money => "MONEY"
  | smallMoney => "SMALLMONEY"
  | real => "REAL"
  | float => "FLOAT"
  | double => "DOUBLE"
  | date => "DATE"
  | time => "TIME"
  | timeTz => "TIMETZ"
  | dateTime => "DATETIME"
  | dateTime2 => "DATETIME2"
  | smallDateTime => "SMALLDATETIME"
  | dateTimeOffset => "DATETIMEOFFSET"
  | timestamp => "TIMESTAMP"
  | timestampTz => "TIMESTAMPTZ"
  | year => "YEAR"
  | char => "CHAR"
  | varChar => "VARCHAR"
  | nChar => "NCHAR"
  | nVarChar => "NVARCHAR"
  | text => "TEXT"
  | nText => "NTEXT"
  | tinyText => "TINYTEXT"
  | mediumText => "MEDIUMTEXT"
  | longText => "LONGTEXT"
  | bit => "BIT"
  | binary => "BINARY"
  | varBinary => "VARBINARY"
  | image => "IMAGE"
  | blob => "BLOB"
  | tinyBlob => "TINYBLOB"
  | mediumBlob => "MEDIUMBLOB"
  | longBlob => "LONGBLOB"
  | bytea => "BYTEA"
  | uniqueIdentifier => "UNIQUEIDENTIFIER"
  | uuid => "UUID"
  | json => "JSON"
  | enum => "ENUM"
  | set => "SET"

end DataType

/-- A type as a dialect names it. -/
structure TypeName where
  dataType : DataType
  /-- The name also makes the column count by itself, as `SERIAL` does. -/
  counting : Bool
  deriving DecidableEq, Repr

namespace Dialect

/-- The type names of a dialect, in upper case and with single spaces between words. -/
def plainTypes : Dialect → List (String × DataType)
  | mssql =>
      [("TINYINT", .tinyInt), ("SMALLINT", .smallInt), ("INT", .int), ("INTEGER", .int),
        ("BIGINT", .bigInt), ("BIT", .boolean), ("DECIMAL", .decimal), ("DEC", .decimal),
        ("NUMERIC", .numeric), ("MONEY", .money), ("SMALLMONEY", .smallMoney), ("REAL", .real),
        ("FLOAT", .float), ("DATE", .date), ("TIME", .time), ("DATETIME", .dateTime),
        ("DATETIME2", .dateTime2), ("SMALLDATETIME", .smallDateTime),
        ("DATETIMEOFFSET", .dateTimeOffset), ("CHAR", .char), ("CHARACTER", .char),
        ("VARCHAR", .varChar), ("CHAR VARYING", .varChar), ("CHARACTER VARYING", .varChar),
        ("NCHAR", .nChar), ("NVARCHAR", .nVarChar), ("TEXT", .text), ("NTEXT", .nText),
        ("BINARY", .binary), ("VARBINARY", .varBinary), ("IMAGE", .image),
        ("UNIQUEIDENTIFIER", .uniqueIdentifier)]
  | mysql =>
      [("TINYINT", .tinyInt), ("SMALLINT", .smallInt), ("MEDIUMINT", .mediumInt), ("INT", .int),
        ("INTEGER", .int), ("BIGINT", .bigInt), ("BOOL", .boolean), ("BOOLEAN", .boolean),
        ("DECIMAL", .decimal), ("DEC", .decimal), ("FIXED", .decimal), ("NUMERIC", .numeric),
        ("FLOAT", .float), ("DOUBLE", .double), ("DOUBLE PRECISION", .double), ("REAL", .double),
        ("DATE", .date), ("TIME", .time), ("DATETIME", .dateTime), ("TIMESTAMP", .timestamp),
        ("YEAR", .year), ("CHAR", .char), ("CHARACTER", .char), ("VARCHAR", .varChar),
        ("CHARACTER VARYING", .varChar), ("NCHAR", .nChar), ("NVARCHAR", .nVarChar),
        ("TEXT", .text), ("TINYTEXT", .tinyText), ("MEDIUMTEXT", .mediumText),
        ("LONGTEXT", .longText), ("BIT", .bit), ("BINARY", .binary), ("VARBINARY", .varBinary),
        ("BLOB", .blob), ("TINYBLOB", .tinyBlob), ("MEDIUMBLOB", .mediumBlob),
        ("LONGBLOB", .longBlob), ("JSON", .json), ("ENUM", .enum), ("SET", .set)]
  | postgres =>
      [("SMALLINT", .smallInt), ("INT2", .smallInt), ("INT", .int), ("INTEGER", .int),
        ("INT4", .int), ("BIGINT", .bigInt), ("INT8", .bigInt), ("BOOLEAN", .boolean),
        ("BOOL", .boolean), ("DECIMAL", .numeric), ("NUMERIC", .numeric), ("MONEY", .money),
        ("REAL", .real), ("FLOAT4", .real), ("FLOAT", .double), ("FLOAT8", .double),
        ("DOUBLE PRECISION", .double), ("DATE", .date), ("TIME", .time),
        ("TIME WITHOUT TIME ZONE", .time), ("TIMETZ", .timeTz),
        ("TIME WITH TIME ZONE", .timeTz), ("TIMESTAMP", .timestamp),
        ("TIMESTAMP WITHOUT TIME ZONE", .timestamp), ("TIMESTAMPTZ", .timestampTz),
        ("TIMESTAMP WITH TIME ZONE", .timestampTz), ("CHAR", .char), ("CHARACTER", .char),
        ("VARCHAR", .varChar), ("CHARACTER VARYING", .varChar), ("TEXT", .text),
        ("BYTEA", .bytea), ("BIT", .bit), ("BIT VARYING", .bit), ("VARBIT", .bit),
        ("UUID", .uuid), ("JSON", .json), ("JSONB", .json)]

/-- The type names of a dialect whose columns count by themselves. -/
def countingTypes : Dialect → List (String × DataType)
  | postgres =>
      [("SMALLSERIAL", .smallInt), ("SERIAL2", .smallInt), ("SERIAL", .int), ("SERIAL4", .int),
        ("BIGSERIAL", .bigInt), ("SERIAL8", .bigInt)]
  | _ => []

/-- The type of this name, in any case, with single spaces between words. -/
def typeOfName? (dialect : Dialect) (name : String) : Option TypeName :=
  match dialect.countingTypes.lookup (upperWord name) with
  | some dataType => some ⟨dataType, true⟩
  | none => (dialect.plainTypes.lookup (upperWord name)).map (⟨·, false⟩)

end Dialect

end SqlFront
