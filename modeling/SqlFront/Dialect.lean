import SqlFront.Text.Words

/-!
The three SQL dialects and what each of them spells differently: identifier quotes, literal
forms, comments, placeholders and row limits.
-/

namespace SqlFront

/-- A dialect of SQL. -/
inductive Dialect where
  | mssql
  | mysql
  | postgres
  deriving DecidableEq, Repr, Inhabited

namespace Dialect

/-- The name of a dialect in messages and settings. -/
def name : Dialect → String
  | mssql => "mssql"
  | mysql => "mysql"
  | postgres => "postgres"

/-- Every name a dialect goes by, all in lower case. -/
def names : List (String × Dialect) :=
  [("mssql", mssql), ("tsql", mssql), ("sqlserver", mssql), ("mysql", mysql),
    ("postgres", postgres), ("postgresql", postgres), ("pg", postgres)]

/-- The dialect of exactly this name. -/
def ofName? (name : String) : Option Dialect :=
  names.lookup name

/-- Backslashes escape the next character of an ordinary string. -/
def backslashEscapes : Dialect → Bool
  | mysql => true
  | _ => false

/-- Square brackets quote a name. -/
def bracketNames : Dialect → Bool
  | mssql => true
  | _ => false

/-- Backticks quote a name. -/
def backtickNames : Dialect → Bool
  | mysql => true
  | _ => false

/-- Double quotes enclose a string and not a name. -/
def doubleQuotedStrings : Dialect → Bool
  | mysql => true
  | _ => false

/-- An `N` may stand before a string. -/
def nationalStrings : Dialect → Bool
  | mssql => true
  | _ => false

/-- An `E` may stand before a string. -/
def escapeStrings : Dialect → Bool
  | postgres => true
  | _ => false

/-- Binary literals of the form `0x4202`. -/
def hexNumbers : Dialect → Bool
  | postgres => false
  | _ => true

/-- Binary literals of the form `X'4202'`. -/
def hexStrings : Dialect → Bool
  | mssql => false
  | _ => true

/-- A number sign starts a comment. -/
def hashComments : Dialect → Bool
  | mysql => true
  | _ => false

/-- Placeholders of the form `$1`. -/
def dollarPlaceholders : Dialect → Bool
  | postgres => true
  | _ => false

/-- Placeholders of the form `@name`. -/
def namedPlaceholders : Dialect → Bool
  | mssql => true
  | _ => false

/-- The `USE` statement exists. -/
def supportsUse : Dialect → Bool
  | postgres => false
  | _ => true

/-- Row limits of the form `SELECT TOP n`. -/
def supportsTop : Dialect → Bool
  | mssql => true
  | _ => false

/-- Row limits of the form `LIMIT n`. -/
def supportsLimit : Dialect → Bool
  | mssql => false
  | _ => true

/-- Row limits of the form `LIMIT offset, n`. -/
def supportsLimitComma : Dialect → Bool
  | mysql => true
  | _ => false

/-- Column changes of the form `ALTER TABLE t MODIFY c ...`. -/
def supportsModifyColumn : Dialect → Bool
  | mysql => true
  | _ => false

theorem ofName?_name (d : Dialect) : ofName? d.name = some d := by
  cases d <;> decide

end Dialect

end SqlFront
