import SqlFront.Query.Column
import SqlFront.Query.Select

/-!
Statements: what a batch asks for, one value for each statement.
-/

namespace SqlFront

structure InsertQuery where
  table : TableRef
  columns : Option (List ColumnRef)
  rows : List (List Expr)

structure UpdateQuery where
  table : TableRef
  assignments : List (ColumnRef × Expr)
  condition : Option Cnf

structure DeleteQuery where
  table : TableRef
  condition : Option Cnf

structure CreateTableQuery where
  table : TableRef
  ifNotExists : Bool
  columns : List ColumnDefinition

/-- The first column that is spelled so. -/
def CreateTableQuery.column? (query : CreateTableQuery) (name : String) :
    Option ColumnDefinition :=
  query.columns.find? fun column => column.name == name

structure AlterTableQuery where
  table : TableRef
  column : ColumnDefinition

structure DropTableQuery where
  table : TableRef
  ifExists : Bool

/-- A column of an index. -/
structure IndexColumn where
  column : ColumnRef
  direction : SortDirection
  deriving DecidableEq

structure CreateIndexQuery where
  name : String
  table : TableRef
  columns : List IndexColumn
  unique : Bool
  deriving DecidableEq

/-- A command on the keys of the database. -/
structure KeysCommand where
  destination : Option String
  statusCheck : Bool
  deriving DecidableEq

/-- A command on the encryption of a column. -/
structure ColumnCommand where
  column : ColumnRef
  flags : Option EncryptionFlags
  statusCheck : Bool
  deriving DecidableEq

/-- The unit in which the duration of a command is counted. -/
inductive TimeUnit where
  | seconds
  | minutes
  | hours
  deriving DecidableEq, Repr

/-- When a command on the encrypted tree has to stop. -/
inductive StopCondition where
  | immediate
  | after (duration : Decimal) (unit : TimeUnit)
  deriving DecidableEq

/-- A command on the encrypted tree. -/
structure OpetreeCommand where
  seeds : List Constant
  stop : Option StopCondition
  deriving DecidableEq

/-- A statement. -/
inductive Query where
  | select (query : SelectQuery)
  | insert (query : InsertQuery)
  | update (query : UpdateQuery)
  | delete (query : DeleteQuery)
  | createTable (query : CreateTableQuery)
  | alterTable (query : AlterTableQuery)
  | dropTable (query : DropTableQuery)
  | createIndex (query : CreateIndexQuery)
  | use (database : String)
  | showTables (database : Option String)
  | showColumns (table : TableRef)
  | exportKeys (command : KeysCommand)
  | updateKeys (command : KeysCommand)
  | encryptColumn (command : ColumnCommand)
  | decryptColumn (command : ColumnCommand)
  | rebuildOpetree (command : OpetreeCommand)
  | rebalanceOpetree (command : OpetreeCommand)
  | saveOpetree
  | loadOpetree
  | saveSchema
  | loadSchema
  /-- A statement that goes to the database as it is. -/
  | bypass (query : Query)
  | licenseRefresh
  | licenseSetKey (key : Option String)
  | licenseStatus

namespace Query

/-- The name of a kind of statement. -/
def kindName : Query → String
  | select _ => "SELECT"
  | insert _ => "INSERT"
  | update _ => "UPDATE"
  | delete _ => "DELETE"
  | createTable _ => "CREATE TABLE"
  | alterTable _ => "ALTER TABLE"
  | dropTable _ => "DROP TABLE"
  | createIndex _ => "CREATE INDEX"
  | use _ => "USE"
  | showTables _ => "SHOW TABLES"
  | showColumns _ => "SHOW COLUMNS"
  | exportKeys _ => "EXPORT KEYS"
  | updateKeys _ => "UPDATE KEYS"
  | encryptColumn _ => "ENCRYPT COLUMN"
  | decryptColumn _ => "DECRYPT COLUMN"
  | rebuildOpetree _ => "REBUILD OPETREE"
  | rebalanceOpetree _ => "REBALANCE OPETREE"
  | saveOpetree => "SAVE OPETREE"
  | loadOpetree => "LOAD OPETREE"
  | saveSchema => "SAVE SCHEMA"
  | loadSchema => "LOAD SCHEMA"
  | bypass _ => "BYPASS"
  | licenseRefresh => "LICENSE REFRESH"
  | licenseSetKey _ => "LICENSE SET KEY"
  | licenseStatus => "LICENSE STATUS"

/-- The statement may go to the database as it is. -/
def isBypassable : Query → Bool
  | select _ | insert _ | update _ | delete _ | createTable _ | alterTable _ | dropTable _
  | createIndex _ => true
  | _ => false

end Query

/-! ### Equality -/

namespace InsertQuery

def same (left right : InsertQuery) : Bool :=
  left.table == right.table && left.columns == right.columns &&
    left.rows.isEqv right.rows Expr.sameAll

end InsertQuery

namespace UpdateQuery

def same (left right : UpdateQuery) : Bool :=
  left.table == right.table &&
    left.assignments.isEqv right.assignments (fun l r => l.1 == r.1 && l.2.same r.2) &&
    sameOption Cnf.same left.condition right.condition

end UpdateQuery

namespace OpetreeCommand

def StopCondition.same : StopCondition → StopCondition → Bool
  | .immediate, .immediate => true
  | .after d u, .after d' u' => d.same d' && u == u'
  | _, _ => false

def same (left right : OpetreeCommand) : Bool :=
  left.seeds.isEqv right.seeds Constant.same &&
    sameOption StopCondition.same left.stop right.stop

end OpetreeCommand

namespace Query

/-- Equality of statements, part by part: expressions compare without their aliases, and decimals
by value. -/
def same : Query → Query → Bool
  | select l, select r => l.same r
  | insert l, insert r => l.same r
  | update l, update r => l.same r
  | delete l, delete r => l.table == r.table && sameOption Cnf.same l.condition r.condition
  | createTable l, createTable r =>
      l.table == r.table && l.ifNotExists == r.ifNotExists &&
        l.columns.isEqv r.columns ColumnDefinition.same
  | alterTable l, alterTable r => l.table == r.table && l.column.same r.column
  | dropTable l, dropTable r => l.table == r.table && l.ifExists == r.ifExists
  | createIndex l, createIndex r => l == r
  | use l, use r => l == r
  | showTables l, showTables r => l == r
  | showColumns l, showColumns r => l == r
  | exportKeys l, exportKeys r => l == r
  | updateKeys l, updateKeys r => l == r
  | encryptColumn l, encryptColumn r => l == r
  | decryptColumn l, decryptColumn r => l == r
  | rebuildOpetree l, rebuildOpetree r => l.same r
  | rebalanceOpetree l, rebalanceOpetree r => l.same r
  | saveOpetree, saveOpetree => true
  | loadOpetree, loadOpetree => true
  | saveSchema, saveSchema => true
  | loadSchema, loadSchema => true
  | bypass l, bypass r => same l r
  | licenseRefresh, licenseRefresh => true
  | licenseSetKey l, licenseSetKey r => l == r
  | licenseStatus, licenseStatus => true
  | _, _ => false

end Query

end SqlFront
