/-!
References to tables and columns, as a query writes them: quotes removed, case kept.
-/

namespace SqlFront

/-- A table, with the qualifiers in front of its name and the alias after it. -/
structure TableRef where
  database : Option String
  schema : Option String
  name : String
  aliasName : Option String
  deriving DecidableEq, Repr

namespace TableRef

/-- A table that is named without qualifier or alias. -/
def ofName (name : String) : TableRef := ⟨none, none, name, none⟩

/-- The name by which other clauses refer to the table. -/
def referenceName (table : TableRef) : String :=
  table.aliasName.getD table.name

/-- A qualifier and the dot after it. -/
def qualifierText : Option String → String
  | some qualifier => qualifier ++ "."
  | none => ""

def render (table : TableRef) : String :=
  qualifierText table.database ++ qualifierText table.schema ++ table.name ++
    match table.aliasName with
    | some aliasName => " AS " ++ aliasName
    | none => ""

end TableRef

/-- A column, with the table in front of its name. -/
structure ColumnRef where
  table : Option TableRef
  name : String
  aliasName : Option String
  deriving DecidableEq, Repr

namespace ColumnRef

/-- A column that is named without its table. -/
def ofName (name : String) : ColumnRef := ⟨none, name, none⟩

def render (column : ColumnRef) : String :=
  TableRef.qualifierText (column.table.map TableRef.referenceName) ++ column.name

end ColumnRef

end SqlFront
