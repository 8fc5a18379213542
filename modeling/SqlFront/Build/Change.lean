import SqlFront.Build.Select
import SqlFront.Query.Basic

/-!
Statements that change rows, built from parse trees.
-/

namespace SqlFront.Build.Context

/-- The table of a statement. -/
def table (context : Context) (tree : Tree) : Built TableRef := do
  TableRef.ofTree context.config.dialect (← tree.required .tableName)

/-- The column that a tree names. -/
def column (context : Context) (tree : Tree) : Built ColumnRef :=
  ColumnRef.ofTree context.config.dialect tree

/-- The columns among some trees, with their directions. -/
def indexColumns (context : Context) : List Tree → Built (List IndexColumn)
  | [] => .ok []
  | tree :: trees =>
      match tree.rule? with
      | some .columnName => do
          let column ← context.column tree
          return ⟨column, .ascending⟩ :: (← indexColumns context trees)
      | some .indexColumn => do
          let column ← context.column (← tree.required .columnName)
          return ⟨column, sortDirection tree⟩ :: (← indexColumns context trees)
      | _ => indexColumns context trees

/-- The columns in a list. -/
def columnList (context : Context) (list : Tree) : Built (List ColumnRef) := do
  return (← context.indexColumns list.children).map IndexColumn.column

/-- The condition of a statement, where it has one. -/
def whereClause? (context : Context) (tree : Tree) : Built (Option Cnf) :=
  match Tree.find? .whereClause tree.children with
  | some clause => do return some (← context.condition "WHERE" clause)
  | none => .ok none

/-- Rows of values, the first of them with this number. They all have the same width: the
expected one, or else that of the first row. -/
def valueRows (context : Context) (expected : Option Nat) (number : Nat) :
    List Tree → Built (List (List Expr))
  | [] => .ok []
  | row :: rows => do
      let values ← context.expressions row
      let width := expected.getD values.length
      if values.length ≠ width then
        Built.reject (.rowWidth number values.length width)
      else
        let more ← valueRows context (some width) (number + 1) rows
        return values :: more

def insert (context : Context) (tree : Tree) : Built InsertQuery := do
  if (Tree.find? .selectStatement tree.children).isSome then Built.refuse .insertSelect
  let table ← context.table tree
  let columns ←
    match Tree.find? .columnList tree.children with
    | some list => do pure (some (← context.columnList list))
    | none => pure none
  let clause ← tree.required .valuesClause
  let rows ← context.valueRows (columns.map List.length) 1
    (clause.children.filter (Tree.hasRule .valueRow))
  return ⟨table, columns, rows⟩

/-- A column and its new value, which is the last part of the tree. -/
def assignment (context : Context) (tree : Tree) : Built (ColumnRef × Expr) := do
  let name ← tree.required .columnName
  let value ← Built.require tree.malformed tree.children.getLast?
  let column ← context.column name
  return (column, ← context.expression value)

def update (context : Context) (tree : Tree) : Built UpdateQuery := do
  let assignments ← (tree.children.filter (Tree.hasRule .assignment)).mapM context.assignment
  let table ← context.table tree
  return ⟨table, assignments, ← context.whereClause? tree⟩

def delete (context : Context) (tree : Tree) : Built DeleteQuery := do
  let table ← context.table tree
  return ⟨table, ← context.whereClause? tree⟩

end SqlFront.Build.Context
