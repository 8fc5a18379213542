import SqlFront.Config
import SqlFront.Name

/-!
References to tables and columns, built from the names in parse trees.
-/

namespace SqlFront

/-- A result whose only failures are about meaning. -/
def Built.ofMeaning {α : Type} (result : Except SemanticCause α) : Built α :=
  result.mapError .semantic

namespace Tree

/-- The complaint that a part of this tree is missing or misplaced. -/
def malformed (tree : Tree) : SemanticCause := .malformed tree.rule?

/-- The parts of this tree that are nodes of a production, the first of them or a complaint. -/
def required (rule : Rule) (tree : Tree) : Built Tree :=
  Built.require tree.malformed (find? rule tree.children)

/-- The name in the alias of a tree. -/
def aliasName (tree : Tree) : Built String :=
  Built.require tree.malformed do
    let clause ← find? .aliasClause tree.children
    (names clause.children).getLast?

/-- The last name directly in a tree. -/
def lastName (tree : Tree) : Built String :=
  Built.require tree.malformed (names tree.children).getLast?

end Tree

/-- The table of a name and the qualifiers before it. One qualifier is the database in MySQL and
the schema elsewhere; two are the database and the schema. -/
def TableRef.ofParts (dialect : Dialect) (parts : List String) : Built TableRef :=
  match parts with
  | [] => Built.reject .emptyTableName
  | [name] => .ok (ofName name)
  | [qualifier, name] =>
      if dialect = .mysql then .ok { ofName name with database := some qualifier }
      else .ok { ofName name with schema := some qualifier }
  | [database, schema, name] =>
      .ok { ofName name with database := some database, schema := some schema }
  | parts => Built.reject (.tooManyQualifiers parts.dropLast (parts.getLast?.getD ""))

/-- The table that a tree names, with its alias. -/
def TableRef.ofTree (dialect : Dialect) (tree : Tree) : Built TableRef := do
  let table ← ofParts dialect (Tree.names tree.children)
  match Tree.find? .aliasClause tree.children with
  | some _ => return { table with aliasName := some (← tree.aliasName) }
  | none => return table

/-- The column that a tree names; the names before the last one are those of its table. -/
def ColumnRef.ofTree (dialect : Dialect) (tree : Tree) : Built ColumnRef := do
  let parts := Tree.names tree.children
  let name ← tree.lastName
  match parts.dropLast with
  | [] => return ofName name
  | qualifiers => return { ofName name with table := some (← TableRef.ofParts dialect qualifiers) }

end SqlFront
