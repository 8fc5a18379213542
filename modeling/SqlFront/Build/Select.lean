import SqlFront.Build.Expression
import SqlFront.Cnf.Size
import SqlFront.Grammar.Form
import SqlFront.Query.Select

/-!
Queries that select rows, built from parse trees.
-/

namespace SqlFront.Build

/-- The direction that is written in a tree. -/
def sortDirection (tree : Tree) : SortDirection :=
  if Tree.hasKeyword .DESC tree.children then .descending else .ascending

/-- The numbers and placeholders directly in a tree. -/
def counts (tree : Tree) : List Token :=
  ((Tree.leaves tree.children).map Lexeme.token).filter fun token =>
    Grammar.isNumber token || Grammar.isPlaceholder token

/-- The number of rows that a token stands for. -/
def rowCount : Token → Built Nat
  | .number text => Built.require (.invalidRowCount text) (nat64? text.toList)
  | .placeholder _ => Built.refuse .placeholderLimit
  | token => Built.reject (.invalidRowCount token.describe)

/-- The limit of a clause that stands before the select list. -/
def topLimit (clause : Tree) : Built RowLimit := do
  if Tree.hasWord "PERCENT" clause.children then Built.refuse .topPercent
  let count ← Built.require clause.malformed (counts clause).head?
  return ⟨← rowCount count, none⟩

/-- The limit of a clause at the end. With a comma, the offset stands first. -/
def limit (clause : Tree) : Built RowLimit :=
  match counts clause with
  | [count] => do return ⟨← rowCount count, none⟩
  | [first, second] => do
      let (count, offset) :=
        if Tree.hasToken (.symbol .comma) clause.children then (second, first)
        else (first, second)
      return ⟨← rowCount count, some (← rowCount offset)⟩
  | _ => Built.reject clause.malformed

/-- The kind that the words of a join stand for. -/
def joinKind (children : List Tree) : JoinKind :=
  if Tree.hasKeyword .CROSS children then .cross
  else if Tree.hasKeyword .LEFT children then .left
  else if Tree.hasKeyword .RIGHT children then .right
  else if Tree.hasKeyword .FULL children then .full
  else .inner

/-- Gives an expression the alias that a query writes; a column keeps it too. -/
def named (aliasName : String) : Expr → Expr
  | .column _ column => .column (some aliasName) { column with aliasName := some aliasName }
  | e => e.withAlias (some aliasName)

namespace Context

/-- The first expression in a tree. -/
def firstExpression (context : Context) (tree : Tree) : Built Expr := do
  context.expression (← Built.require tree.malformed (tree.children.find? Tree.isExpression))

/-- All expressions in a tree. -/
def expressions (context : Context) (tree : Tree) : Built (List Expr) :=
  (tree.children.filter Tree.isExpression).mapM context.expression

/-- The condition of a clause in conjunctive normal form; `name` is the word that starts the
clause. -/
def condition (context : Context) (name : String) (clause : Tree) : Built Cnf := do
  let e ← context.firstExpression clause
  if e.isPredicate then
    (e.normalizeWithin context.config.maxCnfLeaves).mapError .unsupported
  else Built.reject (.notACondition name e.kindName)

/-- An expression of the select list. -/
def selectItem (context : Context) (item : Tree) : Built Expr := do
  let e ← context.firstExpression item
  match Tree.find? .aliasClause item.children with
  | some _ => return named (← item.aliasName) e
  | none => return e

/-- A sorting key. -/
def orderItem (context : Context) (item : Tree) : Built OrderItem := do
  return ⟨← context.firstExpression item, sortDirection item⟩

/-- Adds a clause that holds no table to a query. -/
def clause (context : Context) (tree : Tree) (query : SelectQuery) : Built SelectQuery :=
  match tree.rule? with
  | some .topClause => do return { query with limit := some (← topLimit tree) }
  | some .selectList => do
      let items ← (tree.children.filter (Tree.hasRule .selectItem)).mapM context.selectItem
      return { query with items }
  | some .whereClause => do
      return { query with condition := some (← context.condition "WHERE" tree) }
  | some .groupByClause => do
      return { query with grouping := some (← context.expressions tree) }
  | some .havingClause => do
      return { query with having := some (← context.condition "HAVING" tree) }
  | some .orderByClause => do
      let ordering ← (tree.children.filter (Tree.hasRule .orderItem)).mapM context.orderItem
      return { query with ordering }
  | some .limitClause => do return { query with limit := some (← limit tree) }
  | _ => .ok query

mutual

/-- The query that a tree stands for. -/
def select (context : Context) : Tree → Built SelectQuery
  | .leaf _ => Built.reject (.malformed none)
  | .node _ _ children =>
      clauses context children (SelectQuery.empty (Tree.hasKeyword .DISTINCT children))

/-- Adds clauses to a query, one after the other. -/
def clauses (context : Context) : List Tree → SelectQuery → Built SelectQuery
  | [], query => .ok query
  | .node .fromClause _ children :: trees, query => do
      let sources ← fromItems context children
      clauses context trees { query with sources }
  | tree :: trees, query => do
      let query ← clause context tree query
      clauses context trees query

/-- The tables among some trees, each with those that are joined to it. -/
def fromItems (context : Context) : List Tree → Built (List FromItem)
  | [] => .ok []
  | .node .tableSource _ children :: trees => do
      let item ← fromItem context children
      let items ← fromItems context trees
      return item :: items
  | _ :: trees => fromItems context trees

/-- A table and its joins, from the parts of their node. -/
def fromItem (context : Context) : List Tree → Built FromItem
  | [] => Built.reject (.malformed (some .tableSource))
  | primary :: rest => do
      let source ← tableSource context primary
      let joins ← joins context rest
      return ⟨source, joins⟩

/-- The joins among some trees. -/
def joins (context : Context) : List Tree → Built (List Join)
  | [] => .ok []
  | .node .joinClause _ children :: trees => do
      let source ← Built.require (.malformed (some .joinClause)) (joinedSource context children)
      let condition ←
        match Tree.find? .joinCondition children with
        | some clause => (context.condition "ON" clause).map some
        | none => .ok none
      let source ← source
      let joins ← joins context trees
      return ⟨joinKind children, source, condition⟩ :: joins
  | _ :: trees => joins context trees

/-- The first table among some trees. -/
def joinedSource (context : Context) : List Tree → Option (Built TableSource)
  | [] => none
  | tree :: trees =>
      if tree.hasRule .tableName || tree.hasRule .derivedTable then
        some (tableSource context tree)
      else joinedSource context trees

/-- A table, or a query that is used as one. -/
def tableSource (context : Context) : Tree → Built TableSource
  | .node .tableName span children => do
      let table ← TableRef.ofTree context.config.dialect (.node .tableName span children)
      return .table table
  | .node .derivedTable span children => do
      let query ← Built.require (.malformed (some .derivedTable)) (innerQuery context children)
      let query ← query
      let aliasName ← (Tree.node .derivedTable span children).aliasName
      return .derived query aliasName
  | tree => Built.reject tree.malformed

/-- The first query among some trees. -/
def innerQuery (context : Context) : List Tree → Option (Built SelectQuery)
  | [] => none
  | tree :: trees =>
      if tree.hasRule .selectStatement then some (select context tree)
      else innerQuery context trees

end

end Context

end SqlFront.Build
