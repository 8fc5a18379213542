import SqlFront.Grammar.Select
import SqlFront.Parser.Expression

/-!
Queries: the clauses of `SELECT`, and queries in parentheses as tables.
-/

namespace SqlFront.Parser

open Grammar

/-- A clause that starts with the next token, if that passes a test. -/
def clause? (test : Token → Bool) (clause : Parser Tree) : Parser (Option Tree) := do
  if test (← current) then return some (← clause) else return none

/-- The number of rows in a limit. -/
def rowCount : Parser Tree :=
  expect (fun token => isNumber token || isPlaceholder token) "a row count"

/-- A row limit before the select list. The count may be in parentheses. -/
def topClause : Parser Tree := do
  let parts := [← advance]
  let parts ←
    if isSymbol .leftParen (← current) then do
      let parts := parts ++ [← advance]
      let parts := parts ++ [← rowCount]
      pure (parts ++ [← expectSymbol .rightParen])
    else pure (parts ++ [← rowCount])
  let parts := parts ++ (← accept (Token.isWord "PERCENT")).toList
  return .ofParts .topClause parts

/-- The words of a join up to its table, and whether it is a cross join, which has no condition; or
nothing where no join starts. -/
def joinSide : Parser (Option (List Tree × Bool)) := do
  let token ← current
  if isKeyword .JOIN token then return some ([], false)
  else if isKeyword .INNER token then return some ([← advance], false)
  else if isOneOf [.LEFT, .RIGHT, .FULL] token then
    let parts := [← advance]
    let parts := parts ++ (← accept (isKeyword .OUTER)).toList
    return some (parts, false)
  else if isKeyword .CROSS token then return some ([← advance], true)
  else return none

namespace Level

variable (level : Level)

/-- A star, or an expression and perhaps its alias. -/
def selectItem : Parser Tree := do
  if isSymbol .star (← current) then
    let star ← advance
    return .ofParts .selectItem [.ofParts .allColumns [star]]
  else
    let parts := [← level.expression]
    let parts := parts ++ (← alias?).toList
    return .ofParts .selectItem parts

def selectList : Parser Tree := do
  let parts ← addItems level.selectItem []
  return .ofParts .selectList parts

/-- A table, or a query in parentheses, which cannot do without an alias. -/
def tablePrimary : Parser Tree := do
  if isSymbol .leftParen (← current) then
    level.nested fun deeper => do
      let parts := [← advance]
      let parts := parts ++ [← deeper.select]
      let parts := parts ++ [← expectSymbol .rightParen]
      match ← alias? with
      | some name => return .ofParts .derivedTable (parts ++ [name])
      | none => fail .derivedTableAlias
  else tableName true

/-- A join, if one starts here. -/
def join? : Parser (Option Tree) := do
  match ← joinSide with
  | none => return none
  | some (parts, isCross) =>
      let parts := parts ++ [← expectKeyword .JOIN]
      let parts := parts ++ [← level.tablePrimary]
      if isCross then return some (.ofParts .joinClause parts)
      else
        let condition := [← expectKeyword .ON, ← level.expression]
        return some (.ofParts .joinClause (parts ++ [.ofParts .joinCondition condition]))

def tableSource : Parser Tree := do
  let parts := [← level.tablePrimary]
  let parts ← addAll level.join? parts
  return .ofParts .tableSource parts

def fromClause : Parser Tree := do
  let parts := [← expectKeyword .FROM]
  let parts ← addItems level.tableSource parts
  return .ofParts .fromClause parts

/-- A `WHERE` clause, if there is one. -/
def whereClause? : Parser (Option Tree) := do
  match ← accept (isKeyword .WHERE) with
  | some word => return some (.ofParts .whereClause [word, ← level.expression])
  | none => return none

def groupByClause : Parser Tree := do
  let parts := [← advance, ← expectKeyword .BY]
  let parts ← addItems level.expression parts
  return .ofParts .groupByClause parts

def havingClause : Parser Tree := do
  let parts := [← advance, ← level.expression]
  return .ofParts .havingClause parts

def orderItem : Parser Tree := do
  let parts := [← level.expression]
  let parts := parts ++ (← accept (isOneOf [.ASC, .DESC])).toList
  return .ofParts .orderItem parts

def orderByClause : Parser Tree := do
  let parts := [← advance, ← expectKeyword .BY]
  let parts ← addItems level.orderItem parts
  return .ofParts .orderByClause parts

/-- A row limit and the offset after it. The form with a comma is not in every dialect. -/
def limitClause : Parser Tree := do
  let parts := [← advance, ← rowCount]
  if level.dialect.supportsLimitComma && isSymbol .comma (← current) then
    let parts := parts ++ [← advance]
    return .ofParts .limitClause (parts ++ [← rowCount])
  else
    match ← accept (isKeyword .OFFSET) with
    | some offset => return .ofParts .limitClause (parts ++ [offset] ++ [← rowCount])
    | none => return .ofParts .limitClause parts

def select : Parser Tree := do
  let parts := [← expectKeyword .SELECT]
  let parts := parts ++ (← accept (isOneOf [.DISTINCT, .ALL])).toList
  let parts := parts ++ (← clause? (fun token =>
    level.dialect.supportsTop && token.isWord "TOP") topClause).toList
  let parts := parts ++ [← level.selectList]
  let parts := parts ++ (← clause? (isKeyword .FROM) level.fromClause).toList
  let parts := parts ++ (← level.whereClause?).toList
  let parts := parts ++ (← clause? (isKeyword .GROUP) level.groupByClause).toList
  let parts := parts ++ (← clause? (isKeyword .HAVING) level.havingClause).toList
  let parts := parts ++ (← clause? (isKeyword .ORDER) level.orderByClause).toList
  let parts := parts ++ (← clause? (fun token =>
    level.dialect.supportsLimit && isKeyword .LIMIT token) level.limitClause).toList
  return .ofParts .selectStatement parts

end Level

end SqlFront.Parser
