import SqlFront.Dialect
import SqlFront.Grammar.Expression

/-!
Forms of queries: the clauses of `SELECT`, and queries in parentheses.
-/

namespace SqlFront.Grammar

/-- The number of rows in a limit. -/
def rowCount : Form := .token (fun token => isNumber token || isPlaceholder token) "a row count"

/-- A row limit before the select list. The count may be in parentheses. -/
def topClause : Form :=
  .node .topClause <| .all
    [.word "TOP",
      .ifAt [isSymbol .leftParen]
        (.all [.symbol .leftParen, rowCount, .symbol .rightParen]) rowCount,
      .optional [Token.isWord "PERCENT"] (.word "PERCENT")]

/-- A star, or an expression and perhaps its alias. -/
def selectItem : Form :=
  .node .selectItem <|
    .ifAt [isSymbol .star] (.node .allColumns (.symbol .star)) (.seq expression alias?)

def selectList : Form := .node .selectList (.commaList selectItem)

/-- A table or a query in parentheses. -/
def tablePrimary : Form := .ifAt [isSymbol .leftParen] (.deeper .derivedTable) aliasedTable

/-- The words that start a join. -/
def startsJoin : Token → Bool := isOneOf [.JOIN, .INNER, .LEFT, .RIGHT, .FULL, .CROSS]

/-- The words before `JOIN` in a join that has a condition. -/
def joinSide : Form :=
  .ifAt [isKeyword .INNER] (.keyword .INNER) <|
  .optional [isOneOf [.LEFT, .RIGHT, .FULL]] <|
    .seq (.token (isOneOf [.LEFT, .RIGHT, .FULL]) "a join")
      (.optional [isKeyword .OUTER] (.keyword .OUTER))

/-- A join; only a cross join has no condition. -/
def join : Form :=
  .node .joinClause <|
    .ifAt [isKeyword .CROSS] (.all [.keyword .CROSS, .keyword .JOIN, tablePrimary]) <|
    .all [joinSide, .keyword .JOIN, tablePrimary,
      .node .joinCondition (.seq (.keyword .ON) expression)]

def tableSource : Form := .node .tableSource (.seq tablePrimary (.whileAt [startsJoin] join))

def fromClause : Form := .node .fromClause (.seq (.keyword .FROM) (.commaList tableSource))

/-- A `WHERE` clause, if there is one. -/
def whereClause? : Form :=
  .optional [isKeyword .WHERE] (.node .whereClause (.seq (.keyword .WHERE) expression))

def groupByClause : Form :=
  .node .groupByClause (.all [.keyword .GROUP, .keyword .BY, .commaList expression])

def havingClause : Form := .node .havingClause (.seq (.keyword .HAVING) expression)

def orderByClause : Form :=
  .node .orderByClause <|
    .all [.keyword .ORDER, .keyword .BY, .commaList (.node .orderItem (.seq expression direction))]

/-- An offset after a row limit. The form with a comma is not in every dialect. -/
def offset (dialect : Dialect) : Form :=
  let named := .optional [isKeyword .OFFSET] (.seq (.keyword .OFFSET) rowCount)
  if dialect.supportsLimitComma then
    .ifAt [isSymbol .comma] (.seq (.symbol .comma) rowCount) named
  else named

def limitClause (dialect : Dialect) : Form :=
  .node .limitClause (.all [.keyword .LIMIT, rowCount, offset dialect])

/-- A form that only some dialects have. -/
def when (available : Bool) (form : Form) : Form := if available then form else .empty

def select (dialect : Dialect) : Form :=
  .node .selectStatement <| .all
    [.keyword .SELECT,
      .optional [isOneOf [.DISTINCT, .ALL]] (.token (isOneOf [.DISTINCT, .ALL]) "a quantifier"),
      when dialect.supportsTop (.optional [Token.isWord "TOP"] topClause),
      selectList,
      .optional [isKeyword .FROM] fromClause,
      whereClause?,
      .optional [isKeyword .GROUP] groupByClause,
      .optional [isKeyword .HAVING] havingClause,
      .optional [isKeyword .ORDER] orderByClause,
      when dialect.supportsLimit (.optional [isKeyword .LIMIT] (limitClause dialect))]

/-- A query in parentheses, as an operand. -/
def subqueryBody (dialect : Dialect) : Form :=
  .node .subquery (.all [.symbol .leftParen, select dialect, .symbol .rightParen])

/-- A query in parentheses, as a table. It cannot do without an alias. -/
def derivedTableBody (dialect : Dialect) : Form :=
  .node .derivedTable <| .all
    [.symbol .leftParen, select dialect, .symbol .rightParen,
      .ifAt [fun token => isKeyword .AS token || token.isName] alias?
        (.refuse fun _ => .derivedTableAlias)]

end SqlFront.Grammar
