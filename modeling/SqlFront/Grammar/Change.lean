import SqlFront.Grammar.Select

/-!
Forms of the statements that change rows: `INSERT`, `UPDATE` and `DELETE`.
-/

namespace SqlFront.Grammar

def valuesClause : Form :=
  .node .valuesClause (.seq (.keyword .VALUES) (.commaList (.deeper .valueRow)))

def insert (dialect : Dialect) : Form :=
  .node .insertStatement <| .all
    [.keyword .INSERT,
      .optional [isKeyword .INTO] (.keyword .INTO),
      tableName,
      .optional [isSymbol .leftParen] (.deeper .columns),
      .ifAt [isKeyword .SELECT] (select dialect) valuesClause]

def assignment : Form := .node .assignment (.all [columnName, .symbol .equal, expression])

def update : Form :=
  .node .updateStatement <|
    .all [.keyword .UPDATE, aliasedTable, .keyword .SET, .commaList assignment, whereClause?]

def delete : Form :=
  .node .deleteStatement <|
    .all [.keyword .DELETE, .optional [isKeyword .FROM] (.keyword .FROM), aliasedTable,
      whereClause?]

end SqlFront.Grammar
