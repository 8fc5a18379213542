import SqlFront.Token.Basic

/-!
Parse trees: every token of a text, under the productions that took it in. A tree keeps the order
of the text, and each node keeps the range of the text that it stands for.
-/

namespace SqlFront

/-- The productions of the grammar. -/
inductive Rule where
  | batch
  | selectStatement
  | insertStatement
  | updateStatement
  | deleteStatement
  | createTableStatement
  | alterTableStatement
  | dropTableStatement
  | createIndexStatement
  | useStatement
  | showTablesStatement
  | showColumnsStatement
  | exportKeysStatement
  | updateKeysStatement
  | encryptColumnStatement
  | decryptColumnStatement
  | rebuildOpetreeStatement
  | rebalanceOpetreeStatement
  | saveOpetreeStatement
  | loadOpetreeStatement
  | saveSchemaStatement
  | loadSchemaStatement
  | bypassStatement
  | licenseRefreshStatement
  | licenseSetKeyStatement
  | licenseStatusStatement
  | topClause
  | selectList
  | selectItem
  | aliasClause
  | fromClause
  | tableSource
  | derivedTable
  | joinClause
  | joinCondition
  | whereClause
  | groupByClause
  | havingClause
  | orderByClause
  | orderItem
  | limitClause
  | tableName
  | columnName
  | databaseName
  | indexName
  | columnList
  | indexColumn
  | valuesClause
  | valueRow
  | assignment
  | tableElementList
  | columnDefinition
  | dataType
  | typeArguments
  | notNullConstraint
  | nullConstraint
  | primaryKeyConstraint
  | uniqueConstraint
  | defaultConstraint
  | autoIncrementConstraint
  | encryptionOption
  | flagList
  | tablePrimaryKey
  | tableUnique
  | alterAction
  | unsupportedClause
  | destination
  | statusFlag
  | seedList
  | stopClause
  | licenseKey
  | orExpr
  | andExpr
  | notExpr
  | bitwiseExpr
  | comparisonExpr
  | inExpr
  | likeExpr
  | isNullExpr
  | betweenExpr
  | additiveExpr
  | multiplicativeExpr
  | unaryExpr
  | parenExpr
  | functionCall
  | literal
  | placeholder
  | allColumns
  | expressionList
  | subquery
  deriving DecidableEq, Repr

namespace Rule

/-- The name of a production in messages. -/
def name : Rule → String
  | batch => "Batch"
  | selectStatement => "SelectStatement"
  | insertStatement => "InsertStatement"
  | updateStatement => "UpdateStatement"
  | deleteStatement => "DeleteStatement"
  | createTableStatement => "CreateTableStatement"
  | alterTableStatement => "AlterTableStatement"
  | dropTableStatement => "DropTableStatement"
  | createIndexStatement => "CreateIndexStatement"
  | useStatement => "UseStatement"
  | showTablesStatement => "ShowTablesStatement"
  | showColumnsStatement => "ShowColumnsStatement"
  | exportKeysStatement => "ExportKeysStatement"
  | updateKeysStatement => "UpdateKeysStatement"
  | encryptColumnStatement => "EncryptColumnStatement"
  | decryptColumnStatement => "DecryptColumnStatement"
  | rebuildOpetreeStatement => "RebuildOpetreeStatement"
  | rebalanceOpetreeStatement => "RebalanceOpetreeStatement"
  | saveOpetreeStatement => "SaveOpetreeStatement"
  | loadOpetreeStatement => "LoadOpetreeStatement"
  | saveSchemaStatement => "SaveSchemaStatement"
  | loadSchemaStatement => "LoadSchemaStatement"
  | bypassStatement => "BypassStatement"
  | licenseRefreshStatement => "LicenseRefreshStatement"
  | licenseSetKeyStatement => "LicenseSetKeyStatement"
  | licenseStatusStatement => "LicenseStatusStatement"
  | topClause => "TopClause"
  | selectList => "SelectList"
  | selectItem => "SelectItem"
  | aliasClause => "Alias"
  | fromClause => "FromClause"
  | tableSource => "TableSource"
  | derivedTable => "DerivedTable"
  | joinClause => "JoinClause"
  | joinCondition => "JoinCondition"
  | whereClause => "WhereClause"
  | groupByClause => "GroupByClause"
  | havingClause => "HavingClause"
  | orderByClause => "OrderByClause"
  | orderItem => "OrderItem"
  | limitClause => "LimitClause"
  | tableName => "TableName"
  | columnName => "ColumnName"
  | databaseName => "DatabaseName"
  | indexName => "IndexName"
  | columnList => "ColumnList"
  | indexColumn => "IndexColumn"
  | valuesClause => "ValuesClause"
  | valueRow => "ValueRow"
  | assignment => "Assignment"
  | tableElementList => "TableElementList"
  | columnDefinition => "ColumnDefinition"
  | dataType => "DataType"
  | typeArguments => "TypeArguments"
  | notNullConstraint => "NotNullConstraint"
  | nullConstraint => "NullConstraint"
  | primaryKeyConstraint => "PrimaryKeyConstraint"
  | uniqueConstraint => "UniqueConstraint"
  | defaultConstraint => "DefaultConstraint"
  | autoIncrementConstraint => "AutoIncrementConstraint"
  | encryptionOption => "EncryptionOption"
  | flagList => "FlagList"
  | tablePrimaryKey => "TablePrimaryKey"
  | tableUnique => "TableUnique"
  | alterAction => "AlterAction"
  | unsupportedClause => "UnsupportedClause"
  | destination => "Destination"
  | statusFlag => "StatusFlag"
  | seedList => "SeedList"
  | stopClause => "StopClause"
  | licenseKey => "LicenseKey"
  | orExpr => "OrExpr"
  | andExpr => "AndExpr"
  | notExpr => "NotExpr"
  | bitwiseExpr => "BitwiseExpr"
  | comparisonExpr => "ComparisonExpr"
  | inExpr => "InExpr"
  | likeExpr => "LikeExpr"
  | isNullExpr => "IsNullExpr"
  | betweenExpr => "BetweenExpr"
  | additiveExpr => "AdditiveExpr"
  | multiplicativeExpr => "MultiplicativeExpr"
  | unaryExpr => "UnaryExpr"
  | parenExpr => "ParenExpr"
  | functionCall => "FunctionCall"
  | literal => "Literal"
  | placeholder => "Placeholder"
  | allColumns => "AllColumns"
  | expressionList => "ExpressionList"
  | subquery => "Subquery"

/-- Every production. -/
def all : List Rule :=
  [.batch, .selectStatement, .insertStatement, .updateStatement, .deleteStatement,
    .createTableStatement, .alterTableStatement, .dropTableStatement, .createIndexStatement,
    .useStatement, .showTablesStatement, .showColumnsStatement, .exportKeysStatement,
    .updateKeysStatement, .encryptColumnStatement, .decryptColumnStatement,
    .rebuildOpetreeStatement, .rebalanceOpetreeStatement, .saveOpetreeStatement,
    .loadOpetreeStatement, .saveSchemaStatement, .loadSchemaStatement, .bypassStatement,
    .licenseRefreshStatement, .licenseSetKeyStatement, .licenseStatusStatement, .topClause,
    .selectList, .selectItem, .aliasClause, .fromClause, .tableSource, .derivedTable, .joinClause,
    .joinCondition, .whereClause, .groupByClause, .havingClause, .orderByClause, .orderItem,
    .limitClause, .tableName, .columnName, .databaseName, .indexName, .columnList,
    .indexColumn, .valuesClause, .valueRow, .assignment, .tableElementList, .columnDefinition,
    .dataType, .typeArguments, .notNullConstraint, .nullConstraint, .primaryKeyConstraint,
    .uniqueConstraint, .defaultConstraint, .autoIncrementConstraint, .encryptionOption,
    .flagList, .tablePrimaryKey, .tableUnique, .alterAction, .unsupportedClause, .destination,
    .statusFlag, .seedList, .stopClause, .licenseKey, .orExpr, .andExpr, .notExpr,
    .bitwiseExpr, .comparisonExpr, .inExpr, .likeExpr, .isNullExpr, .betweenExpr,
    .additiveExpr, .multiplicativeExpr, .unaryExpr, .parenExpr, .functionCall, .literal,
    .placeholder, .allColumns, .expressionList, .subquery]

/-- The productions that stand for a value or a condition. -/
def isExpression : Rule → Bool
  | orExpr | andExpr | notExpr | bitwiseExpr | comparisonExpr | inExpr | likeExpr | isNullExpr
  | betweenExpr | additiveExpr | multiplicativeExpr | unaryExpr | parenExpr | functionCall
  | literal | placeholder | columnName | allColumns | subquery => true
  | _ => false

end Rule

/-- A parse tree: a token, or a production over the trees of its parts. -/
inductive Tree where
  | leaf (lexeme : Lexeme)
  | node (rule : Rule) (span : Span) (children : List Tree)

namespace Tree

/-- The range of the text that a tree stands for. -/
def span : Tree → Span
  | leaf lexeme => lexeme.span
  | node _ span _ => span

/-- The production of a node; a token has none. -/
def rule? : Tree → Option Rule
  | leaf _ => none
  | node rule _ _ => some rule

/-- The token of a leaf. -/
def token? : Tree → Option Token
  | leaf lexeme => some lexeme.token
  | node _ _ _ => none

def children : Tree → List Tree
  | leaf _ => []
  | node _ _ children => children

def isLeaf : Tree → Bool
  | leaf _ => true
  | node _ _ _ => false

/-- The tree is a node of this production. -/
def hasRule (rule : Rule) (tree : Tree) : Bool :=
  tree.rule? == some rule

/-- The tree stands for a value or a condition. -/
def isExpression (tree : Tree) : Bool :=
  tree.rule?.any Rule.isExpression

/-- The range from the first of some trees to the last, or an empty range at the start of the
text when there are none. -/
def cover (trees : List Tree) : Span :=
  match trees.head?, trees.getLast? with
  | some first, some last => first.span.join last.span
  | _, _ => ⟨0, 0⟩

/-- The node of a production over the trees of all its parts. -/
def ofParts (rule : Rule) (parts : List Tree) : Tree :=
  node rule (cover parts) parts

/-- The first of some trees that is a node of this production. -/
def find? (rule : Rule) (trees : List Tree) : Option Tree :=
  List.find? (hasRule rule) trees

/-- The tokens directly among some trees. -/
def leaves (trees : List Tree) : List Lexeme :=
  trees.filterMap fun
    | leaf lexeme => some lexeme
    | node _ _ _ => none

/-- This token is directly among some trees. -/
def hasToken (token : Token) (trees : List Tree) : Bool :=
  (leaves trees).any fun lexeme => lexeme.token == token

/-- This reserved word is directly among some trees. -/
def hasKeyword (keyword : Keyword) (trees : List Tree) : Bool :=
  hasToken (.keyword keyword) trees

/-- This unreserved word, in any case, is directly among some trees. -/
def hasWord (word : String) (trees : List Tree) : Bool :=
  (leaves trees).any fun lexeme => lexeme.token.isWord word

/-- The names directly among some trees. -/
def names (trees : List Tree) : List String :=
  (leaves trees).filterMap fun lexeme => lexeme.token.name?

end Tree

end SqlFront
