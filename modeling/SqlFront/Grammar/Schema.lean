import SqlFront.Grammar.Select

/-!
Forms of the statements that define tables and indexes, and of those that show or choose them.
-/

namespace SqlFront.Grammar

/-! ### Columns -/

/-- `WITH TIME ZONE` or `WITHOUT TIME ZONE` after a type. -/
def timeZone? : Form :=
  .optional [isWordOf ["WITH", "WITHOUT"], Token.isWord "TIME", Token.isWord "ZONE"] <|
    .all [.token (isWordOf ["WITH", "WITHOUT"]) "a time zone", .word "TIME", .word "ZONE"]

/-- A type of one or more words, and its arguments. -/
def dataType : Form :=
  .node .dataType <| .all
    [.token (fun token => isPlainName token || isKeyword .SET token) "a data type",
      .optional [isWordOf ["PRECISION", "VARYING"]]
        (.token (isWordOf ["PRECISION", "VARYING"]) "a data type"),
      timeZone?,
      .optional [isSymbol .leftParen] (.deeper .typeArguments)]

/-- The words that start a property of a column. -/
def startsProperty (token : Token) : Bool :=
  isOneOf [.NOT, .NULL, .PRIMARY, .UNIQUE, .DEFAULT] token ||
    isWordOf ["AUTO_INCREMENT", "AUTOINCREMENT", "IDENTITY", "ENCRYPTED"] token

/-- A property of a column. -/
def columnProperty : Form :=
  .ifAt [isKeyword .NOT] (.node .notNullConstraint (.seq (.keyword .NOT) (.keyword .NULL))) <|
  .ifAt [isKeyword .NULL] (.node .nullConstraint (.keyword .NULL)) <|
  .ifAt [isKeyword .PRIMARY]
    (.node .primaryKeyConstraint (.seq (.keyword .PRIMARY) (.keyword .KEY))) <|
  .ifAt [isKeyword .UNIQUE]
    (.node .uniqueConstraint
      (.seq (.keyword .UNIQUE) (.optional [isKeyword .KEY] (.keyword .KEY)))) <|
  .ifAt [isKeyword .DEFAULT] (.node .defaultConstraint (.seq (.keyword .DEFAULT) unary)) <|
  .ifAt [Token.isWord "IDENTITY"]
    (.node .autoIncrementConstraint
      (.seq (.word "IDENTITY")
        (.optional [isSymbol .leftParen] (.deeper .countingArguments)))) <|
  .ifAt [Token.isWord "ENCRYPTED"]
    (.node .encryptionOption
      (.seq (.word "ENCRYPTED")
        (.optional [Token.isWord "FOR"] (.seq (.word "FOR") (.deeper .flags))))) <|
  .node .autoIncrementConstraint
    (.token (isWordOf ["AUTO_INCREMENT", "AUTOINCREMENT"]) "AUTO_INCREMENT")

/-- A column with its type and its properties. -/
def columnDefinition : Form :=
  .node .columnDefinition <|
    .all [.name, .optional [Token.isWord "TYPE"] (.word "TYPE"), dataType,
      .whileAt [startsProperty] columnProperty]

def typeArgumentsBody : Form :=
  .node .typeArguments <| .parenthesized <|
    .token (fun token => isNumber token || isString token || token.isWord "MAX")
      "a type argument"

def countingArgumentsBody : Form :=
  .node .typeArguments (.parenthesized (.token isNumber "a number"))

/-! ### Tables -/

/-- The name of a key, where it is written. -/
def constraintName? : Form :=
  .optional [Token.isWord "CONSTRAINT"] (.seq (.word "CONSTRAINT") .name)

/-- Whether a key follows, perhaps after its name. -/
def ifKey (k : Keyword) (yes no : Form) : Form :=
  .ifAt [isKeyword k] yes <|
    .ifAt [Token.isWord "CONSTRAINT", Token.isName, isKeyword k] yes no

/-- A key of a table, or a column. -/
def tableElement : Form :=
  ifKey .PRIMARY
    (.node .tablePrimaryKey
      (.all [constraintName?, .keyword .PRIMARY, .keyword .KEY, .deeper .keyColumns])) <|
  ifKey .UNIQUE
    (.node .tableUnique
      (.all [constraintName?, .keyword .UNIQUE,
        .optional [isOneOf [.KEY, .INDEX]] (.token (isOneOf [.KEY, .INDEX]) "a key"),
        .deeper .keyColumns])) <|
  .ifAt [Token.isWord "CONSTRAINT"]
    (.seq constraintName? (.unexpected "PRIMARY KEY or UNIQUE")) columnDefinition

def tableElementsBody : Form := .node .tableElementList (.parenthesized tableElement)

def createTable : Form :=
  .node .createTableStatement <| .all
    [.keyword .CREATE, .keyword .TABLE,
      .optional [isKeyword .IF] (.all [.keyword .IF, .keyword .NOT, .keyword .EXISTS]),
      tableName, .deeper .tableElements]

def createIndex : Form :=
  .node .createIndexStatement <| .all
    [.keyword .CREATE,
      .optional [isKeyword .UNIQUE] (.keyword .UNIQUE),
      .keyword .INDEX,
      .node .indexName .name,
      .keyword .ON, tableName, .deeper .keyColumns]

def create : Form :=
  .ifAt [isKeyword .CREATE, isKeyword .TABLE] createTable <|
  .ifAt [isKeyword .CREATE, isOneOf [.UNIQUE, .INDEX]] createIndex <|
  .seq (.keyword .CREATE) (.unexpected "TABLE or INDEX")

/-- The end of a statement. -/
def endsStatement : Token → Bool
  | .symbol .semicolon | .eof => true
  | _ => false

/-- The rest of a statement, whatever it is. -/
def restOfStatement : Form :=
  .whileAt [fun token => !endsStatement token] (.token (fun token => !endsStatement token) "a word")

/-- What `ALTER TABLE` does to a table. -/
def alterAction : Form :=
  .ifAt [Token.isWord "MODIFY"]
    (.all [.word "MODIFY", .optional [isKeyword .COLUMN] (.keyword .COLUMN),
      columnDefinition]) <|
  .ifAt [isKeyword .ALTER]
    (.all [.keyword .ALTER, .optional [isKeyword .COLUMN] (.keyword .COLUMN),
      columnDefinition]) <|
  .ifAt [fun token => isKeyword .DROP token || isWordOf ["ADD", "RENAME"] token]
    (.node .unsupportedClause restOfStatement) <|
  .unexpected "MODIFY or ALTER COLUMN"

def alterTable : Form :=
  .node .alterTableStatement <|
    .all [.keyword .ALTER, .keyword .TABLE, tableName, .node .alterAction alterAction]

def dropTable : Form :=
  .node .dropTableStatement <| .all
    [.keyword .DROP, .keyword .TABLE,
      .optional [isKeyword .IF] (.seq (.keyword .IF) (.keyword .EXISTS)),
      tableName]

/-! ### Databases -/

def databaseName : Form := .node .databaseName .name

def use : Form := .node .useStatement (.seq (.keyword .USE) databaseName)

/-- The word before the table or database that is looked into. -/
def fromOrIn : Form := .token (isOneOf [.FROM, .IN]) "FROM"

def showStatement : Form :=
  .ifAt [Token.isWord "SHOW", Token.isWord "TABLES"]
    (.node .showTablesStatement
      (.all [.word "SHOW", .word "TABLES",
        .optional [isOneOf [.FROM, .IN]] (.seq fromOrIn databaseName)])) <|
  .ifAt [Token.isWord "SHOW", isWordOf ["COLUMNS", "FIELDS"]]
    (.node .showColumnsStatement
      (.all [.word "SHOW", .token (isWordOf ["COLUMNS", "FIELDS"]) "COLUMNS", fromOrIn,
        tableName])) <|
  .seq (.word "SHOW") (.unexpected "TABLES or COLUMNS")

end SqlFront.Grammar
