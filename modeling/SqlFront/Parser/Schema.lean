import SqlFront.Grammar.Schema
import SqlFront.Parser.Select

/-!
Statements that define tables and indexes, and those that show or choose them.
-/

namespace SqlFront.Parser

open Grammar

/-- Adds `WITH TIME ZONE` or `WITHOUT TIME ZONE`, if that follows. -/
def addTimeZone (parts : List Tree) : Parser (List Tree) := do
  let zoneFollows := (← peek 1).isWord "TIME" && (← peek 2).isWord "ZONE"
  if isWordOf ["WITH", "WITHOUT"] (← current) && zoneFollows then
    let parts := parts ++ [← advance]
    let parts := parts ++ [← advance]
    return parts ++ [← advance]
  else return parts

/-- The name of a key of a table, where it is written. -/
def keyName : Parser (List Tree) := do
  match ← accept (Token.isWord "CONSTRAINT") with
  | some word => return [word, ← expectName]
  | none => return []

/-- Adds the next token, unless the statement ends there. -/
def tokenRound (parts : List Tree) : Parser (Option (List Tree)) := do
  if endsStatement (← current) then return none else return some (parts ++ [← advance])

/-- The rest of a statement, whatever it is. -/
def unsupportedClause : Parser Tree := do
  let parts ← repeated tokenRound []
  return .ofParts .unsupportedClause parts

namespace Level

variable (level : Level)

/-! ### Columns -/

/-- A type of one or more words, and its arguments. -/
def dataType : Parser Tree := do
  let parts := [← expect (fun token => isPlainName token || isKeyword .SET token) "a data type"]
  let parts := parts ++ (← accept (isWordOf ["PRECISION", "VARYING"])).toList
  let parts ← addTimeZone parts
  let arguments ← clause? (isSymbol .leftParen)
    (level.parenthesized .typeArguments fun _ =>
      expect (fun token => isNumber token || isString token || token.isWord "MAX")
        "a type argument")
  return .ofParts .dataType (parts ++ arguments.toList)

def flagList : Parser Tree := level.parenthesized .flagList fun _ => expectName

/-- The flags after `FOR`, if they follow. -/
def flags? : Parser (List Tree) := do
  match ← accept (Token.isWord "FOR") with
  | some word => return [word, ← level.flagList]
  | none => return []

/-- A property of a column, if one follows. -/
def columnProperty? : Parser (Option Tree) := do
  let token ← current
  if isKeyword .NOT token then
    let negation ← advance
    let null ← expectKeyword .NULL
    return some (.ofParts .notNullConstraint [negation, null])
  else if isKeyword .NULL token then
    return some (.ofParts .nullConstraint [← advance])
  else if isKeyword .PRIMARY token then
    let primary ← advance
    let key ← expectKeyword .KEY
    return some (.ofParts .primaryKeyConstraint [primary, key])
  else if isKeyword .UNIQUE token then
    let parts := [← advance]
    let parts := parts ++ (← accept (isKeyword .KEY)).toList
    return some (.ofParts .uniqueConstraint parts)
  else if isKeyword .DEFAULT token then
    let word ← advance
    let value ← level.unary
    return some (.ofParts .defaultConstraint [word, value])
  else if isWordOf ["AUTO_INCREMENT", "AUTOINCREMENT"] token then
    return some (.ofParts .autoIncrementConstraint [← advance])
  else if token.isWord "IDENTITY" then
    let parts := [← advance]
    let arguments ← clause? (isSymbol .leftParen)
      (level.parenthesized .typeArguments fun _ => expect isNumber "a number")
    return some (.ofParts .autoIncrementConstraint (parts ++ arguments.toList))
  else if token.isWord "ENCRYPTED" then
    let parts := [← advance]
    return some (.ofParts .encryptionOption (parts ++ (← level.flags?)))
  else return none

/-- The definition of a column behind its name. -/
def columnBehind (name : Tree) : Parser Tree := do
  let parts := [name]
  let parts := parts ++ (← accept (Token.isWord "TYPE")).toList
  let parts := parts ++ [← level.dataType]
  let parts ← addAll level.columnProperty? parts
  return .ofParts .columnDefinition parts

def columnDefinition : Parser Tree := do
  level.columnBehind (← expectName)

/-! ### Tables -/

/-- A key of a table, or a column. -/
def tableElement : Parser Tree := do
  let parts ← keyName
  let token ← current
  if isKeyword .PRIMARY token then
    let parts := parts ++ [← advance]
    let parts := parts ++ [← expectKeyword .KEY]
    let parts := parts ++ [← level.columnList true]
    return .ofParts .tablePrimaryKey parts
  else if isKeyword .UNIQUE token then
    let parts := parts ++ [← advance]
    let parts := parts ++ (← accept (isOneOf [.KEY, .INDEX])).toList
    let parts := parts ++ [← level.columnList true]
    return .ofParts .tableUnique parts
  else if parts.isEmpty then level.columnDefinition
  else unexpected "PRIMARY KEY or UNIQUE"

/-- A new table, behind `CREATE`. -/
def createTable (create : Tree) : Parser Tree := do
  let parts := [create, ← advance]
  let parts ←
    if isKeyword .IF (← current) then do
      let parts := parts ++ [← advance]
      let parts := parts ++ [← expectKeyword .NOT]
      pure (parts ++ [← expectKeyword .EXISTS])
    else pure parts
  let parts := parts ++ [← tableName false]
  let elements ← level.parenthesized .tableElementList (·.tableElement)
  return .ofParts .createTableStatement (parts ++ [elements])

/-- A new index, behind `CREATE`. -/
def createIndex (create : Tree) : Parser Tree := do
  let parts := [create] ++ (← accept (isKeyword .UNIQUE)).toList
  let parts := parts ++ [← expectKeyword .INDEX]
  let name ← expectName
  let parts := parts ++ [.ofParts .indexName [name]]
  let parts := parts ++ [← expectKeyword .ON]
  let parts := parts ++ [← tableName false]
  let parts := parts ++ [← level.columnList true]
  return .ofParts .createIndexStatement parts

def create : Parser Tree := do
  let word ← advance
  let token ← current
  if isKeyword .TABLE token then level.createTable word
  else if isOneOf [.UNIQUE, .INDEX] token then level.createIndex word
  else unexpected "TABLE or INDEX"

/-- What `ALTER TABLE` does to a table. -/
def alterAction : Parser Tree := do
  match ← accept (Token.isWord "MODIFY") with
  | some modify =>
      let parts := [modify] ++ (← accept (isKeyword .COLUMN)).toList
      let parts := parts ++ [← level.columnDefinition]
      return .ofParts .alterAction parts
  | none =>
      let token ← current
      if isKeyword .ALTER token then
        let parts := [← advance]
        let parts := parts ++ (← accept (isKeyword .COLUMN)).toList
        let name ← expectName
        let parts := parts ++ [← level.columnBehind name]
        return .ofParts .alterAction parts
      else if token.isWord "ADD" || isKeyword .DROP token || token.isWord "RENAME" then
        return .ofParts .alterAction [← unsupportedClause]
      else unexpected "MODIFY or ALTER COLUMN"

def alterTable : Parser Tree := do
  let parts := [← advance, ← expectKeyword .TABLE]
  let parts := parts ++ [← tableName false]
  let parts := parts ++ [← level.alterAction]
  return .ofParts .alterTableStatement parts

end Level

def dropTable : Parser Tree := do
  let parts := [← advance, ← expectKeyword .TABLE]
  let parts ←
    if isKeyword .IF (← current) then do
      let parts := parts ++ [← advance]
      pure (parts ++ [← expectKeyword .EXISTS])
    else pure parts
  let parts := parts ++ [← tableName false]
  return .ofParts .dropTableStatement parts

/-! ### Databases -/

def use : Parser Tree := do
  let word ← advance
  let name ← expectName
  let database := .ofParts .databaseName [name]
  return .ofParts .useStatement [word, database]

def showStatement : Parser Tree := do
  let word ← advance
  match ← accept (Token.isWord "TABLES") with
  | some tables =>
      let parts := [word, tables]
      match ← accept (isOneOf [.FROM, .IN]) with
      | some side =>
          let parts := parts ++ [side]
          let name ← expectName
          return .ofParts .showTablesStatement (parts ++ [.ofParts .databaseName [name]])
      | none => return .ofParts .showTablesStatement parts
  | none =>
      match ← accept (isWordOf ["COLUMNS", "FIELDS"]) with
      | some columns =>
          let parts := [word, columns]
          match ← accept (isOneOf [.FROM, .IN]) with
          | some side =>
              let parts := parts ++ [side]
              let parts := parts ++ [← tableName false]
              return .ofParts .showColumnsStatement parts
          | none => unexpected "FROM"
      | none => unexpected "TABLES or COLUMNS"

end SqlFront.Parser
