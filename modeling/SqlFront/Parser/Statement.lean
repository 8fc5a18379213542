import SqlFront.Grammar.Statement
import SqlFront.Parser.Schema

/-!
Statements and batches, and the reading of whole texts.
-/

namespace SqlFront.Parser

open Grammar

/-! ### Commands -/

/-- The word that asks for progress only, where it is written. -/
def status? : Parser (Option Tree) := do
  match ← accept (Token.isWord "STATUS") with
  | some word => return some (.ofParts .statusFlag [word])
  | none => return none

/-- Where keys go, where it is written. -/
def destination? : Parser (Option Tree) := do
  match ← accept (Token.isWord "TO") with
  | some word =>
      let place ← expect isString "a destination string"
      return some (.ofParts .destination [word, place])
  | none => return none

/-- A command on keys. -/
def keysCommand (rule : Rule) : Parser Tree := do
  let parts := [← advance, ← expectWord "KEYS"]
  let parts := parts ++ (← destination?).toList
  let parts := parts ++ (← status?).toList
  return .ofParts rule parts

/-- When a command on the encrypted tree has to stop, where it is written. -/
def stopClause? : Parser (Option Tree) := do
  match ← accept (Token.isWord "STOP") with
  | none => return none
  | some stop =>
      let parts := [stop]
      match ← accept (Token.isWord "IMMEDIATE") with
      | some immediate => return some (.ofParts .stopClause (parts ++ [immediate]))
      | none =>
          let parts := parts ++ [← expectWord "AFTER"]
          let parts := parts ++ [← expect isNumber "a duration"]
          let parts := parts ++ [← expect (isWordOf timeUnits) "SECONDS, MINUTES or HOURS"]
          return some (.ofParts .stopClause parts)

/-- A command that stores or restores the encrypted tree or the schema. -/
def snapshotCommand (tree schema : Rule) : Parser Tree := do
  let verb ← advance
  match ← accept (Token.isWord "OPETREE") with
  | some object => return .ofParts tree [verb, object]
  | none =>
      match ← accept (Token.isWord "SCHEMA") with
      | some object => return .ofParts schema [verb, object]
      | none => unexpected "OPETREE or SCHEMA"

/-- A `LICENSE` command: it renews, reports or sets the product key. -/
def licenseCommand : Parser Tree := do
  let license ← advance
  match ← accept (Token.isWord "REFRESH") with
  | some refresh => return .ofParts .licenseRefreshStatement [license, refresh]
  | none =>
      match ← accept (Token.isWord "STATUS") with
      | some status => return .ofParts .licenseStatusStatement [license, status]
      | none =>
          match ← accept (isKeyword .SET) with
          | some set =>
              let parts := [license, set, ← expectKeyword .KEY]
              if isString (← current) then
                let key ← advance
                return .ofParts .licenseSetKeyStatement (parts ++ [.ofParts .licenseKey [key]])
              else return .ofParts .licenseSetKeyStatement parts
          | none => unexpected "REFRESH, SET KEY or STATUS"

/-- Adds any number of semicolons. -/
def addSemicolons : List Tree → Parser (List Tree) := addAll (accept (isSymbol .semicolon))

namespace Level

variable (level : Level)

/-- A command on an encrypted column. -/
def columnCommand (rule : Rule) : Parser Tree := do
  let parts := [← advance, ← expectKeyword .COLUMN]
  let parts := parts ++ [← column false]
  let parts := parts ++ (← level.flags?)
  let parts := parts ++ (← status?).toList
  return .ofParts rule parts

/-- The seeds of an encrypted tree, where they are written. -/
def seedList? : Parser (Option Tree) := do
  match ← accept (Token.isWord "WITH") with
  | some word =>
      let seeds ← level.parenthesized .expressionList (·.unary)
      return some (.ofParts .seedList [word, seeds])
  | none => return none

/-- A command on the encrypted tree. -/
def treeCommand (rule : Rule) : Parser Tree := do
  let parts := [← advance, ← expectWord "OPETREE"]
  let parts := parts ++ (← level.seedList?).toList
  let parts := parts ++ (← stopClause?).toList
  return .ofParts rule parts

/-! ### Changes of rows -/

def valueRow : Parser Tree := level.parenthesized .valueRow (·.expression)

def insert : Parser Tree := do
  let parts := [← advance]
  let parts := parts ++ (← accept (isKeyword .INTO)).toList
  let parts := parts ++ [← tableName false]
  let parts := parts ++ (← clause? (isSymbol .leftParen) (level.columnList false)).toList
  if isKeyword .SELECT (← current) then
    return .ofParts .insertStatement (parts ++ [← level.select])
  else
    let rows := [← expectKeyword .VALUES]
    let rows ← addItems level.valueRow rows
    return .ofParts .insertStatement (parts ++ [.ofParts .valuesClause rows])

def assignment : Parser Tree := do
  let name ← column false
  let sign ← expectSymbol .equal
  let value ← level.expression
  return .ofParts .assignment [name, sign, value]

def update : Parser Tree := do
  let parts := [← advance, ← tableName true]
  let parts := parts ++ [← expectKeyword .SET]
  let parts ← addItems level.assignment parts
  let parts := parts ++ (← level.whereClause?).toList
  return .ofParts .updateStatement parts

def delete : Parser Tree := do
  let parts := [← advance]
  let parts := parts ++ (← accept (isKeyword .FROM)).toList
  let parts := parts ++ [← tableName true]
  let parts := parts ++ (← level.whereClause?).toList
  return .ofParts .deleteStatement parts

/-! ### Statements -/

/-- The statement in `BYPASS`, which is read one level deeper. -/
def bypass : Parser Tree := do
  let word ← advance
  let inner ← level.nested (·.statement)
  return .ofParts .bypassStatement [word, inner]

/-- `UPDATE KEYS` is a command, unless it goes on as the update of a table of that name. -/
def updateOrKeys : Parser Tree := do
  let isCommand := (← peek 1).isWord "KEYS" && !isKeyword .SET (← peek 2)
  if isCommand then keysCommand .updateKeysStatement else level.update

/-- Any statement. -/
def statement : Parser Tree := do
  let token ← current
  if token.isWord "SHOW" then showStatement
  else if token.isWord "EXPORT" then keysCommand .exportKeysStatement
  else if token.isWord "ENCRYPT" then level.columnCommand .encryptColumnStatement
  else if token.isWord "DECRYPT" then level.columnCommand .decryptColumnStatement
  else if token.isWord "REBUILD" then level.treeCommand .rebuildOpetreeStatement
  else if token.isWord "REBALANCE" then level.treeCommand .rebalanceOpetreeStatement
  else if token.isWord "SAVE" then snapshotCommand .saveOpetreeStatement .saveSchemaStatement
  else if token.isWord "LOAD" then snapshotCommand .loadOpetreeStatement .loadSchemaStatement
  else if token.isWord "BYPASS" then level.bypass
  else if token.isWord "LICENSE" then licenseCommand
  else if isKeyword .SELECT token then level.select
  else if isKeyword .INSERT token then level.insert
  else if isKeyword .UPDATE token then level.updateOrKeys
  else if isKeyword .DELETE token then level.delete
  else if isKeyword .CREATE token then level.create
  else if isKeyword .ALTER token then level.alterTable
  else if isKeyword .DROP token then dropTable
  else if isKeyword .USE token then use
  else unexpected "a statement"

/-- Adds a statement and the semicolons behind it, unless the text ends here. -/
def statementRound (parts : List Tree) : Parser (Option (List Tree)) := do
  if (← current) == .eof then return none
  else
    let parts := parts ++ [← level.statement]
    if endsStatement (← current) then return some (← addSemicolons parts)
    else unexpected "';' or end of input"

/-- Statements with semicolons between them, and perhaps around them. -/
def batch : Parser Tree := do
  let parts ← addSemicolons []
  let parts ← repeated level.statementRound parts
  return .ofParts .batch parts

/-- What a level has for those who enter it. -/
def entered : Deeper where
  expression := level.expression
  negatable := level.negatable
  unary := level.unary
  sumTail := level.sumRound
  productTail := level.productRound
  select := level.select
  tableElement := level.tableElement
  statement := level.statement

end Level

/-- The level with so many further ones below it. -/
def levels (dialect : Dialect) (limit : Nat) : (left : Nat) → Level
  | 0 => ⟨dialect, limit, .pure none⟩
  | left + 1 => ⟨dialect, limit, ⟨fun _ => some (levels dialect limit left).entered⟩⟩

end SqlFront.Parser

namespace SqlFront.Grammar

/-- The tree of a batch of statements. -/
def readBatch (dialect : Dialect) (levels : Nat) (input : List Lexeme) : Except Fault Tree := do
  let (tree, _) ← (Parser.levels dialect levels levels).batch.run input
  return tree

/-- The tree of the expression at the start of some tokens, and the tokens after it. -/
def readExpression (dialect : Dialect) (levels : Nat) (input : List Lexeme) :
    Except Fault (Tree × List Lexeme) :=
  (Parser.levels dialect levels levels).expression.run input

end SqlFront.Grammar
