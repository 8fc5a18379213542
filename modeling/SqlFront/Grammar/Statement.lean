import SqlFront.Grammar.Change
import SqlFront.Grammar.Command
import SqlFront.Grammar.Schema

/-!
Forms of statements and batches, and the reading of whole texts by a form.
-/

namespace SqlFront.Grammar

/-- `UPDATE KEYS` is a command, unless it goes on as the update of a table of that name. -/
def startsKeyUpdate : Lookahead :=
  [isKeyword .UPDATE, Token.isWord "KEYS", fun token => !isKeyword .SET token]

/-- The statement in `BYPASS`, which is read one level deeper. -/
def bypass : Form := .node .bypassStatement (.seq (.word "BYPASS") (.deeper .bypassed))

/-- Any statement. -/
def statement (dialect : Dialect) : Form :=
  .ifAt [Token.isWord "SHOW"] showStatement <|
  .ifAt [Token.isWord "EXPORT"] (keysCommand .exportKeysStatement (.word "EXPORT")) <|
  .ifAt [Token.isWord "ENCRYPT"] (columnCommand .encryptColumnStatement "ENCRYPT") <|
  .ifAt [Token.isWord "DECRYPT"] (columnCommand .decryptColumnStatement "DECRYPT") <|
  .ifAt [Token.isWord "REBUILD"] (treeCommand .rebuildOpetreeStatement "REBUILD") <|
  .ifAt [Token.isWord "REBALANCE"] (treeCommand .rebalanceOpetreeStatement "REBALANCE") <|
  .ifAt [Token.isWord "SAVE"]
    (snapshotCommand "SAVE" .saveOpetreeStatement .saveSchemaStatement) <|
  .ifAt [Token.isWord "LOAD"]
    (snapshotCommand "LOAD" .loadOpetreeStatement .loadSchemaStatement) <|
  .ifAt [Token.isWord "BYPASS"] bypass <|
  .ifAt [Token.isWord "LICENSE"] licenseCommand <|
  .ifAt [isKeyword .SELECT] (select dialect) <|
  .ifAt [isKeyword .INSERT] (insert dialect) <|
  .ifAt startsKeyUpdate (keysCommand .updateKeysStatement (.keyword .UPDATE)) <|
  .ifAt [isKeyword .UPDATE] update <|
  .ifAt [isKeyword .DELETE] delete <|
  .ifAt [isKeyword .CREATE] create <|
  .ifAt [isKeyword .ALTER] alterTable <|
  .ifAt [isKeyword .DROP] dropTable <|
  .ifAt [isKeyword .USE] use <|
  .unexpected "a statement"

/-- Any number of semicolons. -/
def semicolons : Form := .whileAt [isSymbol .semicolon] (.symbol .semicolon)

/-- Statements with semicolons between them, and perhaps around them. -/
def batch (dialect : Dialect) : Form :=
  .seq semicolons <|
    .whileAt [fun token => token != .eof] <|
      .seq (statement dialect) <|
        .ifAt [endsStatement] semicolons (.unexpected "';' or end of input")

/-- What stands one level deeper in each construct. -/
def bodies (dialect : Dialect) : Construct → Form
  | .negation => negationBody
  | .signed => signedBody
  | .sumTail => sumTailBody
  | .productTail => productTailBody
  | .paren => parenBody
  | .arguments => argumentsBody
  | .subquery => subqueryBody dialect
  | .derivedTable => derivedTableBody dialect
  | .members => membersBody
  | .valueRow => valueRowBody
  | .seeds => seedsBody
  | .columns => columnsBody
  | .keyColumns => keyColumnsBody
  | .tableElements => tableElementsBody
  | .typeArguments => typeArgumentsBody
  | .countingArguments => countingArgumentsBody
  | .flags => flagsBody
  | .bypassed => statement dialect

/-- Reads by a form of a dialect, with constructs nested at most `levels` deep. -/
def readForm (dialect : Dialect) (levels : Nat) (form : Form) : Reader :=
  form.read (enter (bodies dialect) levels levels)

end SqlFront.Grammar
