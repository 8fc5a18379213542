import SqlFront.Build.Change

/-!
Statements that define tables and indexes, or choose a database, built from parse trees.
-/

namespace SqlFront.Build

/-- The first column of this name, in any case, changed; a complaint if there is none. -/
def changeColumn (change : ColumnDefinition → ColumnDefinition) (constraint name : String) :
    List ColumnDefinition → Built (List ColumnDefinition)
  | [] => Built.reject (.unknownKeyColumn constraint name)
  | column :: columns =>
      if sameWord column.name name then .ok (change column :: columns)
      else do return column :: (← changeColumn change constraint name columns)

/-- A column of a primary key, which is never null. -/
def inPrimaryKey (column : ColumnDefinition) : ColumnDefinition :=
  { column with primaryKey := true, nullable := false }

/-- A column that has no value twice. -/
def madeUnique (column : ColumnDefinition) : ColumnDefinition :=
  { column with unique := true }

/-- Changes the columns of these names, one after the other. -/
def changeColumns (change : ColumnDefinition → ColumnDefinition) (constraint : String)
    (names : List String) (columns : List ColumnDefinition) : Built (List ColumnDefinition) :=
  names.foldlM (fun columns name => changeColumn change constraint name columns) columns

/-- The flags that are named directly in a list. -/
def encryptionFlags (list : Tree) : Built EncryptionFlags :=
  (Tree.names list.children).foldlM
    (fun flags name => do
      let flag ← Built.require (.unknownFlag name) (EncryptionFlag.ofName? name)
      return flags.insert flag)
    EncryptionFlags.none

/-- The database that a tree names. -/
def database (tree : Tree) : Built String := tree.lastName

/-- What the elements of a new table define. -/
structure TableElements where
  columns : List ColumnDefinition
  primaryKey : List String
  unique : List String

namespace Context

/-- The text that a token stands for. -/
def stringValue (context : Context) (lexeme : Lexeme) : Built String :=
  match lexeme.token with
  | .string body kind => do
      let escapes := context.config.effectiveBackslashEscapes
      match ← Built.ofMeaning (Literal.stringBy context.hexDigits body kind escapes) with
      | .string text => return text
      | constant => Built.reject (.notAString constant.kindName)
  | _ => Built.reject (.notAString (context.source.slice lexeme.span))

/-- The text of the first string directly in a tree. -/
def stringChild (context : Context) (tree : Tree) : Built String := do
  let lexeme ← Built.require tree.malformed
    ((Tree.leaves tree.children).find? fun lexeme => Grammar.isString lexeme.token)
  context.stringValue lexeme

/-- The length that a token stands for. -/
def lengthValue (context : Context) (lexeme : Lexeme) : Built Int :=
  match lexeme.token with
  | .number text => Built.require (.invalidLength text) (int64? text.toList)
  | token =>
      if token.isWord "MAX" then .ok maxLength
      else Built.reject (.invalidLength (context.source.slice lexeme.span))

/-- The token is no punctuation of a list. -/
def isArgument (lexeme : Lexeme) : Bool :=
  lexeme.token != .symbol .leftParen && lexeme.token != .symbol .rightParen &&
    lexeme.token != .symbol .comma

/-- Gives a column the arguments of its type. -/
def typeArguments (context : Context) (column : ColumnDefinition) (list : Tree) :
    Built ColumnDefinition :=
  let values := (Tree.leaves list.children).filter isArgument
  match column.dataType.lengthClass, values with
  | .members, values => do
      return { column with members := ← values.mapM context.stringValue }
  | _, [length] => do Built.ofMeaning (column.setLength (← context.lengthValue length))
  | .precision, [precision, scale] => do
      let column ← Built.ofMeaning (column.setLength (← context.lengthValue precision))
      return { column with scale := some (← context.lengthValue scale) }
  | .fixed, _ => Built.ofMeaning (column.setLength 0)
  | _, _ => Built.reject (.severalLengths column.dataType column.name)

/-- Gives a column one more property. -/
def columnProperty (context : Context) (column : ColumnDefinition) (tree : Tree) :
    Built ColumnDefinition :=
  match tree.rule? with
  | some .notNullConstraint => .ok { column with nullable := false }
  | some .nullConstraint => .ok { column with nullable := true }
  | some .primaryKeyConstraint => .ok (inPrimaryKey column)
  | some .uniqueConstraint => .ok (madeUnique column)
  | some .autoIncrementConstraint => .ok { column with autoIncrement := true }
  | some .defaultConstraint => do
      return { column with defaultValue := some (← context.firstExpression tree) }
  | some .encryptionOption =>
      match Tree.find? .flagList tree.children with
      | some list => do return { column with encryption := ← encryptionFlags list }
      | none => .ok { column with encryption := EncryptionFlags.none.insert .store }
  | _ => .ok column

/-- A column with its type and its properties. -/
def columnDefinition (context : Context) (tree : Tree) : Built ColumnDefinition := do
  let name ← Built.require tree.malformed (Tree.names tree.children).head?
  let typeTree ← tree.required .dataType
  let words := (Tree.leaves typeTree.children).map fun lexeme => context.source.slice lexeme.span
  let typeName := joined " " words
  let dialect := context.config.dialect
  match dialect.typeOfName? typeName with
  | none => Built.refuse (.unknownType (upperWord typeName) dialect)
  | some spelled =>
      let column :=
        { ColumnDefinition.ofType name spelled.dataType with autoIncrement := spelled.counting }
      let column ←
        match Tree.find? .typeArguments typeTree.children with
        | some list => context.typeArguments column list
        | none => .ok column
      tree.children.foldlM context.columnProperty column

/-- The names of the columns in the key of a table. -/
def keyColumns (context : Context) (element : Tree) : Built (List String) := do
  let columns ← context.columnList (← element.required .columnList)
  return columns.map ColumnRef.name

/-- Adds an element to those of a new table. -/
def tableElement (context : Context) (elements : TableElements) (tree : Tree) :
    Built TableElements :=
  match tree.rule? with
  | some .columnDefinition => do
      let column ← context.columnDefinition tree
      return { elements with columns := elements.columns ++ [column] }
  | some .tablePrimaryKey => do
      let names ← context.keyColumns tree
      return { elements with primaryKey := elements.primaryKey ++ names }
  | some .tableUnique => do
      let names ← context.keyColumns tree
      if 1 < names.length then Built.refuse .multiColumnUnique
      else return { elements with unique := elements.unique ++ names }
  | _ => .ok elements

def createTable (context : Context) (tree : Tree) : Built CreateTableQuery := do
  let list ← tree.required .tableElementList
  let elements ← list.children.foldlM context.tableElement ⟨[], [], []⟩
  let columns ← changeColumns inPrimaryKey "PRIMARY KEY" elements.primaryKey elements.columns
  let columns ← changeColumns madeUnique "UNIQUE" elements.unique columns
  return ⟨← context.table tree, Tree.hasKeyword .IF tree.children, columns⟩

def alterTable (context : Context) (tree : Tree) : Built AlterTableQuery := do
  let action ← tree.required .alterAction
  match Tree.find? .unsupportedClause action.children with
  | some clause =>
      let word := (Tree.leaves clause.children).head?.map fun lexeme =>
        context.source.slice lexeme.span
      Built.refuse (.alterAction (upperWord (word.getD "")))
  | none =>
      let dialect := context.config.dialect
      if Tree.hasWord "MODIFY" action.children && !dialect.supportsModifyColumn then
        Built.refuse (.modifyColumn dialect)
      else
        let definition ← action.required .columnDefinition
        let table ← context.table tree
        return ⟨table, ← context.columnDefinition definition⟩

def dropTable (context : Context) (tree : Tree) : Built DropTableQuery := do
  return ⟨← context.table tree, Tree.hasKeyword .IF tree.children⟩

def createIndex (context : Context) (tree : Tree) : Built CreateIndexQuery := do
  let name ← Built.require tree.malformed do
    let name ← Tree.find? .indexName tree.children
    (Tree.names name.children).getLast?
  let list ← tree.required .columnList
  let table ← context.table tree
  return ⟨name, table, ← context.indexColumns list.children,
    Tree.hasKeyword .UNIQUE tree.children⟩

/-- The database that a statement chooses, where the dialect and the settings let it. -/
def use (context : Context) (tree : Tree) : Built String := do
  if !context.config.allowUseStatements then Built.refuse .useDisabled
  context.config.dialect.checkUse
  database (← tree.required .databaseName)

/-- The database whose tables are shown, where one is named. -/
def showTables (tree : Tree) : Built (Option String) :=
  match Tree.find? .databaseName tree.children with
  | some name => do return some (← database name)
  | none => .ok none

end Context

end SqlFront.Build
