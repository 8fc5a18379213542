import SqlFront.Grammar.Form

/-!
Forms of names: tables, columns, aliases, and lists of columns.
-/

namespace SqlFront.Grammar

/-- A dot and the name after it. -/
def dotName : Form := .seq (.symbol .dot) .name

/-- The name after `AS`, or a name that stands alone. -/
def alias? : Form :=
  .ifAt [isKeyword .AS] (.node .aliasClause (.seq (.keyword .AS) .name))
    (.optional [Token.isName] (.node .aliasClause .name))

/-- A table name with at most two qualifiers. -/
def tableParts : Form :=
  .seq .name (.optional [isSymbol .dot] (.seq dotName (.optional [isSymbol .dot] dotName)))

/-- A table that has no alias. -/
def tableName : Form := .node .tableName tableParts

/-- A table and perhaps its alias. -/
def aliasedTable : Form := .node .tableName (.seq tableParts alias?)

/-- A column with any number of qualifiers. -/
def columnName : Form :=
  .node .columnName (.seq .name (.whileAt [isSymbol .dot] dotName))

/-- A column, or all columns of a table where a star follows the last dot. -/
def columnOrAll : Form :=
  .extend (.seq .name (.whileAt [isSymbol .dot, fun t => !isSymbol .star t] dotName))
    (fun token _ => some (if isSymbol .dot token then .allColumns else .columnName))
    (.optional [isSymbol .dot] (.seq (.symbol .dot) (.symbol .star)))

/-- A sorting direction. -/
def direction : Form :=
  .optional [isOneOf [.ASC, .DESC]] (.token (isOneOf [.ASC, .DESC]) "a direction")

/-- Columns in parentheses. -/
def columnsBody : Form := .node .columnList (.parenthesized columnName)

/-- Columns in parentheses that may have directions. -/
def keyColumnsBody : Form :=
  .node .columnList (.parenthesized (.node .indexColumn (.seq columnName direction)))

/-- Encryption flags in parentheses. -/
def flagsBody : Form := .node .flagList (.parenthesized .name)

end SqlFront.Grammar
