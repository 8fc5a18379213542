import SqlFront.Grammar.Expression

/-!
Forms of the commands that manage keys, encrypted columns and trees, the stored schema and the
product key.
-/

namespace SqlFront.Grammar

/-- The word that asks for progress only, where it is written. -/
def status? : Form := .optional [Token.isWord "STATUS"] (.node .statusFlag (.word "STATUS"))

/-- A command on keys that starts with `verb`. -/
def keysCommand (rule : Rule) (verb : Form) : Form :=
  .node rule <| .all
    [verb, .word "KEYS",
      .optional [Token.isWord "TO"]
        (.node .destination (.seq (.word "TO") (.token isString "a destination string"))),
      status?]

/-- A command on an encrypted column that starts with the word `verb`. -/
def columnCommand (rule : Rule) (verb : String) : Form :=
  .node rule <| .all
    [.word verb, .keyword .COLUMN, columnName,
      .optional [Token.isWord "FOR"] (.seq (.word "FOR") (.deeper .flags)),
      status?]

/-- The units of a duration. -/
def timeUnits : List String := ["SECONDS", "SECOND", "MINUTES", "MINUTE", "HOURS", "HOUR"]

/-- When a command on the encrypted tree has to stop. -/
def stopClause : Form :=
  .node .stopClause <| .seq (.word "STOP") <|
    .ifAt [Token.isWord "IMMEDIATE"] (.word "IMMEDIATE") <|
    .all [.word "AFTER", .token isNumber "a duration",
      .token (isWordOf timeUnits) "SECONDS, MINUTES or HOURS"]

/-- A command on the encrypted tree that starts with the word `verb`. -/
def treeCommand (rule : Rule) (verb : String) : Form :=
  .node rule <| .all
    [.word verb, .word "OPETREE",
      .optional [Token.isWord "WITH"] (.node .seedList (.seq (.word "WITH") (.deeper .seeds))),
      .optional [Token.isWord "STOP"] stopClause]

/-- A command that stores or restores the encrypted tree or the schema. -/
def snapshotCommand (verb : String) (tree schema : Rule) : Form :=
  .ifAt [Token.isWord verb, Token.isWord "OPETREE"]
    (.node tree (.seq (.word verb) (.word "OPETREE"))) <|
  .ifAt [Token.isWord verb, Token.isWord "SCHEMA"]
    (.node schema (.seq (.word verb) (.word "SCHEMA"))) <|
  .seq (.word verb) (.unexpected "OPETREE or SCHEMA")

/-- A `LICENSE` command: it renews, reports or sets the product key. -/
def licenseCommand : Form :=
  .ifAt [Token.isWord "LICENSE", Token.isWord "REFRESH"]
    (.node .licenseRefreshStatement (.seq (.word "LICENSE") (.word "REFRESH"))) <|
  .ifAt [Token.isWord "LICENSE", Token.isWord "STATUS"]
    (.node .licenseStatusStatement (.seq (.word "LICENSE") (.word "STATUS"))) <|
  .ifAt [Token.isWord "LICENSE", isKeyword .SET]
    (.node .licenseSetKeyStatement
      (.all [.word "LICENSE", .keyword .SET, .keyword .KEY,
        .optional [isString] (.node .licenseKey (.token isString "a string"))])) <|
  .seq (.word "LICENSE") (.unexpected "REFRESH, SET KEY or STATUS")

end SqlFront.Grammar
