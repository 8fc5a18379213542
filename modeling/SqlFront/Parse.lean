import SqlFront.Build.Statement
import SqlFront.Parser.Statement

/-!
Entry points: from the text of a batch to its tokens, its parse tree and its queries, and from
the text of an expression to the expression.

A text that cannot be read as a batch is reported as a parse failure. What can be read and has no
meaning is reported plainly.
-/

namespace SqlFront

/-- A fault of a text as a failure at a line and a column. -/
def Fault.failure (fault : Fault) (source : Source) : Failure :=
  .unreadable fault.cause (fault.position source)

/-- The tokens of a text. -/
def tokenize (lexer : Lexer) (source : Source) : Except Failure (List Lexeme) :=
  (lexer.lexemes source).mapError (·.failure source)

namespace Config

/-- The parse tree of a batch. -/
def parseTree (config : Config) (source : Source) : Except Error Tree :=
  let tree := do
    let lexemes ← config.lexer.lexemes source
    Grammar.readBatch config.dialect config.maxNestingDepth lexemes
  tree.mapError fun fault => .parseFailed (fault.failure source)

/-- The queries of a batch. -/
def parseBatch (config : Config) (source : Source) : Except Error (List Query) := do
  let tree ← config.parseTree source
  (Build.Context.batch { config, source } tree).mapError .plain

/-- The parse tree of the expression that a text starts with. -/
def expressionTree (config : Config) (source : Source) : Except Failure Tree :=
  let tree := do
    let lexemes ← config.lexer.lexemes source
    let (tree, _) ← Grammar.readExpression config.dialect config.maxNestingDepth lexemes
    return tree
  tree.mapError (·.failure source)

end Config

/-- The expression that the text starts with. -/
def Build.Context.parseExpression (context : Build.Context) : Except Failure Expr := do
  context.expression (← context.config.expressionTree context.source)

/-- The expression that a text starts with. -/
def Config.parseExpression (config : Config) (source : Source) : Except Failure Expr :=
  Build.Context.parseExpression { config, source }

/-- The queries of a batch under settings, which have to be valid. -/
def parseWith (config : Config) (text : String) : Except Error (List Query) := do
  config.validate.mapError .plain
  config.parseBatch text.toList

/-- The queries of a batch in a dialect, under the standard settings. -/
def parse (dialect : Dialect) (text : String) : Except Error (List Query) :=
  parseWith (Config.ofDialect dialect) text

end SqlFront
