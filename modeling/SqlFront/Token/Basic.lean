import SqlFront.Text.Source
import SqlFront.Text.Words

/-!
Tokens: the words, literals, names and symbols of SQL text. Literals keep their body as written;
what it stands for is decided later.
-/

namespace SqlFront

/-- A reserved word. Every other word is a name, also where a statement gives it a meaning. -/
inductive Keyword where
  | SELECT | FROM | WHERE | INSERT | INTO | VALUES | UPDATE | SET | DELETE | CREATE | DROP
  | ALTER | TABLE | INDEX | COLUMN | IF | EXISTS | NOT | AND | OR | IS | NULL | IN | BETWEEN
  | LIKE | ESCAPE | AS | ON | JOIN | INNER | LEFT | RIGHT | OUTER | CROSS | FULL | ORDER | BY
  | ASC | DESC | GROUP | HAVING | LIMIT | OFFSET | DISTINCT | ALL | PRIMARY | KEY | UNIQUE
  | DEFAULT | TRUE | FALSE | USE
  deriving DecidableEq, Repr

namespace Keyword

def word : Keyword → String
  | SELECT => "SELECT"
  | FROM => "FROM"
  | WHERE => "WHERE"
  | INSERT => "INSERT"
  | INTO => "INTO"
  | VALUES => "VALUES"
  | UPDATE => "UPDATE"
  | SET => "SET"
  | DELETE => "DELETE"
  | CREATE => "CREATE"
  | DROP => "DROP"
  | ALTER => "ALTER"
  | TABLE => "TABLE"
  | INDEX => "INDEX"
  | COLUMN => "COLUMN"
  | IF => "IF"
  | EXISTS => "EXISTS"
  | NOT => "NOT"
  | AND => "AND"
  | OR => "OR"
  | IS => "IS"
  | NULL => "NULL"
  | IN => "IN"
  | BETWEEN => "BETWEEN"
  | LIKE => "LIKE"
  | ESCAPE => "ESCAPE"
  | AS => "AS"
  | ON => "ON"
  | JOIN => "JOIN"
  | INNER => "INNER"
  | LEFT => "LEFT"
  | RIGHT => "RIGHT"
  | OUTER => "OUTER"
  | CROSS => "CROSS"
  | FULL => "FULL"
  | ORDER => "ORDER"
  | BY => "BY"
  | ASC => "ASC"
  | DESC => "DESC"
  | GROUP => "GROUP"
  | HAVING => "HAVING"
  | LIMIT => "LIMIT"
  | OFFSET => "OFFSET"
  | DISTINCT => "DISTINCT"
  | ALL => "ALL"
  | PRIMARY => "PRIMARY"
  | KEY => "KEY"
  | UNIQUE => "UNIQUE"
  | DEFAULT => "DEFAULT"
  | TRUE => "TRUE"
  | FALSE => "FALSE"
  | USE => "USE"

/-- Every reserved word. -/
def all : List Keyword :=
  [.SELECT, .FROM, .WHERE, .INSERT, .INTO, .VALUES, .UPDATE, .SET, .DELETE, .CREATE, .DROP,
    .ALTER, .TABLE, .INDEX, .COLUMN, .IF, .EXISTS, .NOT, .AND, .OR, .IS, .NULL, .IN, .BETWEEN,
    .LIKE, .ESCAPE, .AS, .ON, .JOIN, .INNER, .LEFT, .RIGHT, .OUTER, .CROSS, .FULL, .ORDER, .BY,
    .ASC, .DESC, .GROUP, .HAVING, .LIMIT, .OFFSET, .DISTINCT, .ALL, .PRIMARY, .KEY, .UNIQUE,
    .DEFAULT, .TRUE, .FALSE, .USE]

/-- The reserved word that is spelled so, in any case. -/
def ofWord? (word : String) : Option Keyword :=
  all.find? fun keyword => sameWord keyword.word word

end Keyword

/-- Operators and punctuation. -/
inductive Symbol where
  | plus
  | minus
  | star
  | slash
  | percent
  | equal
  | notEqual
  | less
  | greater
  | lessEqual
  | greaterEqual
  | caret
  | ampersand
  | pipe
  | leftParen
  | rightParen
  | comma
  | semicolon
  | dot
  deriving DecidableEq, Repr

/-- The text of a symbol; of two spellings of inequality the standard one. -/
def Symbol.text : Symbol → String
  | plus => "+"
  | minus => "-"
  | star => "*"
  | slash => "/"
  | percent => "%"
  | equal => "="
  | notEqual => "<>"
  | less => "<"
  | greater => ">"
  | lessEqual => "<="
  | greaterEqual => ">="
  | caret => "^"
  | ampersand => "&"
  | pipe => "|"
  | leftParen => "("
  | rightParen => ")"
  | comma => ","
  | semicolon => ";"
  | dot => "."

/-- The quoting form of a string literal. -/
inductive StringKind where
  /-- In single quotes. -/
  | single
  /-- In double quotes. -/
  | double
  /-- In single quotes after an `N`. -/
  | national
  /-- In single quotes after an `E`; a backslash always escapes here. -/
  | escaped
  deriving DecidableEq, Repr

/-- The character at both ends of a string. -/
def StringKind.quote : StringKind → Char
  | double => '"'
  | _ => '\''

/-- A token. -/
inductive Token where
  | keyword (word : Keyword)
  /-- A number as written. -/
  | number (text : String)
  /-- The digits of a literal such as `0x4202`. -/
  | hexNumber (digits : String)
  /-- The digits of a literal such as `X'4202'`. -/
  | hexString (digits : String)
  /-- What stands between the quotes of a string, as written. -/
  | string (body : String) (kind : StringKind)
  | name (text : String)
  /-- A name in quotes, without the quotes. -/
  | quotedName (text : String)
  | symbol (sign : Symbol)
  | placeholder (label : String)
  /-- The end of the text. -/
  | eof
  deriving DecidableEq, Repr

namespace Token

/-- The name that a token spells. -/
def name? : Token → Option String
  | name text => some text
  | quotedName text => some text
  | _ => none

def isName (token : Token) : Bool :=
  token.name?.isSome

/-- The token is this word, in any case, without quotes and not reserved. -/
def isWord (word : String) : Token → Bool
  | name text => sameWord text word
  | _ => false

/-- A token as messages show it. -/
def describe : Token → String
  | keyword k => "keyword " ++ k.word
  | number text => "number " ++ text
  | hexNumber digits => "hex literal 0x" ++ digits
  | hexString digits => "hex literal X'" ++ digits ++ "'"
  | string body kind => "string " ++ kind.quote.toString ++ body ++ kind.quote.toString
  | name text => "identifier '" ++ text ++ "'"
  | quotedName text => "identifier '" ++ text ++ "'"
  | symbol s => "'" ++ s.text ++ "'"
  | placeholder label => "placeholder " ++ label
  | eof => "end of input"

end Token

/-- A token and the range of the text it was read from. -/
structure Lexeme where
  token : Token
  span : Span
  deriving DecidableEq, Repr

end SqlFront
