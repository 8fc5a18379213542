import SqlFront.Dialect
import SqlFront.Grammar.Form

/-!
The parser: it takes tokens one by one and puts together the parts of each production itself.

Nothing but the production that takes a token puts its leaf among the parts of a tree, in whatever
order, or leaves it out. What may contain itself is entered one level deeper; a `Level` holds what
there is to enter, so that no production calls itself.
-/

namespace SqlFront

open Grammar

/-- Takes tokens from the front of those that are left, or finds a fault. -/
abbrev Parser := StateT (List Lexeme) (Except Fault)

namespace Parser

/-! ### Tokens -/

/-- The token that is so many places further on. -/
def peek (places : Nat) : Parser Token := return Grammar.current ((← get).drop places)

/-- The next token. -/
def current : Parser Token := peek 0

/-- Fails at the next token. -/
def fail {α : Type} (cause : SyntaxCause) : Parser α := do throw (faultAt (← get) cause)

/-- Fails with words for what was wanted. -/
def unexpected {α : Type} (wanted : String) : Parser α := do
  fail (.unexpectedToken wanted (← current))

/-- Takes the next token. -/
def advance : Parser Tree := do
  match ← get with
  | lexeme :: rest =>
      set rest
      return .leaf lexeme
  | [] => return .leaf ⟨.eof, ⟨0, 0⟩⟩

/-- Takes the next token if it passes a test. -/
def accept (test : Token → Bool) : Parser (Option Tree) := do
  if test (← current) then return some (← advance) else return none

/-- Takes the next token, which has to pass a test. -/
def expect (test : Token → Bool) (wanted : String) : Parser Tree := do
  if test (← current) then advance else unexpected wanted

def expectKeyword (k : Keyword) : Parser Tree := expect (isKeyword k) (Token.keyword k).describe

def expectSymbol (s : Symbol) : Parser Tree := expect (isSymbol s) (Token.symbol s).describe

def expectWord (word : String) : Parser Tree := expect (Token.isWord word) word

def expectName : Parser Tree := expect Token.isName "identifier"

/-! ### Repetitions -/

/-- Goes through rounds, each of which has the parts so far and adds to them, until one of them
says that it was no round any more. -/
def rounds (round : List Tree → Parser (Option (List Tree))) :
    (times : Nat) → List Tree → Parser (List Tree)
  | 0, parts => return parts
  | times + 1, parts => do
      match ← round parts with
      | some parts => rounds round times parts
      | none => return parts

/-- Goes through rounds to their end. Each takes a token, so that there are not more of them than
tokens. -/
def repeated (round : List Tree → Parser (Option (List Tree))) (parts : List Tree) :
    Parser (List Tree) := do
  rounds round (← get).length parts

/-- Adds a part, if there is one. -/
def partRound (part? : Parser (Option Tree)) (parts : List Tree) :
    Parser (Option (List Tree)) := do
  match ← part? with
  | some part => return some (parts ++ [part])
  | none => return none

/-- Adds parts as long as there are any. -/
def addAll (part? : Parser (Option Tree)) : List Tree → Parser (List Tree) :=
  repeated (partRound part?)

/-- Adds a comma and the item behind it, if there is a comma. -/
def itemRound (item : Parser Tree) (parts : List Tree) : Parser (Option (List Tree)) := do
  match ← accept (isSymbol .comma) with
  | some comma => return some (parts ++ [comma] ++ [← item])
  | none => return none

/-- Adds an item, and every further one with the comma in front of it. -/
def addItems (item : Parser Tree) (parts : List Tree) : Parser (List Tree) := do
  let parts := parts ++ [← item]
  repeated (itemRound item) parts

/-! ### Names -/

/-- The name after `AS`, or a name that stands alone. -/
def alias? : Parser (Option Tree) := do
  match ← accept (isKeyword .AS) with
  | some as => return some (.ofParts .aliasClause [as, ← expectName])
  | none =>
      if (← current).isName then return some (.ofParts .aliasClause [← advance]) else return none

/-- Adds a dot and the name behind it, if there is a dot and there are not three names yet. -/
def qualifierRound (parts : List Tree) : Parser (Option (List Tree)) := do
  if isSymbol .dot (← current) && parts.length < 5 then
    let parts := parts ++ [← advance]
    return some (parts ++ [← expectName])
  else return none

/-- A table with at most two qualifiers, and perhaps with an alias. -/
def tableName (hasAlias : Bool) : Parser Tree := do
  let parts := [← expectName]
  let parts ← repeated qualifierRound parts
  let name ← if hasAlias then alias? else pure none
  return .ofParts .tableName (parts ++ name.toList)

/-- The rest of a column behind its first name, and the production that it makes: a star ends it,
where one may. -/
def qualified (hasStar : Bool) : (times : Nat) → List Tree → Parser (Rule × List Tree)
  | 0, parts => return (.columnName, parts)
  | times + 1, parts => do
      if isSymbol .dot (← current) then
        let parts := parts ++ [← advance]
        if hasStar && isSymbol .star (← current) then
          return (.allColumns, parts ++ [← advance])
        else qualified hasStar times (parts ++ [← expectName])
      else return (.columnName, parts)

/-- A column with any number of qualifiers; or all columns of a table, where these may stand. -/
def column (hasStar : Bool) : Parser Tree := do
  let parts := [← expectName]
  let (rule, parts) ← qualified hasStar (← get).length parts
  return .ofParts rule parts

/-! ### Levels -/

/-- What can be entered one level deeper. The parts of a chain that are there so far go into the
rest of it. -/
structure Deeper where
  expression : Parser Tree
  negatable : Parser Tree
  unary : Parser Tree
  sumTail : List Tree → Parser (List Tree)
  productTail : List Tree → Parser (List Tree)
  select : Parser Tree
  tableElement : Parser Tree
  statement : Parser Tree

/-- A level of nesting, with what can be entered one level deeper. There is nothing at the last
level that the limit allows. -/
structure Level where
  dialect : Dialect
  limit : Nat
  deeper? : Thunk (Option Deeper)

namespace Level

variable (level : Level)

/-- Enters the next level. -/
def nested {α : Type} (inner : Deeper → Parser α) : Parser α :=
  match level.deeper?.get with
  | some deeper => inner deeper
  | none => fail (.nestingLimit level.limit)

/-- Items with commas between them, in parentheses. -/
def parenthesized (rule : Rule) (item : Deeper → Parser Tree) : Parser Tree :=
  level.nested fun deeper => do
    let parts := [← expectSymbol .leftParen]
    let parts ← addItems (item deeper) parts
    let parts := parts ++ [← expectSymbol .rightParen]
    return .ofParts rule parts

/-- Columns in parentheses, which may have directions. -/
def columnList (hasDirection : Bool) : Parser Tree :=
  level.parenthesized .columnList fun _ => do
    let name ← column false
    if hasDirection then
      let parts := [name] ++ (← accept (isOneOf [.ASC, .DESC])).toList
      return .ofParts .indexColumn parts
    else return name

end Level

end Parser

end SqlFront
