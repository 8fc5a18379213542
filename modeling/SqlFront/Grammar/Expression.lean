import SqlFront.Grammar.Name

/-!
Forms of expressions. From the loosest to the tightest they are: `OR`, `AND`, `NOT`, bitwise
operators, comparisons and predicates, sums, products, signs, and operands.

A chain of one operator class is one node with all its operands. `OR`, `AND` and bitwise chains
are flat; each further operator of a sum or a product counts as one more level, since it makes
the value one level deeper.
-/

namespace SqlFront.Grammar

/-- The functions that are called without parentheses. -/
def bareFunctions : List String :=
  ["CURRENT_TIMESTAMP", "CURRENT_DATE", "CURRENT_TIME", "LOCALTIME", "LOCALTIMESTAMP"]

def isSign : Token → Bool
  | .symbol .plus | .symbol .minus => true
  | _ => false

def isProductSign : Token → Bool
  | .symbol .star | .symbol .slash | .symbol .percent => true
  | _ => false

def isBitwiseSign : Token → Bool
  | .symbol .caret | .symbol .ampersand | .symbol .pipe => true
  | _ => false

def isComparisonSign : Token → Bool
  | .symbol .equal | .symbol .notEqual | .symbol .less | .symbol .greater | .symbol .lessEqual
  | .symbol .greaterEqual => true
  | _ => false

/-- A literal of one token. -/
def isLiteral : Token → Bool
  | .number _ | .hexNumber _ | .hexString _ | .string _ _ | .keyword .NULL | .keyword .TRUE
  | .keyword .FALSE => true
  | _ => false

/-- The production `rule` where the next token passes a test. -/
def whenAt (test : Token → Bool) (rule : Rule) (token _next : Token) : Option Rule :=
  if test token then some rule else none

/-- A chain whose operators all have the same rank. -/
def flatChain (rule : Rule) (isOperator : Token → Bool) (operand : Form) : Form :=
  .extend operand (whenAt isOperator rule)
    (.whileAt [isOperator] (.seq (.token isOperator "an operator") operand))

/-- A chain each of whose operators opens a level of nesting. -/
def deepChain (rule : Rule) (isOperator : Token → Bool) (operand : Form) (tail : Construct) :
    Form :=
  .extend operand (whenAt isOperator rule) (.deeper tail)

/-- An operator, its operand, and the rest of the chain. -/
def deepChainTail (isOperator : Token → Bool) (operand : Form) (tail : Construct) : Form :=
  .all [.token isOperator "an operator", operand, .optional [isOperator] (.deeper tail)]

/-- An operand of the tightest operators. A name before a parenthesis is called. -/
def primary : Form :=
  .ifAt [isSymbol .leftParen, isKeyword .SELECT] (.deeper .subquery) <|
  .ifAt [isSymbol .leftParen] (.deeper .paren) <|
  .ifAt [isLiteral] (.node .literal (.token isLiteral "a literal")) <|
  .ifAt [isPlaceholder] (.node .placeholder (.token isPlaceholder "a placeholder")) <|
  .ifAt [isPlainName, isSymbol .leftParen]
    (.node .functionCall (.seq .name (.deeper .arguments))) <|
  .ifAt [isWordOf bareFunctions] (.node .functionCall .name) <|
  .ifAt [Token.isName] columnOrAll <|
  .unexpected "an expression"

/-- An operand and the signs before it. -/
def unary : Form := .ifAt [isSign] (.deeper .signed) primary

def product : Form := deepChain .multiplicativeExpr isProductSign unary .productTail

def sum : Form := deepChain .additiveExpr isSign product .sumTail

/-- The predicate that a token starts. -/
def predicateOf? : Token → Option Rule
  | .keyword .IN => some .inExpr
  | .keyword .LIKE => some .likeExpr
  | .keyword .BETWEEN => some .betweenExpr
  | _ => none

/-- The production that the tokens after an operand call for. After `NOT` only a predicate is a
continuation. -/
def predicateRule (token next : Token) : Option Rule :=
  if isComparisonSign token then some .comparisonExpr
  else match token with
    | .keyword .IS => some .isNullExpr
    | .keyword .NOT => predicateOf? next
    | _ => predicateOf? token

/-- What follows the left operand of a comparison or a predicate. -/
def predicateTail : Form :=
  .ifAt [isComparisonSign] (.seq (.token isComparisonSign "a comparison") sum) <|
  .ifAt [isKeyword .IS]
    (.all [.keyword .IS, .optional [isKeyword .NOT] (.keyword .NOT), .keyword .NULL]) <|
  .seq (.optional [isKeyword .NOT] (.keyword .NOT)) <|
  .ifAt [isKeyword .IN]
    (.seq (.keyword .IN) (.ifAt [isSymbol .leftParen, isKeyword .SELECT] (.deeper .subquery)
      (.deeper .members))) <|
  .ifAt [isKeyword .LIKE]
    (.all [.keyword .LIKE, sum, .optional [isKeyword .ESCAPE] (.seq (.keyword .ESCAPE) sum)]) <|
  .all [.keyword .BETWEEN, sum, .keyword .AND, sum]

/-- A comparison or a predicate, or its left operand alone. -/
def comparison : Form := .extend sum predicateRule predicateTail

def bitwise : Form := flatChain .bitwiseExpr isBitwiseSign comparison

def negatable : Form := .ifAt [isKeyword .NOT] (.deeper .negation) bitwise

def conjunction : Form := flatChain .andExpr (isKeyword .AND) negatable

/-- Any expression. -/
def expression : Form := flatChain .orExpr (isKeyword .OR) conjunction

/-! ### The constructs inside expressions -/

def negationBody : Form := .node .notExpr (.seq (.keyword .NOT) negatable)

def signedBody : Form := .node .unaryExpr (.seq (.token isSign "a sign") unary)

def sumTailBody : Form := deepChainTail isSign product .sumTail

def productTailBody : Form := deepChainTail isProductSign unary .productTail

def parenBody : Form :=
  .node .parenExpr (.all [.symbol .leftParen, expression, .symbol .rightParen])

/-- The arguments of a call: a star, or any number of expressions. -/
def argumentsBody : Form :=
  .all [.symbol .leftParen,
    .optional [isKeyword .DISTINCT] (.keyword .DISTINCT),
    .ifAt [isSymbol .star] (.node .allColumns (.symbol .star))
      (.optional [fun token => !isSymbol .rightParen token] (.commaList expression)),
    .symbol .rightParen]

def membersBody : Form := .node .expressionList (.parenthesized expression)

def valueRowBody : Form := .node .valueRow (.parenthesized expression)

def seedsBody : Form := .node .expressionList (.parenthesized unary)

end SqlFront.Grammar
