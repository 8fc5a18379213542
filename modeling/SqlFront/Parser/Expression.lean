import SqlFront.Grammar.Expression
import SqlFront.Parser.Basic

/-!
Expressions.
-/

namespace SqlFront.Parser

open Grammar

/-- A chain of operators of one rank, or its first operand alone; `tail` goes on with the
operators. -/
def chain (rule : Rule) (isOperator : Token → Bool) (operand : Parser Tree)
    (tail : List Tree → Parser (List Tree)) : Parser Tree := do
  let first ← operand
  if isOperator (← current) then
    let parts ← tail [first]
    return .ofParts rule parts
  else return first

/-- Adds an operator of a flat chain and its operand, if there is an operator. -/
def operatorRound (isOperator : Token → Bool) (operand : Parser Tree) (parts : List Tree) :
    Parser (Option (List Tree)) := do
  if isOperator (← current) then
    let parts := parts ++ [← advance]
    return some (parts ++ [← operand])
  else return none

/-- A flat chain: no operator opens a level. -/
def flatChain (rule : Rule) (isOperator : Token → Bool) (operand : Parser Tree) : Parser Tree :=
  chain rule isOperator operand (repeated (operatorRound isOperator operand))

/-! ### Operands -/

/-- Adds the arguments of a call: a star, or any number of expressions. -/
def Deeper.addArguments (deeper : Deeper) (parts : List Tree) : Parser (List Tree) := do
  let token ← current
  if isSymbol .star token then
    let star ← advance
    return parts ++ [.ofParts .allColumns [star]]
  else if isSymbol .rightParen token then return parts
  else addItems deeper.expression parts

/-- A call of a function, behind its name. -/
def Deeper.call (deeper : Deeper) (name : Tree) : Parser Tree := do
  let parts := [name, ← expectSymbol .leftParen]
  let parts := parts ++ (← accept (isKeyword .DISTINCT)).toList
  let parts ← deeper.addArguments parts
  let parts := parts ++ [← expectSymbol .rightParen]
  return .ofParts .functionCall parts

namespace Level

variable (level : Level)

/-- A query in parentheses, as an operand. -/
def subquery : Parser Tree :=
  level.nested fun deeper => do
    let opening ← expectSymbol .leftParen
    let select ← deeper.select
    let closing ← expectSymbol .rightParen
    return .ofParts .subquery [opening, select, closing]

/-- A call of a function, whose name is the next token. -/
def functionCall : Parser Tree := do
  let name ← advance
  level.nested (·.call name)

/-- An expression in parentheses. -/
def paren : Parser Tree :=
  level.nested fun deeper => do
    let opening ← advance
    let inner ← deeper.expression
    let closing ← expectSymbol .rightParen
    return .ofParts .parenExpr [opening, inner, closing]

/-- An operand of the tightest operators. -/
def primary : Parser Tree := do
  let token ← current
  let next ← peek 1
  if isSymbol .leftParen token && isKeyword .SELECT next then level.subquery
  else if isSymbol .leftParen token then level.paren
  else if isLiteral token then return .ofParts .literal [← advance]
  else if isPlaceholder token then return .ofParts .placeholder [← advance]
  else if isPlainName token && isSymbol .leftParen next then level.functionCall
  else if isWordOf bareFunctions token then return .ofParts .functionCall [← advance]
  else if token.isName then column true
  else unexpected "an expression"

/-- An operand and the signs before it. -/
def unary : Parser Tree := do
  if isSign (← current) then
    level.nested fun deeper => do
      let sign ← advance
      let operand ← deeper.unary
      return .ofParts .unaryExpr [sign, operand]
  else level.primary

/-! ### Operators -/

/-- Goes on with the next operator of a chain each of whose operators opens a level. -/
def deepTail (isOperator : Token → Bool) (round : Deeper → List Tree → Parser (List Tree))
    (parts : List Tree) : Parser (List Tree) := do
  if isOperator (← current) then level.nested fun deeper => round deeper parts else return parts

/-- An operator of a chain, its operand and the rest of the chain. -/
def deepRound (isOperator : Token → Bool) (operand : Parser Tree)
    (round : Deeper → List Tree → Parser (List Tree)) (parts : List Tree) :
    Parser (List Tree) := do
  let parts := parts ++ [← advance]
  let parts := parts ++ [← operand]
  level.deepTail isOperator round parts

def productRound : List Tree → Parser (List Tree) :=
  level.deepRound isProductSign level.unary (·.productTail)

def product : Parser Tree :=
  chain .multiplicativeExpr isProductSign level.unary
    (level.deepTail isProductSign (·.productTail))

def sumRound : List Tree → Parser (List Tree) :=
  level.deepRound isSign level.product (·.sumTail)

def sum : Parser Tree :=
  chain .additiveExpr isSign level.product (level.deepTail isSign (·.sumTail))

/-- The predicate that starts with `IN`, `LIKE` or `BETWEEN`, behind its left operand and a `NOT`
that may stand there. -/
def predicate (left : Tree) (negation : Option Tree) : Parser Tree := do
  let parts := [left] ++ negation.toList
  let rule := (predicateOf? (← current)).getD .betweenExpr
  let parts := parts ++ [← advance]
  match rule with
  | .inExpr =>
      if isKeyword .SELECT (← peek 1) then
        return .ofParts rule (parts ++ [← level.subquery])
      else
        return .ofParts rule
          (parts ++ [← level.parenthesized .expressionList (·.expression)])
  | .likeExpr =>
      let parts := parts ++ [← level.sum]
      match ← accept (isKeyword .ESCAPE) with
      | some escape => return .ofParts rule (parts ++ [escape] ++ [← level.sum])
      | none => return .ofParts rule parts
  | _ =>
      let parts := parts ++ [← level.sum]
      let parts := parts ++ [← expectKeyword .AND]
      let parts := parts ++ [← level.sum]
      return .ofParts rule parts

/-- A comparison or a predicate, or its left operand alone. -/
def comparison : Parser Tree := do
  let left ← level.sum
  let token ← current
  if isComparisonSign token then
    let sign ← advance
    let right ← level.sum
    return .ofParts .comparisonExpr [left, sign, right]
  else if isKeyword .IS token then
    let parts := [left, ← advance]
    let parts := parts ++ (← accept (isKeyword .NOT)).toList
    let parts := parts ++ [← expectKeyword .NULL]
    return .ofParts .isNullExpr parts
  else if isKeyword .NOT token && (predicateOf? (← peek 1)).isSome then
    let negation ← advance
    level.predicate left (some negation)
  else if (predicateOf? token).isSome then level.predicate left none
  else return left

def bitwise : Parser Tree :=
  flatChain .bitwiseExpr isBitwiseSign level.comparison

def negatable : Parser Tree := do
  if isKeyword .NOT (← current) then
    level.nested fun deeper => do
      let negation ← advance
      let operand ← deeper.negatable
      return .ofParts .notExpr [negation, operand]
  else level.bitwise

def conjunction : Parser Tree :=
  flatChain .andExpr (isKeyword .AND) level.negatable

/-- Any expression. -/
def expression : Parser Tree :=
  flatChain .orExpr (isKeyword .OR) level.conjunction

end Level

end SqlFront.Parser
