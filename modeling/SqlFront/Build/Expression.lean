import SqlFront.Build.Name
import SqlFront.Expr.Negation
import SqlFront.Literal.Number
import SqlFront.Literal.Text

/-!
Expressions, built from parse trees.

What a node builds depends on what its parts build, so the parts are built first; a part that
cannot be built is a failure only where it is used. The alias of what is built is the text of
the node.
-/

namespace SqlFront

/-- Combines the items of a list in a tree that is as shallow as it can be, in their order. -/
def balanced {α : Type} (combine : α → α → α) : List α → Option α
  | [] => none
  | [item] => some item
  | first :: second :: items => do
      let all := first :: second :: items
      let left ← balanced combine (all.take (all.length / 2))
      let right ← balanced combine (all.drop (all.length / 2))
      return combine left right
termination_by items => items.length
decreasing_by all_goals simp; omega

namespace Build

/-- A part of a node, and the expression that it builds. -/
structure Part where
  tree : Tree
  built : Built Expr

/-- A node of an expression, with all of its parts. -/
structure Node where
  rule : Rule
  span : Span
  parts : List Part
  /-- The parts of the list that belongs to the node. -/
  members : Option (List Part)

/-- What expressions are built with: the settings, the text, and the ways to read decimals and to
decode hexadecimal digits. -/
structure Context where
  config : Config
  source : Source
  [decimals : Decimal.Reader]
  [hexDigits : Literal.HexDecoder]

namespace Context

/-- The text of a tree. -/
def text (context : Context) (tree : Tree) : String :=
  context.source.slice tree.span

/-- What a part builds, unless it is a condition. -/
def value (context : Context) (part : Part) : Built Expr := do
  let e ← part.built
  if e.isPredicate then Built.reject (.conditionAsValue (context.text part.tree)) else return e

/-- The constant that a part builds; `what` says what it is for. -/
def constant (context : Context) (what : String) (part : Part) : Built Constant := do
  match ← part.built with
  | .constant _ value => return value
  | _ => Built.refuse (.notALiteral what (context.text part.tree))

/-- The constant that the token of a literal stands for. -/
def literal (context : Context) (rule : Rule) (token : Option Token) : Built Constant :=
  match token with
  | some (.number text) => Built.ofMeaning (Literal.numberBy context.decimals false text)
  | some (.hexNumber digits) =>
      Built.ofMeaning ((Literal.hexBy context.hexDigits digits).map .binary)
  | some (.hexString digits) =>
      Built.ofMeaning ((Literal.hexBy context.hexDigits digits).map .binary)
  | some (.string body kind) =>
      Built.ofMeaning <|
        Literal.stringBy context.hexDigits body kind context.config.effectiveBackslashEscapes
  | some (.keyword .NULL) => .ok .null
  | some (.keyword .TRUE) => .ok (.int 1)
  | some (.keyword .FALSE) => .ok (.int 0)
  | _ => Built.reject (.malformed (some rule))

end Context

/-- The column that a part builds; `operator` is what it stands before. -/
def columnOperand (operator : String) (part : Part) : Built ColumnRef := do
  match ← part.built with
  | .column _ column => return column
  | e => Built.refuse (.notAColumn operator e.kindName)

/-- The comparison that a symbol stands for: whether it is negated, and the operator. -/
def comparisonOf? : Token → Option (Bool × ComparisonOp)
  | .symbol .equal => some (false, .equal)
  | .symbol .notEqual => some (true, .equal)
  | .symbol .greater => some (false, .greater)
  | .symbol .less => some (false, .less)
  | .symbol .greaterEqual => some (false, .greaterEqual)
  | .symbol .lessEqual => some (false, .lessEqual)
  | _ => none

namespace Node

def trees (node : Node) : List Tree := node.parts.map Part.tree

/-- The parts that stand for values and conditions. -/
def operands (node : Node) : List Part :=
  node.parts.filter fun part => part.tree.isExpression

def malformed (node : Node) : SemanticCause := .malformed (some node.rule)

/-- The operand at a place, counted from zero. -/
def operand (node : Node) (n : Nat) : Built Part :=
  Built.require node.malformed node.operands[n]?

/-- The first token directly in the node. -/
def firstLeaf (node : Node) : Option Lexeme := (Tree.leaves node.trees).head?

def hasKeyword (node : Node) (keyword : Keyword) : Bool := Tree.hasKeyword keyword node.trees

/-- The token that the node starts with, if it starts with one. -/
def headToken? (node : Node) : Option Token := node.trees.head?.bind Tree.token?

/-- A chain of conditions. -/
def logical (node : Node) (combine : Expr → Expr → Expr) : Built Expr := do
  let operands ← node.operands.mapM fun part => do
    let e ← part.built
    if e.isPredicate then return e else Built.reject (.notAnOperand e.kindName)
  Built.require node.malformed (balanced combine operands)

def comparison (context : Context) (node : Node) : Built Expr := do
  let left ← context.value (← node.operand 0)
  let right ← context.value (← node.operand 1)
  let (negated, op) ←
    Built.require node.malformed (node.firstLeaf.bind fun leaf => comparisonOf? leaf.token)
  return .compare none negated op left right

def isNull (node : Node) : Built Expr := do
  let column ← columnOperand "IS NULL" (← node.operand 0)
  return .isNull none (node.hasKeyword .NOT) column

def inList (context : Context) (node : Node) : Built Expr := do
  let column ← columnOperand "IN" (← node.operand 0)
  if (Tree.find? .subquery node.trees).isSome then Built.refuse .inSubquery
  let members ← Built.require node.malformed node.members
  let values ← (members.filter fun part => part.tree.isExpression).mapM
    (context.constant "an IN list value")
  return .inList none (node.hasKeyword .NOT) column values

def like (context : Context) (node : Node) : Built Expr := do
  let column ← columnOperand "LIKE" (← node.operand 0)
  let pattern ← context.constant "a LIKE pattern" (← node.operand 1)
  let escape ←
    if node.hasKeyword .ESCAPE then do
      let value ← context.constant "an ESCAPE character" (← node.operand 2)
      pure (some (← Built.ofMeaning (Literal.character value)))
    else pure none
  return .like none (node.hasKeyword .NOT) column pattern escape

/-- `x BETWEEN a AND b` is `x >= a AND x <= b`, and its negation is `x < a OR x > b`. -/
def between (context : Context) (node : Node) : Built Expr := do
  let subject ← context.value (← node.operand 0)
  let low ← context.value (← node.operand 1)
  let high ← context.value (← node.operand 2)
  if node.hasKeyword .NOT then
    return .or none (.compare none false .less subject low)
      (.compare none false .greater subject high)
  else
    return .and none (.compare none false .greaterEqual subject low)
      (.compare none false .lessEqual subject high)

/-- The arithmetic that an operator stands for. -/
def arithmeticOf (node : Node) (operator : Option Token) : Built ArithmeticOp :=
  match operator with
  | some (.symbol .plus) => .ok .add
  | some (.symbol .minus) => .ok .subtract
  | some (.symbol .star) => .ok .multiply
  | some (.symbol .slash) => .ok .divide
  | some (.symbol .percent) => Built.refuse .modulo
  | _ => Built.reject node.malformed

/-- The rest of a chain of arithmetic, after the part from `start` on has been built. The
operators associate to the left. -/
def arithmeticFrom (context : Context) (node : Node) (start : Span) (built : Expr) :
    List Part → Built Expr
  | [] => .ok built
  | [_] => Built.reject node.malformed
  | operator :: operand :: rest => do
      let right ← context.value operand
      let op ← node.arithmeticOf operator.tree.token?
      let text := context.source.slice (start.join operand.tree.span)
      arithmeticFrom context node start (.arithmetic (some text) op built right) rest

def arithmetic (context : Context) (node : Node) : Built Expr :=
  match node.parts with
  | [] => Built.reject node.malformed
  | first :: rest => do
      node.arithmeticFrom context first.tree.span (← context.value first) rest

/-- The number that a tree consists of. -/
def numberText? : Tree → Option String
  | .node .literal _ (.leaf ⟨.number text, _⟩ :: _) => some text
  | _ => none

/-- A sign and its operand. A minus sign belongs to a number that follows it directly, and else
subtracts from zero. -/
def signed (context : Context) (node : Node) : Built Expr := do
  let negative := Tree.hasToken (.symbol .minus) node.trees
  let inner ← node.operand 0
  match negative, numberText? inner.tree with
  | true, some text =>
      return .constant none (← Built.ofMeaning (Literal.numberBy context.decimals true text))
  | true, none =>
      return .arithmetic none .subtract (.constant (some "0") (.int 0)) (← context.value inner)
  | false, _ => context.value inner

def isAllColumns : Expr → Bool
  | .allColumns _ _ => true
  | _ => false

/-- A call. Only aggregates know `DISTINCT`, and only `COUNT` knows the star. -/
def call (context : Context) (node : Node) : Built Expr := do
  let leaf ← Built.require node.malformed node.firstLeaf
  let name := context.source.slice leaf.span
  let distinct := node.hasKeyword .DISTINCT
  let arguments ← node.operands.mapM context.value
  let aggregate := Aggregate.ofName? name
  if arguments.any isAllColumns && aggregate != some .count then
    Built.reject (.starArgument name)
  else
    match aggregate with
    | some function => return .aggregate none function distinct arguments
    | none =>
        if distinct then Built.reject (.distinctArgument name)
        else return .call none name arguments

/-- All columns, of the table that is named before the star. -/
def allColumns (context : Context) (node : Node) : Built Expr :=
  match Tree.names node.trees with
  | [] => .ok (.allColumns none none)
  | parts => do
      return .allColumns none (some (← TableRef.ofParts context.config.dialect parts))

/-- The expression of a node, without its alias. -/
def bare (context : Context) (node : Node) : Built Expr :=
  match node.rule with
  | .orExpr => node.logical (.or none)
  | .andExpr => node.logical (.and none)
  | .notExpr => do
      let inner ← (← node.operand 0).built
      Built.ofMeaning inner.negate
  | .bitwiseExpr =>
      let text := (node.firstLeaf.map fun leaf => context.source.slice leaf.span).getD ""
      Built.refuse (.bitwiseOperator text)
  | .comparisonExpr => node.comparison context
  | .inExpr => node.inList context
  | .likeExpr => node.like context
  | .isNullExpr => node.isNull
  | .betweenExpr => node.between context
  | .additiveExpr => node.arithmetic context
  | .multiplicativeExpr => node.arithmetic context
  | .unaryExpr => node.signed context
  | .parenExpr => do (← node.operand 0).built
  | .functionCall => node.call context
  | .literal => do return .constant none (← context.literal node.rule node.headToken?)
  | .placeholder =>
      match node.headToken? with
      | some (.placeholder label) => .ok (.constant none (.placeholder label))
      | _ => Built.reject node.malformed
  | .columnName => do
      let tree := Tree.node node.rule node.span node.trees
      return .column none (← ColumnRef.ofTree context.config.dialect tree)
  | .allColumns => node.allColumns context
  | .subquery => Built.refuse .subquery
  | _ => Built.reject node.malformed

/-- The expression of a node; its alias is the text of the node. -/
def build (context : Context) (node : Node) : Built Expr := do
  return (← node.bare context).withAlias (some (context.source.slice node.span))

end Node

namespace Context

mutual

/-- The expression that a tree stands for. -/
def expression (context : Context) : Tree → Built Expr
  | .leaf _ => Built.reject (.malformed none)
  | .node rule span children =>
      if rule.isExpression then
        Node.build context ⟨rule, span, parts context children, members context children⟩
      else Built.reject (.malformed (some rule))

/-- All of some trees, with what they build. -/
def parts (context : Context) : List Tree → List Part
  | [] => []
  | tree :: trees => ⟨tree, expression context tree⟩ :: parts context trees

/-- The parts of the first list of expressions among some trees. -/
def members (context : Context) : List Tree → Option (List Part)
  | [] => none
  | .node .expressionList _ children :: _ => some (parts context children)
  | _ :: trees => members context trees

end

end Context

end Build

end SqlFront
