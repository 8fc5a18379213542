import SqlFront.Proofs.ParseTree

/-!
The grammar of expressions, as a condition on trees.

Each production has a level, from `OR` as the loosest to operands as the tightest, and says at which
levels its parts stand. Chains of one class of operators are flat. A derivation is a tree each of
whose nodes obeys this. The condition is about the tree alone and does not mention reading.
-/

namespace SqlFront

open Grammar

/-- The levels of expressions, from the loosest to the tightest. -/
inductive Level where
  | disjunction
  | conjunction
  | negation
  | bitwise
  | comparison
  | sum
  | product
  | sign
  | primary
  deriving DecidableEq, Repr

namespace Level

/-- Tighter levels have higher ranks. -/
def rank : Level → Nat
  | disjunction => 0
  | conjunction => 1
  | negation => 2
  | bitwise => 3
  | comparison => 4
  | sum => 5
  | product => 6
  | sign => 7
  | primary => 8

/-- An expression of a level goes on where this token follows it. -/
def goesOnAt (level : Level) (token : Token) : Bool :=
  isSymbol .dot token || isSymbol .leftParen token ||
    (level.rank ≤ product.rank && isProductSign token) ||
    (level.rank ≤ sum.rank && isSign token) ||
    (level.rank ≤ comparison.rank &&
      (isComparisonSign token || isOneOf [.NOT, .IS, .IN, .LIKE, .BETWEEN, .ESCAPE] token)) ||
    (level.rank ≤ bitwise.rank && isBitwiseSign token) ||
    (level.rank ≤ conjunction.rank && isKeyword .AND token) ||
    (level.rank ≤ disjunction.rank && isKeyword .OR token)

end Level

/-- The tokens that can extend an expression: operators, a dot, a parenthesis, and the words of
connectives and predicates. -/
def canExtend (token : Token) : Bool :=
  isSign token || isProductSign token || isBitwiseSign token || isComparisonSign token ||
    isSymbol .dot token || isSymbol .leftParen token ||
    isOneOf [.AND, .OR, .NOT, .IS, .IN, .LIKE, .BETWEEN, .ESCAPE] token

namespace Tree

/-- A star that stands alone. -/
def isStar : Tree → Bool
  | node .allColumns _ [leaf ⟨.symbol .star, _⟩] => true
  | _ => false

/-- A column reference starts with a name that does not count as the call of a function. -/
def startsColumn (token : Token) : Bool := token.isName && !isWordOf bareFunctions token

/-- The level of a tree, where it is an expression. A star that stands alone is none. -/
def level? : Tree → Option Level
  | leaf _ => none
  | node rule _ children =>
      match rule with
      | .orExpr => some .disjunction
      | .andExpr => some .conjunction
      | .notExpr => some .negation
      | .bitwiseExpr => some .bitwise
      | .comparisonExpr | .inExpr | .likeExpr | .isNullExpr | .betweenExpr => some .comparison
      | .additiveExpr => some .sum
      | .multiplicativeExpr => some .product
      | .unaryExpr => some .sign
      | .parenExpr | .functionCall | .literal | .placeholder | .subquery => some .primary
      | .columnName | .allColumns =>
          if children.head?.any (isTokenOf startsColumn) then some .primary else none
      | _ => none

/-- The tree is an expression of this level or a tighter one. -/
def bindsAt (level : Level) (tree : Tree) : Bool :=
  tree.level?.any fun own => level.rank ≤ own.rank

/-! ### Lists of parts -/

/-- The tree is this reserved word. -/
def isWordLeaf (keyword : Keyword) : Tree → Bool := isTokenOf (isKeyword keyword)

/-- The tree is this symbol. -/
def isSymbolLeaf (symbol : Symbol) : Tree → Bool := isTokenOf (isSymbol symbol)

/-- One tree for each test. -/
def Row (tests : List (Tree → Bool)) (parts : List Tree) : Prop :=
  List.Forall₂ (fun test part => test part = true) tests parts

/-- Separators, each with an item after it. -/
inductive Links (separator item : Tree → Bool) : List Tree → Prop where
  | nil : Links separator item []
  | cons {mark part : Tree} {parts : List Tree} :
      separator mark → item part → Links separator item parts →
      Links separator item (mark :: part :: parts)

/-- Items with separators between them, at least one. -/
def Listed (separator item : Tree → Bool) (parts : List Tree) : Prop :=
  ∃ first rest, parts = first :: rest ∧ item first ∧ Links separator item rest

/-- Operands with operators between them, at least two. -/
def Chain (operator : Token → Bool) (level : Level) (parts : List Tree) : Prop :=
  Listed (isTokenOf operator) (bindsAt level) parts ∧ 1 < parts.length

/-- A predicate on an operand, negated or not. -/
def Predicate (tests : List (Tree → Bool)) (parts : List Tree) : Prop :=
  Row (bindsAt .sum :: tests) parts ∨ Row (bindsAt .sum :: isWordLeaf .NOT :: tests) parts

/-- Something in parentheses. -/
def Enclosed (Inner : List Tree → Prop) (parts : List Tree) : Prop :=
  ∃ left inner right, parts = left :: (inner ++ [right]) ∧
    isSymbolLeaf .leftParen left ∧ isSymbolLeaf .rightParen right ∧ Inner inner

/-- Expressions with commas between them. -/
def Expressions : List Tree → Prop := Listed (isSymbolLeaf .comma) (bindsAt .disjunction)

/-- The arguments of a call: nothing, a star or expressions, perhaps after `DISTINCT`. -/
def Arguments (parts : List Tree) : Prop :=
  ∃ quantifier list, parts = quantifier ++ list ∧
    (quantifier = [] ∨ Row [isWordLeaf .DISTINCT] quantifier) ∧
    (list = [] ∨ Row [isStar] list ∨ Expressions list)

/-- Names with dots between them. -/
def Dotted : List Tree → Prop := Listed (isSymbolLeaf .dot) (isTokenOf Token.isName)

end Tree

open SqlFront.Tree

/-- What may stand under a production of the expression grammar, and in an item of a select list.
Nothing is said of other productions. -/
def Rule.Allows (rule : Rule) (parts : List Tree) : Prop :=
  match rule with
  | .orExpr => Chain (isKeyword .OR) .conjunction parts
  | .andExpr => Chain (isKeyword .AND) .negation parts
  | .notExpr => Row [isWordLeaf .NOT, bindsAt .negation] parts
  | .bitwiseExpr => Chain isBitwiseSign .comparison parts
  | .comparisonExpr => Row [bindsAt .sum, isTokenOf isComparisonSign, bindsAt .sum] parts
  | .isNullExpr =>
      Row [bindsAt .sum, isWordLeaf .IS, isWordLeaf .NULL] parts ∨
        Row [bindsAt .sum, isWordLeaf .IS, isWordLeaf .NOT, isWordLeaf .NULL] parts
  | .inExpr =>
      Predicate [isWordLeaf .IN, either (hasRule .subquery) (hasRule .expressionList)] parts
  | .likeExpr =>
      Predicate [isWordLeaf .LIKE, bindsAt .sum] parts ∨
        Predicate [isWordLeaf .LIKE, bindsAt .sum, isWordLeaf .ESCAPE, bindsAt .sum] parts
  | .betweenExpr =>
      Predicate [isWordLeaf .BETWEEN, bindsAt .sum, isWordLeaf .AND, bindsAt .sum] parts
  | .additiveExpr => Chain isSign .product parts
  | .multiplicativeExpr => Chain isProductSign .sign parts
  | .unaryExpr => Row [isTokenOf isSign, bindsAt .sign] parts
  | .parenExpr =>
      Row [isSymbolLeaf .leftParen, bindsAt .disjunction, isSymbolLeaf .rightParen] parts
  | .functionCall =>
      Row [isTokenOf (isWordOf bareFunctions)] parts ∨
        ∃ name arguments, parts = name :: arguments ∧ isTokenOf isPlainName name ∧
          Enclosed Arguments arguments
  | .literal => Row [isTokenOf isLiteral] parts
  | .placeholder => Row [isTokenOf isPlaceholder] parts
  | .columnName => Dotted parts
  | .allColumns =>
      Row [isSymbolLeaf .star] parts ∨
        ∃ names last, parts = names ++ last ∧ Dotted names ∧
          Row [isSymbolLeaf .dot, isSymbolLeaf .star] last
  | .subquery =>
      Row [isSymbolLeaf .leftParen, hasRule .selectStatement, isSymbolLeaf .rightParen] parts
  | .expressionList => Enclosed Expressions parts
  | .selectItem =>
      Row [isStar] parts ∨ Row [bindsAt .disjunction] parts ∨
        Row [bindsAt .disjunction, hasRule .aliasClause] parts
  | _ => True

namespace Tree

/-- Every node spans its parts, and these are allowed under its production. -/
inductive IsDerivation : Tree → Prop where
  | leaf {lexeme : Lexeme} : IsDerivation (.leaf lexeme)
  | node {rule : Rule} {span : Span} {children : List Tree} :
      span = cover children → rule.Allows children → (∀ child ∈ children, child.IsDerivation) →
      IsDerivation (.node rule span children)

/-- No query in parentheses is an operand anywhere in the tree. -/
def SubqueryFree (tree : Tree) : Prop :=
  ∀ inner : Tree, inner.Inside tree → inner.hasRule .subquery = false

theorem subqueryFree_leaf (lexeme : Lexeme) : (leaf lexeme).SubqueryFree := by
  intro inner hinside
  cases hinside
  rfl

theorem subqueryFree_node {rule : Rule} {span : Span} {children : List Tree} :
    (node rule span children).SubqueryFree ↔
      rule ≠ .subquery ∧ ∀ child ∈ children, child.SubqueryFree := by
  constructor
  · intro h
    constructor
    · rintro rfl
      exact absurd (h _ .self) (by simp [hasRule, rule?])
    · intro child hmem inner hinside
      exact h inner (.part hmem hinside)
  · rintro ⟨hrule, hchildren⟩ inner hinside
    cases hinside with
    | self => simpa [hasRule, rule?] using hrule
    | part hmem hinside => exact hchildren _ hmem inner hinside

mutual

/-- The levels of nesting that a tree opens: one for each of `NOT`, a sign, parentheses, arguments,
a list of values and a query in parentheses, and one for each operator of a sum or a product. -/
def nesting : Tree → Nat
  | leaf _ => 0
  | node rule _ children =>
      match rule with
      | .additiveExpr | .multiplicativeExpr => nestingOfChain children
      | .notExpr | .unaryExpr | .parenExpr | .expressionList | .subquery => nestingOf children + 1
      | .functionCall =>
          if hasToken (.symbol .leftParen) children then nestingOf children + 1
          else nestingOf children
      | _ => nestingOf children

/-- The levels that some trees open beside each other. -/
def nestingOf : List Tree → Nat
  | [] => 0
  | tree :: trees => max (nesting tree) (nestingOf trees)

/-- The levels that a chain opens, where each operator has what follows it below it. -/
def nestingOfChain : List Tree → Nat
  | [] => 0
  | tree :: trees =>
      if tree.isLeaf then nestingOfChain trees + 1 else max (nesting tree) (nestingOfChain trees)

end

/-- Trees beside each other open what the deepest of them opens. -/
theorem nestingOf_le {levels : Nat} {trees : List Tree} :
    nestingOf trees ≤ levels ↔ ∀ tree ∈ trees, tree.nesting ≤ levels := by
  induction trees with
  | nil => simp [nestingOf]
  | cons tree trees ih =>
    rw [nestingOf, Nat.max_le, ih]
    simp

end Tree

end SqlFront
