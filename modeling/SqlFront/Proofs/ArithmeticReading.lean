import SqlFront.Proofs.DeepestArithmetic
import SqlFront.Proofs.NumberLiterals

/-!
The meaning of arithmetic.

`Tree.Reads` gives a parse tree the number that its tokens have by convention: the last operator of
a chain applies to all that stands before it, a sign applies to its operand, and a column is the one
that its names stand for. What is built takes other ways. A chain is consumed from the left while
its value grows, and a minus sign is either read with the number behind it, whose magnitude may be
too large for it without the sign, or becomes a subtraction from zero. Both come to the same number,
or both to none, since some divisor is zero.
-/

namespace SqlFront

open Build

/-! ### Numbers -/

namespace ArithmeticOp

/-- What an operator makes of two numbers. There is no division by zero. -/
def result? : ArithmeticOp → ℚ → ℚ → Option ℚ
  | add, x, y => some (x + y)
  | subtract, x, y => some (x - y)
  | multiply, x, y => some (x * y)
  | divide, x, y => if y = 0 then none else some (x / y)

/-- What an operator makes of two operands, where both have a number. -/
def combine (op : ArithmeticOp) (left right : Option ℚ) : Option ℚ :=
  left.bind fun x => right.bind fun y => op.result? x y

/-- The opposite of a number is what is left when it is taken from zero. -/
theorem combine_zero_subtract (x : Option ℚ) : subtract.combine (some 0) x = x.map (- ·) := by
  cases x <;> simp [combine, result?]

end ArithmeticOp

/-- The arithmetic that a sign between two operands stands for. -/
def Symbol.arithmetic? : Symbol → Option ArithmeticOp
  | plus => some .add
  | minus => some .subtract
  | star => some .multiply
  | slash => some .divide
  | _ => none

/-- The number that a constant is. -/
def Constant.number? : Constant → Option ℚ
  | int n => some n
  | decimal d => some d.value
  | _ => none

/-- The number that an expression comes to, with a number for each column. -/
def Expr.number? (columns : ColumnRef → ℚ) : Expr → Option ℚ
  | column _ c => some (columns c)
  | constant _ value => value.number?
  | arithmetic _ op l r => op.combine (l.number? columns) (r.number? columns)
  | _ => none

@[simp]
theorem Expr.number?_withAlias (columns : ColumnRef → ℚ) (a : Option String) (e : Expr) :
    (e.withAlias a).number? columns = e.number? columns := by
  cases e <;> simp [withAlias, number?]

/-- A number that is taken, with its sign or without one, is the one that is written. -/
theorem Constant.number?_of_number {reader : Decimal.Reader} (lawful : reader.Lawful)
    {number : WrittenNumber} {negative : Bool} {value : Constant}
    (h : Literal.numberBy reader negative (String.ofList number.text) = .ok value) :
    value.number? = some (number.signedValue negative) := by
  rcases Literal.numberBy_eq_ok number negative lawful h with
    ⟨n, rfl⟩ | ⟨d, rfl, same⟩
  · obtain ⟨-, -, same⟩ := (Literal.numberBy_eq_int number negative).mp h
    exact congrArg some same
  · exact congrArg some same

/-! ### Columns -/

/-- The column that names stand for by convention. The last name is its own and the one before it
that of its table. In front of the table stand its database and its schema; one of them alone is the
database in MySQL, and the schema elsewhere. -/
inductive Dialect.NamesColumn (dialect : Dialect) : List String → ColumnRef → Prop where
  | plain (name : String) : NamesColumn dialect [name] ⟨none, name, none⟩
  | ofTable (table name : String) :
      NamesColumn dialect [table, name] ⟨some ⟨none, none, table, none⟩, name, none⟩
  | ofDatabase (database table name : String) : dialect = .mysql →
      NamesColumn dialect [database, table, name]
        ⟨some ⟨some database, none, table, none⟩, name, none⟩
  | ofSchema (schema table name : String) : dialect ≠ .mysql →
      NamesColumn dialect [schema, table, name]
        ⟨some ⟨none, some schema, table, none⟩, name, none⟩
  | whole (database schema table name : String) :
      NamesColumn dialect [database, schema, table, name]
        ⟨some ⟨some database, some schema, table, none⟩, name, none⟩

/-- The tokens are these names, in quotes or without them, with a dot between each name and the
next. -/
inductive Tree.SpellsNames : List Tree → List String → Prop where
  | last {lexeme : Lexeme} {name : String} :
      lexeme.token = .name name ∨ lexeme.token = .quotedName name →
      SpellsNames [.leaf lexeme] [name]
  | qualifier {lexeme dot : Lexeme} {name : String} {children : List Tree} {names : List String} :
      lexeme.token = .name name ∨ lexeme.token = .quotedName name → dot.token = .symbol .dot →
      SpellsNames children names →
      SpellsNames (.leaf lexeme :: .leaf dot :: children) (name :: names)

theorem Token.name?_of_spelled {token : Token} {name : String}
    (h : token = .name name ∨ token = .quotedName name) : token.name? = some name := by
  obtain rfl | rfl := h <;> rfl

/-- The names of a column are found between its dots. -/
theorem Tree.SpellsNames.names_eq {children : List Tree} {names : List String}
    (h : SpellsNames children names) : Tree.names children = names := by
  induction h with
  | last hname => simp [Tree.names, leaves, Token.name?_of_spelled hname]
  | qualifier hname hdot _ ih =>
    have nameless : (Token.symbol .dot).name? = none := rfl
    simp only [Tree.names, leaves] at ih ⊢
    simp only [List.filterMap_cons, Token.name?_of_spelled hname, hdot, nameless, ih]

theorem Token.spelled_of_isName {token : Token} (h : token.isName) :
    ∃ name, token = .name name ∨ token = .quotedName name := by
  cases token with
  | name text | quotedName text => exact ⟨text, by simp⟩
  | _ => cases h

/-- Every column that the grammar derives spells names. -/
theorem Tree.exists_spellsNames {children : List Tree} (h : Rule.columnName.Allows children) :
    ∃ names, SpellsNames children names := by
  obtain ⟨first, rest, rfl, hfirst, hrest⟩ := h
  obtain ⟨lexeme, rfl, hlexeme⟩ := eq_leaf_of_isTokenOf hfirst
  obtain ⟨name, hname⟩ := Token.spelled_of_isName hlexeme
  induction hrest generalizing lexeme name with
  | nil => exact ⟨[name], .last hname⟩
  | cons hdot hnext _ ih =>
    obtain ⟨dot, rfl, hdot⟩ := eq_leaf_of_isTokenOf hdot
    obtain ⟨next, rfl, hlexeme'⟩ := eq_leaf_of_isTokenOf hnext
    obtain ⟨name', hname'⟩ := Token.spelled_of_isName hlexeme'
    obtain ⟨names, hnames⟩ := ih next hnext hlexeme' name' hname'
    exact ⟨name :: names, .qualifier hname (beq_iff_eq.mp hdot) hnames⟩

/-- What is built for the tokens of a column is the column that its names stand for. -/
theorem ColumnRef.ofTree_eq_ok_iff {dialect : Dialect} {rule : Rule} {span : Span}
    {children : List Tree} {names : List String} {column : ColumnRef}
    (h : Tree.SpellsNames children names) :
    ofTree dialect (.node rule span children) = .ok column ↔ dialect.NamesColumn names column := by
  simp only [ofTree, Tree.lastName, Tree.children, h.names_eq]
  constructor
  · intro built
    obtain ⟨name, last, built⟩ := bind_eq_ok.mp built
    rw [require_eq_ok] at last
    obtain _ | ⟨first, _ | ⟨second, _ | ⟨third, _ | ⟨fourth, _ | _⟩⟩⟩⟩ := names
    · cases last
    · cases last
      cases built
      exact .plain _
    · cases last
      cases built
      exact .ofTable first _
    · cases last
      by_cases mysql : dialect = .mysql
      · subst mysql
        cases built
        exact .ofDatabase first second _ rfl
      · simp [TableRef.ofParts, mysql] at built
        cases built
        exact .ofSchema first second _ mysql
    · cases last
      cases built
      exact .whole first second third _
    · obtain ⟨_, refused, -⟩ := bind_eq_ok.mp built
      exact absurd refused reject_ne_ok
  · rintro (_ | _ | ⟨_, _, _, rfl⟩ | ⟨_, _, _, mysql⟩ | _)
    · rfl
    · rfl
    · rfl
    · simp [TableRef.ofParts, mysql, TableRef.ofName, ofName, Built.require]
    · rfl

/-! ### Trees of arithmetic -/

/-- The productions of chains of arithmetic. -/
def Rule.isArithmeticChain : Rule → Bool
  | additiveExpr | multiplicativeExpr => true
  | _ => false

theorem Rule.isExpression_of_isArithmeticChain {rule : Rule} (h : rule.isArithmeticChain) :
    rule.isExpression := by
  cases rule with
  | additiveExpr | multiplicativeExpr => rfl
  | _ => cases h

namespace Tree

/-- The tree is made of chains of arithmetic, signs, parentheses, numbers and columns. -/
inductive IsArithmetic : Tree → Prop where
  | number {span : Span} {lexeme : Lexeme} (number : WrittenNumber) :
      lexeme.token = .number (String.ofList number.text) →
      IsArithmetic (.node .literal span [.leaf lexeme])
  | column {span : Span} {children : List Tree} {names : List String} :
      SpellsNames children names → IsArithmetic (.node .columnName span children)
  | paren {span : Span} {opening closing : Lexeme} {inner : Tree} : IsArithmetic inner →
      IsArithmetic (.node .parenExpr span [.leaf opening, inner, .leaf closing])
  | sign {span : Span} {lexeme : Lexeme} {operand : Tree} : Grammar.isSign lexeme.token →
      IsArithmetic operand → IsArithmetic (.node .unaryExpr span [.leaf lexeme, operand])
  | first {rule : Rule} {span : Span} {operand : Tree} : rule.isArithmeticChain →
      IsArithmetic operand → IsArithmetic (.node rule span [operand])
  | chain {rule : Rule} {span : Span} (before : List Tree) {lexeme : Lexeme} {operand : Tree} :
      rule.isArithmeticChain → IsArithmetic (.node rule span before) → IsArithmetic operand →
      IsArithmetic (.node rule span (before ++ [.leaf lexeme, operand]))

/-- The number of a tree by convention, with a number for each column. A divisor that is zero leaves
the tree without a number. -/
inductive Reads (dialect : Dialect) (columns : ColumnRef → ℚ) : Tree → Option ℚ → Prop where
  | number {span : Span} {lexeme : Lexeme} (number : WrittenNumber) :
      lexeme.token = .number (String.ofList number.text) →
      Reads dialect columns (.node .literal span [.leaf lexeme]) (some number.value)
  | column {span : Span} {children : List Tree} {names : List String} {column : ColumnRef} :
      SpellsNames children names → dialect.NamesColumn names column →
      Reads dialect columns (.node .columnName span children) (some (columns column))
  | paren {span : Span} {opening closing : Lexeme} {inner : Tree} {x : Option ℚ} :
      Reads dialect columns inner x →
      Reads dialect columns (.node .parenExpr span [.leaf opening, inner, .leaf closing]) x
  | plus {span : Span} {lexeme : Lexeme} {operand : Tree} {x : Option ℚ} :
      lexeme.token = .symbol .plus → Reads dialect columns operand x →
      Reads dialect columns (.node .unaryExpr span [.leaf lexeme, operand]) x
  | minus {span : Span} {lexeme : Lexeme} {operand : Tree} {x : Option ℚ} :
      lexeme.token = .symbol .minus → Reads dialect columns operand x →
      Reads dialect columns (.node .unaryExpr span [.leaf lexeme, operand]) (x.map (- ·))
  | first {rule : Rule} {span : Span} {operand : Tree} {x : Option ℚ} : rule.isArithmeticChain →
      Reads dialect columns operand x → Reads dialect columns (.node rule span [operand]) x
  /-- The operators of a chain associate to the left. -/
  | chain {rule : Rule} {span : Span} (before : List Tree) {lexeme : Lexeme} (sign : Symbol)
      {op : ArithmeticOp} {operand : Tree} {x y : Option ℚ} : rule.isArithmeticChain →
      Reads dialect columns (.node rule span before) x → lexeme.token = .symbol sign →
      sign.arithmetic? = some op → Reads dialect columns operand y →
      Reads dialect columns (.node rule span (before ++ [.leaf lexeme, operand])) (op.combine x y)

variable {tree : Tree} {dialect : Dialect} {columns : ColumnRef → ℚ} {x : Option ℚ}

theorem IsArithmetic.isExpression (h : tree.IsArithmetic) : tree.isExpression := by
  cases h with
  | first hchain => exact Rule.isExpression_of_isArithmeticChain hchain
  | chain before hchain => exact Rule.isExpression_of_isArithmeticChain hchain
  | _ => rfl

theorem Reads.isExpression (h : tree.Reads dialect columns x) : tree.isExpression := by
  cases h with
  | first hchain => exact Rule.isExpression_of_isArithmeticChain hchain
  | chain before sign hchain => exact Rule.isExpression_of_isArithmeticChain hchain
  | _ => rfl

/-- A chain has a first operand. -/
theorem IsArithmetic.ne_nil {rule : Rule} {span : Span} {children : List Tree}
    (h : (node rule span children).IsArithmetic) (hchain : rule.isArithmeticChain) :
    children ≠ [] := by
  cases h with
  | column => cases hchain
  | _ => simp

theorem Reads.ne_nil {rule : Rule} {span : Span} {children : List Tree}
    (h : (node rule span children).Reads dialect columns x) (hchain : rule.isArithmeticChain) :
    children ≠ [] := by
  cases h with
  | column => cases hchain
  | _ => simp

theorem numberText?_of_isArithmeticChain {rule : Rule} {span : Span} {children : List Tree}
    (h : rule.isArithmeticChain) : Node.numberText? (node rule span children) = none := by
  cases rule with
  | additiveExpr | multiplicativeExpr => rfl
  | _ => cases h

theorem numberText?_eq_some {span : Span} {lexeme : Lexeme} {text : String} :
    Node.numberText? (node .literal span [leaf lexeme]) = some text ↔
      lexeme.token = .number text := by
  obtain ⟨token, place⟩ := lexeme
  cases token <;> simp [Node.numberText?]

/-- A number among trees of arithmetic is one that is written. -/
theorem IsArithmetic.exists_writtenNumber {text : String} (h : tree.IsArithmetic)
    (htext : Node.numberText? tree = some text) :
    ∃ number : WrittenNumber, text = String.ofList number.text ∧
      tree.Reads dialect columns (some number.value) := by
  cases h with
  | number number htoken =>
    rw [numberText?_eq_some, htoken, Token.number.injEq] at htext
    exact ⟨number, htext.symm, .number number htoken⟩
  | first hchain | chain _ hchain =>
    rw [numberText?_of_isArithmeticChain hchain] at htext
    cases htext
  | _ => cases htext

theorem Reads.exists_writtenNumber {text : String} (h : tree.Reads dialect columns x)
    (htext : Node.numberText? tree = some text) :
    ∃ number : WrittenNumber, text = String.ofList number.text ∧ x = some number.value := by
  cases h with
  | number number htoken =>
    rw [numberText?_eq_some, htoken, Token.number.injEq] at htext
    exact ⟨number, htext.symm, rfl⟩
  | first hchain | chain _ _ hchain =>
    rw [numberText?_of_isArithmeticChain hchain] at htext
    cases htext
  | _ => cases htext

end Tree

/-! ### What is built -/

namespace Build.Context

variable (context : Context) {rule : Rule} {span : Span} {children : List Tree} {e : Expr}
  {columns : ColumnRef → ℚ}

theorem number?_of_literal (lawful : context.decimals.Lawful) {lexeme : Lexeme}
    {number : WrittenNumber} (htoken : lexeme.token = .number (String.ofList number.text))
    (h : context.expression (.node .literal span [.leaf lexeme]) = .ok e) :
    e.number? columns = some number.value := by
  obtain ⟨inner, a, hbare, rfl⟩ := context.bare_of_expression h
  obtain ⟨value, hvalue, hinner⟩ := bind_eq_ok.mp hbare
  obtain rfl := pure_eq_ok.mp hinner
  rw [Node.headToken?, nodeOf_trees] at hvalue
  simp only [List.head?_cons, Option.bind_some, Tree.token?, htoken, literal] at hvalue
  rw [Expr.number?_withAlias]
  exact Constant.number?_of_number lawful (mapError_eq_ok.mp hvalue)

theorem number?_of_columnName
    (h : context.expression (.node .columnName span children) = .ok e) :
    ∃ column, ColumnRef.ofTree context.config.dialect (.node .columnName span children) =
      .ok column ∧ e.number? columns = some (columns column) := by
  obtain ⟨inner, a, hbare, rfl⟩ := context.bare_of_expression h
  obtain ⟨column, hcolumn, hinner⟩ := bind_eq_ok.mp hbare
  obtain rfl := pure_eq_ok.mp hinner
  rw [nodeOf_trees] at hcolumn
  exact ⟨column, hcolumn, Expr.number?_withAlias columns a _⟩

/-- The only operand among tokens. -/
theorem eq_part_of_single (tree : Tree) {part : Part}
    (hsingle : children.filter Tree.isExpression = [tree])
    (h : (context.nodeOf rule span children).operand 0 = .ok part) : part = context.part tree := by
  rw [Node.operand, nodeOf_operands, hsingle, require_eq_ok] at h
  exact (Option.some.inj h).symm

theorem number?_of_parenExpr {opening closing : Lexeme} {tree : Tree} (htree : tree.isExpression)
    (h : context.expression (.node .parenExpr span [.leaf opening, tree, .leaf closing]) = .ok e) :
    ∃ inner, context.expression tree = .ok inner ∧ e.number? columns = inner.number? columns := by
  obtain ⟨inner, a, hbare, rfl⟩ := context.bare_of_expression h
  obtain ⟨part, hpart, hinner⟩ := bind_eq_ok.mp hbare
  obtain rfl := context.eq_part_of_single tree (by simp [htree]) hpart
  exact ⟨inner, hinner, Expr.number?_withAlias columns a inner⟩

section

variable {lexeme : Lexeme} {tree : Tree} (htree : tree.isExpression)
include htree

/-- A sign before an operand is a minus sign if its token is. -/
theorem hasToken_minus :
    Tree.hasToken (.symbol .minus) [.leaf lexeme, tree] = (lexeme.token == .symbol .minus) := by
  cases tree with
  | leaf => cases htree
  | node => simp [Tree.hasToken, Tree.leaves]

/-- A plus sign is left out. -/
theorem number?_of_plus (hplus : lexeme.token = .symbol .plus)
    (h : context.expression (.node .unaryExpr span [.leaf lexeme, tree]) = .ok e) :
    ∃ operand, context.expression tree = .ok operand ∧
      e.number? columns = operand.number? columns := by
  obtain ⟨inner, a, hbare, rfl⟩ := context.bare_of_expression h
  obtain ⟨part, hpart, hinner⟩ := bind_eq_ok.mp hbare
  obtain rfl := context.eq_part_of_single tree (by simp [htree]) hpart
  rw [nodeOf_trees, hasToken_minus htree, hplus] at hinner
  exact ⟨inner, context.built_of_value hinner, Expr.number?_withAlias columns a inner⟩

/-- A minus sign is read with the number behind it, or subtracts the operand from zero. -/
theorem number?_of_minus (hminus : lexeme.token = .symbol .minus)
    (h : context.expression (.node .unaryExpr span [.leaf lexeme, tree]) = .ok e) :
    (∃ text value, Node.numberText? tree = some text ∧
      Literal.numberBy context.decimals true text = .ok value ∧
      e.number? columns = value.number?) ∨
    (Node.numberText? tree = none ∧ ∃ operand, context.expression tree = .ok operand ∧
      e.number? columns = (operand.number? columns).map (- ·)) := by
  obtain ⟨inner, a, hbare, rfl⟩ := context.bare_of_expression h
  obtain ⟨part, hpart, hinner⟩ := bind_eq_ok.mp hbare
  obtain rfl := context.eq_part_of_single tree (by simp [htree]) hpart
  rw [nodeOf_trees, hasToken_minus htree, hminus] at hinner
  simp only [Expr.number?_withAlias]
  split at hinner
  · rename_i text _ htext
    obtain ⟨value, hvalue, hinner⟩ := bind_eq_ok.mp hinner
    obtain rfl := pure_eq_ok.mp hinner
    exact .inl ⟨text, value, htext, mapError_eq_ok.mp hvalue, rfl⟩
  · rename_i _ htext
    obtain ⟨operand, hoperand, hinner⟩ := bind_eq_ok.mp hinner
    obtain rfl := pure_eq_ok.mp hinner
    refine .inr ⟨htext, operand, context.built_of_value hoperand, ?_⟩
    rw [← ArithmeticOp.combine_zero_subtract]
    simp [Expr.number?, Constant.number?]
  · simp at *

end

/-- The last operator of a chain applies to what is built from all that stands before it. -/
theorem arithmeticFrom_append {node : Node} {start : Span} {first : Expr} {parts : List Part}
    {operator operand : Part}
    (h : node.arithmeticFrom context start first (parts ++ [operator, operand]) = .ok e) :
    ∃ left right op a, node.arithmeticFrom context start first parts = .ok left ∧
      context.value operand = .ok right ∧ node.arithmeticOf operator.tree.token? = .ok op ∧
      e = .arithmetic a op left right := by
  fun_induction Node.arithmeticFrom context node start first parts with
  | case1 first =>
    simp only [List.nil_append, Node.arithmeticFrom, bind_eq_ok, Except.ok.injEq] at h
    obtain ⟨right, hright, op, hop, rfl⟩ := h
    exact ⟨first, right, op, _, rfl, hright, hop, rfl⟩
  | case2 first odd =>
    simp only [List.cons_append, List.nil_append, Node.arithmeticFrom, bind_eq_ok] at h
    obtain ⟨_, _, _, _, h⟩ := h
    exact absurd h reject_ne_ok
  | case3 first sign next parts ih =>
    simp only [List.cons_append, Node.arithmeticFrom, bind_eq_ok] at h
    obtain ⟨right, hright, op, hop, h⟩ := h
    obtain ⟨left, last, op', a, hleft, hlast, hop', rfl⟩ := ih right op h
    refine ⟨left, last, op', a, ?_, hlast, hop', rfl⟩
    simp only [bind_eq_ok]
    exact ⟨right, hright, op, hop, hleft⟩

/-- What the rest of a chain builds depends on the production of the chain alone. -/
theorem arithmeticFrom_congr {node node' : Node} (hrule : node.rule = node'.rule) (start : Span)
    (first : Expr) (parts : List Part) :
    node.arithmeticFrom context start first parts =
      node'.arithmeticFrom context start first parts := by
  have hmalformed : node.malformed = node'.malformed := by
    rw [Node.malformed, hrule, Node.malformed]
  have hop (token : Option Token) : node.arithmeticOf token = node'.arithmeticOf token := by
    unfold Node.arithmeticOf
    rw [hmalformed]
  fun_induction Node.arithmeticFrom context node start first parts with
  | case1 first => rfl
  | case2 first odd => rw [Node.arithmeticFrom, hmalformed]
  | case3 first sign next parts ih => simp only [Node.arithmeticFrom, ih, hop]

theorem symbol_of_arithmeticOf {node : Node} {token : Option Token} {op : ArithmeticOp}
    (h : node.arithmeticOf token = .ok op) :
    ∃ sign, token = some (.symbol sign) ∧ sign.arithmetic? = some op := by
  unfold Node.arithmeticOf at h
  split at h
  case h_5 => exact absurd h refuse_ne_ok
  case h_6 => exact absurd h reject_ne_ok
  all_goals
    cases h
    exact ⟨_, rfl, rfl⟩

theorem symbol_of_isSign {token : Token} (h : Grammar.isSign token) :
    token = .symbol .plus ∨ token = .symbol .minus := by
  unfold Grammar.isSign at h
  split at h <;> simp_all

theorem bare_of_chain {node : Node} (hrule : node.rule.isArithmeticChain) :
    node.bare context = node.arithmetic context := by
  unfold Node.bare
  cases hnode : node.rule with
  | additiveExpr | multiplicativeExpr => rfl
  | _ => rw [hnode] at hrule; cases hrule

/-- A chain of one operand is that operand. -/
theorem number?_of_first {tree : Tree} (hrule : rule.isArithmeticChain)
    (h : context.expression (.node rule span [tree]) = .ok e) :
    ∃ operand, context.expression tree = .ok operand ∧
      e.number? columns = operand.number? columns := by
  obtain ⟨inner, a, hbare, rfl⟩ := context.bare_of_expression h
  rw [context.bare_of_chain hrule] at hbare
  simp only [Node.arithmetic, nodeOf, parts_eq_map, List.map_cons, List.map_nil,
    Node.arithmeticFrom, bind_eq_ok, Except.ok.injEq] at hbare
  obtain ⟨operand, hoperand, rfl⟩ := hbare
  exact ⟨operand, context.built_of_value hoperand, Expr.number?_withAlias columns a operand⟩

/-- The last operator of a chain applies to what the chain before it builds. -/
theorem number?_of_chain {lexeme : Lexeme} {tree : Tree} (hrule : rule.isArithmeticChain)
    (hne : children ≠ [])
    (h : context.expression (.node rule span (children ++ [.leaf lexeme, tree])) = .ok e) :
    ∃ left right sign op, context.expression (.node rule span children) = .ok left ∧
      context.expression tree = .ok right ∧ lexeme.token = .symbol sign ∧
      sign.arithmetic? = some op ∧
      e.number? columns = op.combine (left.number? columns) (right.number? columns) := by
  obtain ⟨inner, a, hbare, rfl⟩ := context.bare_of_expression h
  obtain ⟨first, rest, rfl⟩ := List.exists_cons_of_ne_nil hne
  rw [context.bare_of_chain hrule] at hbare
  simp only [Node.arithmetic, nodeOf, parts_eq_map, List.cons_append, List.map_cons,
    List.map_append, List.map_nil, bind_eq_ok] at hbare
  obtain ⟨start, hstart, hbare⟩ := hbare
  obtain ⟨left, right, op, b, hleft, hright, hop, rfl⟩ := context.arithmeticFrom_append hbare
  obtain ⟨sign, htoken, hsign⟩ := symbol_of_arithmeticOf hop
  have hbefore : (context.nodeOf rule span (first :: rest)).bare context = .ok left := by
    rw [context.bare_of_chain hrule]
    simp only [Node.arithmetic, nodeOf, parts_eq_map, List.map_cons, bind_eq_ok]
    refine ⟨start, hstart, ?_⟩
    rw [← hleft]
    refine context.arithmeticFrom_congr ?_ _ _ _
    rfl
  have hchain := context.expression_of_bare (Rule.isExpression_of_isArithmeticChain hrule) hbefore
  refine ⟨_, right, sign, op, hchain, context.built_of_value hright, Option.some.inj htoken, hsign,
    ?_⟩
  simp [Expr.number?]

/-! ### The same number -/

section

variable (lawful : context.decimals.Lawful)
include lawful

/-- A tree of arithmetic that is built can be read, as the number that the expression comes to. -/
theorem reads_of_expression {tree : Tree} (h : tree.IsArithmetic)
    (hbuilt : context.expression tree = .ok e) :
    tree.Reads context.config.dialect columns (e.number? columns) := by
  induction h generalizing e with
  | number number htoken =>
    rw [context.number?_of_literal lawful htoken hbuilt]
    exact .number number htoken
  | column hnames =>
    obtain ⟨column, hcolumn, hnumber⟩ := context.number?_of_columnName hbuilt
    rw [hnumber]
    exact .column hnames ((ColumnRef.ofTree_eq_ok_iff hnames).mp hcolumn)
  | paren hinner ih =>
    obtain ⟨inner, hinner, hnumber⟩ := context.number?_of_parenExpr hinner.isExpression hbuilt
    rw [hnumber]
    exact .paren (ih hinner)
  | @sign span lexeme operand hsign hoperand ih =>
    rcases symbol_of_isSign hsign with hplus | hminus
    · obtain ⟨inner, hinner, hnumber⟩ :=
        context.number?_of_plus hoperand.isExpression hplus hbuilt
      rw [hnumber]
      exact .plus hplus (ih hinner)
    · rcases context.number?_of_minus hoperand.isExpression hminus hbuilt with
        ⟨text, value, htext, hvalue, hnumber⟩ | ⟨-, inner, hinner, hnumber⟩
      · obtain ⟨number, rfl, hreads⟩ := hoperand.exists_writtenNumber htext
        rw [hnumber, Constant.number?_of_number lawful hvalue]
        exact .minus hminus hreads
      · rw [hnumber]
        exact .minus hminus (ih hinner)
  | first hrule _ ih =>
    obtain ⟨operand, hoperand, hnumber⟩ := context.number?_of_first hrule hbuilt
    rw [hnumber]
    exact .first hrule (ih hoperand)
  | chain before hrule hbefore _ ihbefore ih =>
    obtain ⟨left, right, sign, op, hleft, hright, htoken, hop, hnumber⟩ :=
      context.number?_of_chain hrule (hbefore.ne_nil hrule) hbuilt
    rw [hnumber]
    exact .chain before sign hrule (ihbefore hleft) htoken hop (ih hright)

/-- However a tree that is built is read, its number is what the expression comes to. -/
theorem number?_of_reads {tree : Tree} {x : Option ℚ}
    (h : tree.Reads context.config.dialect columns x) (hbuilt : context.expression tree = .ok e) :
    e.number? columns = x := by
  induction h generalizing e with
  | number number htoken => exact context.number?_of_literal lawful htoken hbuilt
  | column hnames hcolumn =>
    obtain ⟨column, hfound, hnumber⟩ := context.number?_of_columnName hbuilt
    rw [(ColumnRef.ofTree_eq_ok_iff hnames).mpr hcolumn, Except.ok.injEq] at hfound
    rw [hnumber, hfound]
  | paren hinner ih =>
    obtain ⟨inner, hinner, hnumber⟩ := context.number?_of_parenExpr hinner.isExpression hbuilt
    rw [hnumber, ih hinner]
  | plus hplus hoperand ih =>
    obtain ⟨inner, hinner, hnumber⟩ := context.number?_of_plus hoperand.isExpression hplus hbuilt
    rw [hnumber, ih hinner]
  | minus hminus hoperand ih =>
    rcases context.number?_of_minus hoperand.isExpression hminus hbuilt with
      ⟨text, value, htext, hvalue, hnumber⟩ | ⟨-, inner, hinner, hnumber⟩
    · obtain ⟨number, rfl, rfl⟩ := hoperand.exists_writtenNumber htext
      rw [hnumber, Constant.number?_of_number lawful hvalue]
      rfl
    · rw [hnumber, ih hinner]
  | first hrule _ ih =>
    obtain ⟨operand, hoperand, hnumber⟩ := context.number?_of_first hrule hbuilt
    rw [hnumber, ih hoperand]
  | chain before sign hrule hbefore htoken hop _ ihbefore ih =>
    obtain ⟨left, right, found, op, hleft, hright, hfound, hop', hnumber⟩ :=
      context.number?_of_chain hrule (hbefore.ne_nil hrule) hbuilt
    rw [htoken, Token.symbol.injEq] at hfound
    rw [← hfound, hop, Option.some.injEq] at hop'
    rw [hnumber, ihbefore hleft, ih hright, hop']

/-- **Arithmetic is built with its conventional meaning.** Every tree of arithmetic that is built
has one conventional reading for all numbers of its columns, which is the number that the
expression comes to, or that there is none because something is divided by zero. This holds for
every way of reading decimals that keeps the promises of one. -/
theorem expression_means_reading {tree : Tree} (h : tree.IsArithmetic)
    (hbuilt : context.expression tree = .ok e) (columns : ColumnRef → ℚ) (x : Option ℚ) :
    tree.Reads context.config.dialect columns x ↔ e.number? columns = x := by
  constructor
  · exact fun hreads => context.number?_of_reads lawful hreads hbuilt
  · rintro rfl
    exact context.reads_of_expression lawful h hbuilt

end

/-- In `-9223372036854775808-x/2`, half of the column is taken from the least integer, which only
its sign makes an integer. -/
theorem expression_means_reading_of_least_integer :
    let digits := ['9', '2', '2', '3', '3', '7', '2', '0', '3', '6', '8', '5', '4', '7', '7', '5',
      '8', '0', '8']
    let source := '-' :: digits ++ ['-', 'x', '/', '2']
    let least := Tree.node .unaryExpr ⟨0, 20⟩ [.leaf ⟨.symbol .minus, ⟨0, 1⟩⟩,
      .node .literal ⟨1, 20⟩ [.leaf ⟨.number (String.ofList digits), ⟨1, 20⟩⟩]]
    let half := Tree.node .multiplicativeExpr ⟨21, 24⟩
      [.node .columnName ⟨21, 22⟩ [.leaf ⟨.name (String.ofList ['x']), ⟨21, 22⟩⟩],
        .leaf ⟨.symbol .slash, ⟨22, 23⟩⟩,
        .node .literal ⟨23, 24⟩ [.leaf ⟨.number (String.ofList ['2']), ⟨23, 24⟩⟩]]
    let tree := Tree.node .additiveExpr ⟨0, 24⟩ [least, .leaf ⟨.symbol .minus, ⟨20, 21⟩⟩, half]
    let config := Config.ofDialect .mysql
    config.expressionTree source = .ok tree ∧ tree.IsArithmetic ∧
      ∃ e, expression { config, source } tree = .ok e ∧ ∀ columns, e.number? columns =
        some (-9223372036854775808 - columns (ColumnRef.ofName "x") / 2) := by
  intro digits source least half tree config
  let whole : WrittenNumber := ⟨digits, none, none, Decimal.areDigits_of_all rfl, by simp [digits]⟩
  let two : WrittenNumber := ⟨['2'], none, none, Decimal.areDigits_of_all rfl, by simp⟩
  have x : Tree.SpellsNames [.leaf ⟨.name (String.ofList ['x']), ⟨21, 22⟩⟩] ["x"] :=
    .last (.inl rfl)
  have arithmetic : tree.IsArithmetic :=
    .chain [least] rfl (.first rfl (.sign rfl (.number whole rfl)))
      (.chain [_] rfl (.first rfl (.column x)) (.number two rfl))
  have quotient (columns : ColumnRef → ℚ) : half.Reads .mysql columns
      (ArithmeticOp.divide.combine (some (columns (ColumnRef.ofName "x"))) (some two.value)) :=
    .chain [_] .slash rfl (.first rfl (.column x (.plain _))) rfl rfl (.number two rfl)
  have difference (columns : ColumnRef → ℚ) : tree.Reads .mysql columns
      (ArithmeticOp.subtract.combine ((some whole.value).map (- ·))
        (ArithmeticOp.divide.combine (some (columns (ColumnRef.ofName "x"))) (some two.value))) :=
    .chain [least] .minus rfl (.first rfl (.minus rfl (.number whole rfl))) rfl rfl
      (quotient columns)
  have values : whole.value = 9223372036854775808 ∧ two.value = 2 := by
    rw [whole.value_of_areDigits (Decimal.areDigits_of_all rfl),
      two.value_of_areDigits (Decimal.areDigits_of_all rfl)]
    exact ⟨congrArg Nat.cast (rfl : Decimal.digitsValue 0 digits = 9223372036854775808),
      congrArg Nat.cast (rfl : Decimal.digitsValue 0 ['2'] = 2)⟩
  have accepted : (expression { config, source } tree).toBool = true := by decide +kernel
  refine ⟨by rfl, arithmetic, ?_⟩
  cases built : expression { config, source } tree with
  | error cause =>
    rw [built] at accepted
    cases accepted
  | ok e =>
    refine ⟨e, rfl, fun columns => ?_⟩
    rw [(expression_means_reading { config, source } Decimal.reader_lawful arithmetic built
      columns _).mp (difference columns), values.1, values.2]
    simp [ArithmeticOp.combine, ArithmeticOp.result?]

end Build.Context

end SqlFront
