import SqlFront.Grammar.Statement
import SqlFront.Proofs.Reading

/-!
The shape of parse trees: which parts stand under each production.

`Rule.Shape` says of a production what can be relied on where its node is taken apart. It asks for
the parts that are looked for later, by the same tests, and for at least one part in any case. How
a form comes to yield trees of these shapes is argued along the form: `Form.Sound` for any trees,
`Form.Makes` for a single one, `Form.Has` for some tree among others.
-/

namespace SqlFront

open Grammar

/-- The productions that stand for a statement. -/
def Rule.isStatement : Rule → Bool
  | selectStatement | insertStatement | updateStatement | deleteStatement | createTableStatement
  | alterTableStatement | dropTableStatement | createIndexStatement | useStatement
  | showTablesStatement | showColumnsStatement | exportKeysStatement | updateKeysStatement
  | encryptColumnStatement | decryptColumnStatement | rebuildOpetreeStatement
  | rebalanceOpetreeStatement | saveOpetreeStatement | loadOpetreeStatement | saveSchemaStatement
  | loadSchemaStatement | bypassStatement | licenseRefreshStatement | licenseSetKeyStatement
  | licenseStatusStatement => true
  | _ => false

namespace Tree

/-- The tree stands for a statement. -/
def isStatement (tree : Tree) : Bool := tree.rule?.any Rule.isStatement

/-- The tree passes one of two tests. -/
def either (first second : Tree → Bool) (tree : Tree) : Bool := first tree || second tree

theorem either_of_left {first : Tree → Bool} (second : Tree → Bool) (tree : Tree)
    (h : first tree) : either first second tree :=
  Bool.or_eq_true_iff.mpr (.inl h)

theorem either_of_right (first : Tree → Bool) {second : Tree → Bool} (tree : Tree)
    (h : second tree) : either first second tree :=
  Bool.or_eq_true_iff.mpr (.inr h)

theorem hasRule_iff {rule : Rule} {tree : Tree} : tree.hasRule rule ↔ tree.rule? = some rule :=
  beq_iff_eq

/-- The tree stands for the rows of a table. -/
def isTable : Tree → Bool := either (hasRule .tableName) (hasRule .derivedTable)

/-- The tree is a token that passes a test. -/
def isTokenOf (test : Token → Bool) (tree : Tree) : Bool := tree.token?.any test

@[simp]
theorem isTokenOf_leaf (test : Token → Bool) (lexeme : Lexeme) :
    (leaf lexeme).isTokenOf test = test lexeme.token := rfl

@[simp]
theorem isExpression_leaf (lexeme : Lexeme) : (leaf lexeme).isExpression = false := rfl

/-- An expression is no token. -/
theorem isTokenOf_of_isExpression {tree : Tree} (h : tree.isExpression) (test : Token → Bool) :
    tree.isTokenOf test = false := by
  cases tree with
  | leaf lexeme => cases h
  | node rule span children => rfl

/-- Operators, each with its operand after it. -/
inductive Operations (isOperator : Token → Bool) : List Tree → Prop where
  | nil : Operations isOperator []
  | cons {operator : Lexeme} {operand : Tree} {trees : List Tree} :
      isOperator operator.token → operand.isExpression → Operations isOperator trees →
      Operations isOperator (.leaf operator :: operand :: trees)

/-- An operand, and the operations on it. -/
def OperandChain (isOperator : Token → Bool) (parts : List Tree) : Prop :=
  ∃ first rest, parts = first :: rest ∧ first.isExpression ∧ Operations isOperator rest

/-- A single token that passes a test. -/
def IsToken (test : Token → Bool) (parts : List Tree) : Prop :=
  ∃ lexeme, parts = [.leaf lexeme] ∧ test lexeme.token

end Tree

open SqlFront.Tree

/-- The number or the placeholder of a row limit. -/
def isRowCount (token : Token) : Bool := isNumber token || isPlaceholder token

/-- What stands under a production. A batch is never under another production, so nothing stands
under it here. -/
def Rule.Shape (rule : Rule) (parts : List Tree) : Prop :=
  match rule with
  | .batch => False
  | .selectStatement => parts.any (hasRule .selectList)
  | .bypassStatement => ∃ word inner, parts = [.leaf word, inner] ∧ inner.isStatement
  | .insertStatement =>
      parts.any (hasRule .tableName) ∧
        parts.any (either (hasRule .selectStatement) (hasRule .valuesClause))
  | .updateStatement | .deleteStatement | .dropTableStatement | .showColumnsStatement =>
      parts.any (hasRule .tableName)
  | .createTableStatement =>
      parts.any (hasRule .tableName) ∧ parts.any (hasRule .tableElementList)
  | .alterTableStatement => parts.any (hasRule .tableName) ∧ parts.any (hasRule .alterAction)
  | .alterAction => parts.any (either (hasRule .unsupportedClause) (hasRule .columnDefinition))
  | .createIndexStatement =>
      parts.any (hasRule .indexName) ∧ parts.any (hasRule .tableName) ∧
        parts.any (hasRule .columnList)
  | .useStatement => parts.any (hasRule .databaseName)
  | .encryptColumnStatement | .decryptColumnStatement | .indexColumn =>
      parts.any (hasRule .columnName)
  | .tablePrimaryKey | .tableUnique => parts.any (hasRule .columnList)
  | .columnDefinition => parts.any (isTokenOf Token.isName) ∧ parts.any (hasRule .dataType)
  | .destination | .licenseKey => parts.any (isTokenOf isString)
  | .stopClause =>
      parts.any (either (isTokenOf (Token.isWord "IMMEDIATE")) (isTokenOf isNumber))
  | .topClause => parts.any (isTokenOf isRowCount)
  | .limitClause =>
      parts.countP (isTokenOf isRowCount) = 1 ∨ parts.countP (isTokenOf isRowCount) = 2
  | .tableSource => ∃ table joins, parts = table :: joins ∧ table.isTable
  | .joinClause => parts.any isTable
  | .derivedTable => parts.any (hasRule .selectStatement) ∧ parts.any (hasRule .aliasClause)
  | .assignment =>
      parts.any (hasRule .columnName) ∧ ∃ before value, parts = before ++ [value] ∧
        value.isExpression
  | .aliasClause | .tableName | .columnName | .databaseName | .indexName =>
      parts.any (isTokenOf Token.isName)
  | .selectItem | .orderItem | .whereClause | .havingClause | .joinCondition
  | .defaultConstraint | .orExpr | .andExpr | .notExpr | .isNullExpr | .unaryExpr | .parenExpr =>
      parts.any Tree.isExpression
  | .comparisonExpr =>
      ∃ left sign right, parts = [left, .leaf sign, right] ∧ left.isExpression ∧
        isComparisonSign sign.token ∧ right.isExpression
  | .inExpr =>
      parts.any Tree.isExpression ∧
        parts.any (either (hasRule .subquery) (hasRule .expressionList))
  | .likeExpr =>
      2 ≤ parts.countP Tree.isExpression ∧
        (parts.any (isTokenOf (isKeyword .ESCAPE)) → 3 ≤ parts.countP Tree.isExpression)
  | .betweenExpr => 3 ≤ parts.countP Tree.isExpression
  | .additiveExpr => OperandChain isSign parts
  | .multiplicativeExpr => OperandChain isProductSign parts
  | .functionCall => parts.any isLeaf
  | .literal => IsToken isLiteral parts
  | .placeholder => IsToken isPlaceholder parts
  | _ => parts ≠ []

theorem Rule.Shape.ne_nil {rule : Rule} {parts : List Tree} (h : rule.Shape parts) :
    parts ≠ [] := by
  rintro rfl
  cases rule <;> simp [Shape, OperandChain, IsToken] at h

/-- Every node spans its parts and has the shape of its production, and no token is the end of
the text. -/
inductive Tree.WellFormed : Tree → Prop where
  | leaf {lexeme : Lexeme} : lexeme.token ≠ .eof → WellFormed (.leaf lexeme)
  | node {rule : Rule} {span : Span} {children : List Tree} :
      span = cover children → rule.Shape children → (∀ child ∈ children, child.WellFormed) →
      WellFormed (.node rule span children)

namespace Grammar

/-- The production of what a construct stands for, where it stands for one tree of one kind. -/
def Construct.rule? : Construct → Option Rule
  | negation => some .notExpr
  | signed => some .unaryExpr
  | paren => some .parenExpr
  | subquery => some .subquery
  | derivedTable => some .derivedTable
  | members | seeds => some .expressionList
  | valueRow => some .valueRow
  | columns | keyColumns => some .columnList
  | tableElements => some .tableElementList
  | typeArguments | countingArguments => some .typeArguments
  | flags => some .flagList
  | sumTail | productTail | arguments | bypassed => none

/-- What a construct yields. -/
def Construct.Fits (construct : Construct) (trees : List Tree) : Prop :=
  match construct with
  | .sumTail => Operations isSign trees
  | .productTail => Operations isProductSign trees
  | .arguments => True
  | .bypassed => ∃ tree, trees = [tree] ∧ tree.isStatement
  | construct => ∃ tree, trees = [tree] ∧ tree.rule? = construct.rule?

theorem Construct.fits_iff {construct : Construct} {rule : Rule} {trees : List Tree}
    (h : construct.rule? = some rule) :
    construct.Fits trees ↔ ∃ tree, trees = [tree] ∧ tree.hasRule rule := by
  have hfits : construct.Fits trees ↔ ∃ tree, trees = [tree] ∧ tree.rule? = construct.rule? := by
    cases construct <;> first | exact Iff.rfl | cases h
  simp only [hfits, h, hasRule_iff]

namespace Form

/-- All trees that the form yields are well-formed. -/
def Sound (enter : Construct → Reader) (form : Form) : Prop :=
  ∀ trees, form.Yields enter trees → ∀ tree ∈ trees, tree.WellFormed

/-- The form yields one tree, which passes a test and is well-formed. -/
def Makes (enter : Construct → Reader) (test : Tree → Bool) (form : Form) : Prop :=
  ∀ trees, form.Yields enter trees → ∃ tree, trees = [tree] ∧ test tree ∧ tree.WellFormed

/-- Some tree that the form yields passes a test. -/
def Has (enter : Construct → Reader) (test : Tree → Bool) (form : Form) : Prop :=
  ∀ trees, form.Yields enter trees → trees.any test

variable {enter : Construct → Reader} {form first second yes no body : Form}
  {test weaker : Tree → Bool} {look : Lookahead}

theorem Makes.sound (h : form.Makes enter test) : form.Sound enter := by
  intro trees hyields tree hmem
  obtain ⟨only, rfl, -, hformed⟩ := h trees hyields
  obtain rfl := List.mem_singleton.mp hmem
  exact hformed

theorem Makes.has (h : form.Makes enter test) : form.Has enter test := by
  intro trees hyields
  obtain ⟨tree, rfl, htest, -⟩ := h trees hyields
  simpa using htest

theorem Makes.mono (h : form.Makes enter test) (himp : ∀ tree, test tree → weaker tree) :
    form.Makes enter weaker := by
  intro trees hyields
  obtain ⟨tree, htrees, htest, hformed⟩ := h trees hyields
  exact ⟨tree, htrees, himp tree htest, hformed⟩

theorem Has.mono (h : form.Has enter test) (himp : ∀ tree, test tree → weaker tree) :
    form.Has enter weaker := by
  intro trees hyields
  obtain ⟨tree, hmem, htest⟩ := List.any_eq_true.mp (h trees hyields)
  exact List.any_eq_true.mpr ⟨tree, hmem, himp tree htest⟩

theorem Has.ne_nil (h : form.Has enter test) {trees : List Tree}
    (hyields : form.Yields enter trees) : trees ≠ [] := by
  rintro rfl
  exact absurd (h [] hyields) (by simp)

/-! ### Any trees -/

namespace Sound

theorem empty : Form.empty.Sound enter := Each.empty

/-- A token is well-formed when the end of the text is not asked for. -/
theorem token {accepts : Token → Bool} {wanted : String} (h : accepts .eof = false) :
    (Form.token accepts wanted).Sound enter := by
  refine Each.token fun lexeme haccepts => .leaf ?_
  intro heof
  rw [heof, h] at haccepts
  cases haccepts

theorem refuse {cause : Token → SyntaxCause} : (Form.refuse cause).Sound enter := Each.refuse

/-- The trees of two sound forms, one after the other. -/
theorem parts (hfirst : first.Sound enter) (hsecond : second.Sound enter) {left right : List Tree}
    (hleft : first.Yields enter left) (hright : second.Yields enter right) :
    ∀ tree ∈ left ++ right, tree.WellFormed :=
  Each.parts hfirst hsecond hleft hright

theorem seq (hfirst : first.Sound enter) (hsecond : second.Sound enter) :
    (Form.seq first second).Sound enter :=
  Each.seq hfirst hsecond

theorem ifAt (hyes : yes.Sound enter) (hno : no.Sound enter) :
    (Form.ifAt look yes no).Sound enter :=
  Each.ifAt hyes hno

theorem optional (h : form.Sound enter) : (Form.optional look form).Sound enter :=
  .ifAt h .empty

theorem whileAt (h : body.Sound enter) : (Form.whileAt look body).Sound enter :=
  Each.whileAt h

theorem commaList (h : form.Sound enter) : (Form.commaList form).Sound enter :=
  .seq h (.whileAt (.seq (.token rfl) h))

theorem parenthesized (h : form.Sound enter) : (Form.parenthesized form).Sound enter :=
  .seq (.token rfl) (.seq (.commaList h) (.token rfl))

end Sound

/-! ### Some tree among others -/

namespace Has

theorem token {accepts : Token → Bool} {wanted : String}
    (h : ∀ lexeme : Lexeme, accepts lexeme.token → test (.leaf lexeme)) :
    (Form.token accepts wanted).Has enter test := by
  intro trees hyields
  obtain ⟨lexeme, rfl, haccepts⟩ := hyields.token
  simpa using h lexeme haccepts

theorem left (h : first.Has enter test) : (Form.seq first second).Has enter test := by
  intro trees hyields
  obtain ⟨left, right, hleft, -, rfl⟩ := hyields.seq
  simp [List.any_append, h left hleft]

theorem right (h : second.Has enter test) : (Form.seq first second).Has enter test := by
  intro trees hyields
  obtain ⟨left, right, -, hright, rfl⟩ := hyields.seq
  simp [List.any_append, h right hright]

theorem ifAt (hyes : yes.Has enter test) (hno : no.Has enter test) :
    (Form.ifAt look yes no).Has enter test := by
  intro trees hyields
  rcases hyields.ifAt with hyields | hyields
  · exact hyes trees hyields
  · exact hno trees hyields

/-- A choice has what one of its sides has. -/
theorem ofSides {other : Tree → Bool} (hyes : yes.Has enter test) (hno : no.Has enter other) :
    (Form.ifAt look yes no).Has enter (either test other) :=
  .ifAt (hyes.mono (either_of_left other)) (hno.mono (either_of_right test))

/-- A token that passes the test of the form. -/
theorem self {accepts : Token → Bool} {wanted : String} :
    (Form.token accepts wanted).Has enter (isTokenOf accepts) :=
  .token fun _ haccepts => haccepts

end Has

/-! ### A single tree -/

namespace Makes

theorem refuse {cause : Token → SyntaxCause} : (Form.refuse cause).Makes enter test :=
  fun _ hyields => hyields.refuse.elim

theorem ifAt (hyes : yes.Makes enter test) (hno : no.Makes enter test) :
    (Form.ifAt look yes no).Makes enter test := by
  intro trees hyields
  rcases hyields.ifAt with hyields | hyields
  · exact hyes trees hyields
  · exact hno trees hyields

/-- An extension that never stops short makes one node, which is well-formed when its parts are and
have its shape. -/
theorem always {rule : Token → Token → Rule} (hfirst : first.Sound enter)
    (hsecond : second.Sound enter)
    (hrule : ∀ token next left right, first.Yields enter left → second.Yields enter right →
      test (ofParts (rule token next) (left ++ right)) ∧
        (rule token next).Shape (left ++ right)) :
    (Form.extend first (fun token next => some (rule token next)) second).Makes enter test := by
  intro trees hyields
  obtain ⟨token, next, left, right, hleft, hright, rfl⟩ := hyields.always
  obtain ⟨htest, hshape⟩ := hrule token next left right hleft hright
  exact ⟨_, rfl, htest, .node rfl hshape (hfirst.parts hsecond hleft hright)⟩

theorem node {rule : Rule} (hsound : form.Sound enter)
    (hshape : ∀ parts, form.Yields enter parts → rule.Shape parts) :
    (Form.node rule form).Makes enter (hasRule rule) := by
  refine .always .empty hsound ?_
  intro _ _ left right hleft hright
  obtain rfl := hleft.empty
  exact ⟨hasRule_iff.mpr rfl, hshape right hright⟩

/-- An extension makes one tree when its first form does and its nodes have their shapes. -/
theorem extend {rule : Token → Token → Option Rule} (hfirst : first.Makes enter test)
    (hsecond : second.Sound enter)
    (hrule : ∀ token next production, rule token next = some production →
      ∀ left right, first.Yields enter left → second.Yields enter right →
        test (ofParts production (left ++ right)) ∧ production.Shape (left ++ right)) :
    (Form.extend first rule second).Makes enter test := by
  intro trees hyields
  rcases hyields.extend with hyields | ⟨token, next, production, left, right, hproduction, hleft,
    hright, rfl⟩
  · exact hfirst trees hyields
  · obtain ⟨htest, hshape⟩ := hrule token next production hproduction left right hleft hright
    exact ⟨_, rfl, htest, .node rfl hshape (hfirst.sound.parts hsecond hleft hright)⟩

end Makes

theorem Sound.node {rule : Rule} (hsound : form.Sound enter)
    (hshape : ∀ parts, form.Yields enter parts → rule.Shape parts) :
    (Form.node rule form).Sound enter :=
  (Makes.node hsound hshape).sound

end Form

/-- The constructs that lie inside yield well-formed trees of the kinds that they stand for. -/
structure Regular (enter : Construct → Reader) : Prop where
  sound : ∀ construct, (Form.deeper construct).Sound enter
  fits : ∀ construct trees, (Form.deeper construct).Yields enter trees → construct.Fits trees

/-- A construct of one kind makes one node of that kind. -/
theorem Regular.makes {enter : Construct → Reader} (h : Regular enter) {construct : Construct}
    {rule : Rule} (hrule : construct.rule? = some rule) :
    (Form.deeper construct).Makes enter (hasRule rule) := by
  intro trees hyields
  obtain ⟨tree, rfl, htree⟩ := (Construct.fits_iff hrule).mp (h.fits construct trees hyields)
  exact ⟨tree, rfl, htree, h.sound construct _ hyields tree (by simp)⟩

end Grammar

end SqlFront
