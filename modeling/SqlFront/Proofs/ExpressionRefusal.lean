import SqlFront.Proofs.Refusal
import SqlFront.Proofs.Shape
import SqlFront.Proofs.TreeInduction

/-!
Names and expressions of well-formed trees are built, or refused for what they mean.
-/

namespace SqlFront

open Build Built Grammar

namespace Tree

variable {tree : Tree} {trees : List Tree}

/-! ### Parts of well-formed trees -/

theorem WellFormed.child (h : tree.WellFormed) {child : Tree} (hmem : child ∈ tree.children) :
    child.WellFormed := by
  cases h with
  | leaf => cases hmem
  | node hspan hshape hchildren => exact hchildren child hmem

theorem WellFormed.shape (h : tree.WellFormed) {rule : Rule} (hrule : tree.hasRule rule) :
    rule.Shape tree.children := by
  cases h with
  | leaf => cases hrule
  | node hspan hshape hchildren =>
    obtain rfl := Option.some.inj (eq_of_beq hrule)
    exact hshape

theorem WellFormed.found (h : tree.WellFormed) {rule : Rule} {part : Tree}
    (hfound : find? rule tree.children = some part) : part.WellFormed ∧ part.hasRule rule :=
  ⟨h.child (List.mem_of_find?_eq_some hfound), List.find?_some hfound⟩

/-- The first part of a kind is found where there is one. -/
theorem find?_of_any {rule : Rule} (h : trees.any (hasRule rule)) :
    ∃ part ∈ trees, part.hasRule rule ∧ find? rule trees = some part := by
  have hsome : (find? rule trees).isSome := List.find?_isSome.mpr (List.any_eq_true.mp h)
  obtain ⟨part, hfound⟩ := Option.isSome_iff_exists.mp hsome
  exact ⟨part, List.mem_of_find?_eq_some hfound, List.find?_some hfound, hfound⟩

theorem any_of_find? {rule : Rule} {part : Tree} (h : find? rule trees = some part) :
    trees.any (hasRule rule) :=
  List.any_eq_true.mpr ⟨part, List.mem_of_find?_eq_some h, List.find?_some h⟩

theorem any_eq_false_of_find? {rule : Rule} (h : find? rule trees = none) :
    trees.any (hasRule rule) = false :=
  List.any_eq_false.mpr (List.find?_eq_none.mp h)

/-- Where no part passes the first of two tests, one passes the other. -/
theorem any_of_either {first second : Tree → Bool} (h : trees.any (either first second))
    (hfirst : trees.any first = false) : trees.any second := by
  obtain ⟨part, hmem, htest⟩ := List.any_eq_true.mp h
  rcases Bool.or_eq_true_iff.mp htest with htest | htest
  · exact absurd htest (List.any_eq_false.mp hfirst part hmem)
  · exact List.any_eq_true.mpr ⟨part, hmem, htest⟩

theorem leaves_leaf_cons (lexeme : Lexeme) (trees : List Tree) :
    leaves (leaf lexeme :: trees) = lexeme :: leaves trees := rfl

/-- A test of the tokens among some trees. -/
theorem any_leaves (test : Token → Bool) (trees : List Tree) :
    ((leaves trees).any fun lexeme => test lexeme.token) = trees.any (isTokenOf test) := by
  induction trees with
  | nil => rfl
  | cons tree trees ih =>
    cases tree with
    | leaf lexeme =>
      rw [leaves_leaf_cons, List.any_cons, List.any_cons, isTokenOf_leaf, ih]
    | node rule span children => simpa [leaves, isTokenOf, token?] using ih

theorem exists_leaf_of_any {test : Token → Bool} (h : trees.any (isTokenOf test)) :
    ∃ lexeme ∈ leaves trees, test lexeme.token :=
  List.any_eq_true.mp ((any_leaves test trees).trans h)

theorem leaves_ne_nil (h : trees.any isLeaf) : leaves trees ≠ [] := by
  obtain ⟨part, hmem, hleaf⟩ := List.any_eq_true.mp h
  cases part with
  | leaf lexeme => exact List.ne_nil_of_mem (List.mem_filterMap.mpr ⟨_, hmem, rfl⟩)
  | node rule span children => cases hleaf

theorem leaves_cons_of_isExpression (h : tree.isExpression) :
    leaves (tree :: trees) = leaves trees := by
  cases tree with
  | leaf lexeme => cases h
  | node rule span children => rfl

theorem names_ne_nil (h : trees.any (isTokenOf Token.isName)) : names trees ≠ [] := by
  obtain ⟨lexeme, hmem, hname⟩ := exists_leaf_of_any h
  obtain ⟨name, hsome⟩ := Option.isSome_iff_exists.mp hname
  exact List.ne_nil_of_mem (List.mem_filterMap.mpr ⟨lexeme, hmem, hsome⟩)

theorem required_of_any {rule : Rule} (h : tree.children.any (hasRule rule)) :
    ∃ part ∈ tree.children, part.hasRule rule ∧ tree.required rule = .ok part := by
  obtain ⟨part, hmem, hrule, hfound⟩ := find?_of_any h
  exact ⟨part, hmem, hrule, by rw [required, hfound, require]⟩

theorem lastName_of_any (h : tree.children.any (isTokenOf Token.isName)) :
    ∃ name, tree.lastName = .ok name := by
  refine ⟨(names tree.children).getLast (names_ne_nil h), ?_⟩
  rw [lastName, List.getLast?_eq_some_getLast (names_ne_nil h), require]

theorem aliasName_of_any (h : tree.WellFormed) (hany : tree.children.any (hasRule .aliasClause)) :
    ∃ name, tree.aliasName = .ok name := by
  obtain ⟨clause, hmem, hrule, hfound⟩ := find?_of_any hany
  have hnames := names_ne_nil ((h.child hmem).shape hrule)
  refine ⟨(names clause.children).getLast hnames, ?_⟩
  simp [aliasName, hfound, List.getLast?_eq_some_getLast hnames, require]

end Tree

/-! ### Names -/

theorem ofParts_onlyRefuses (dialect : Dialect) {parts : List String} (h : parts ≠ []) :
    (TableRef.ofParts dialect parts).OnlyRefuses := by
  unfold TableRef.ofParts
  split
  · exact absurd rfl h
  · exact .ok _
  · split
    · exact .ok _
    · exact .ok _
  · exact .ok _
  · exact .reject rfl

theorem tableOfTree_onlyRefuses (dialect : Dialect) {tree : Tree} (h : tree.WellFormed)
    (hrule : tree.hasRule .tableName) : (TableRef.ofTree dialect tree).OnlyRefuses := by
  refine .bind (ofParts_onlyRefuses dialect (Tree.names_ne_nil (h.shape hrule))) ?_
  intro table _
  split
  · rename_i clause hfound
    obtain ⟨name, hname⟩ := Tree.aliasName_of_any h (Tree.any_of_find? hfound)
    rw [hname]
    exact .ok _
  · exact .ok _

theorem columnOfTree_onlyRefuses (dialect : Dialect) {tree : Tree}
    (h : tree.children.any (Tree.isTokenOf Token.isName)) :
    (ColumnRef.ofTree dialect tree).OnlyRefuses := by
  obtain ⟨name, hname⟩ := Tree.lastName_of_any h
  simp only [ColumnRef.ofTree, hname]
  refine .bind (.ok _) ?_
  intro _ _
  split
  · exact .ok _
  · rename_i qualifiers hqualifiers
    exact .bind (ofParts_onlyRefuses dialect hqualifiers) fun _ _ => .ok _

namespace Build

variable (context : Context)

/-! ### Parts of an expression -/

theorem value_onlyRefuses {part : Part} (h : part.built.OnlyRefuses) :
    (context.value part).OnlyRefuses := by
  refine .bind h ?_
  intro e _
  split
  · exact .reject rfl
  · exact .ok _

theorem constant_onlyRefuses {part : Part} (what : String) (h : part.built.OnlyRefuses) :
    (context.constant what part).OnlyRefuses := by
  refine .bind h ?_
  intro e _
  split
  · exact .ok _
  · exact .refuse

theorem columnOperand_onlyRefuses {part : Part} (operator : String) (h : part.built.OnlyRefuses) :
    (columnOperand operator part).OnlyRefuses := by
  refine .bind h ?_
  intro e _
  split
  · exact .ok _
  · exact .refuse

/-- The token of a literal stands for a constant, if its text does. -/
theorem literal_onlyRefuses (rule : Rule) {token : Token} (h : isLiteral token) :
    (context.literal rule (some token)).OnlyRefuses := by
  unfold Context.literal
  split
  · exact .ofMeaning (Literal.numberBy_failsOnly _ _ _)
  · exact .ofMeaning (.map (Literal.hex_failsOnly _ _))
  · exact .ofMeaning (.map (Literal.hex_failsOnly _ _))
  · exact .ofMeaning (Literal.string_failsOnly _ _ _ _)
  · exact .ok _
  · exact .ok _
  · exact .ok _
  · rename_i hnumber hhex hbits hstring hnull htrue hfalse
    unfold isLiteral at h
    split at h <;> simp_all

theorem comparisonOf_of_isComparisonSign {token : Token} (h : isComparisonSign token) :
    ∃ comparison, comparisonOf? token = some comparison := by
  cases token with
  | symbol sign => cases sign <;> first | exact ⟨_, rfl⟩ | cases h
  | _ => cases h

/-- The operators of a chain have a meaning or are refused. -/
theorem arithmeticOf_onlyRefuses (node : Node) {token : Token}
    (h : isSign token ∨ isProductSign token) : (node.arithmeticOf (some token)).OnlyRefuses := by
  cases token with
  | symbol sign =>
    cases sign <;> first
      | exact .ok _
      | exact .refuse
      | simp [isSign, isProductSign] at h
  | _ => simp [isSign, isProductSign] at h

theorem allColumns_onlyRefuses (node : Node) : (node.allColumns context).OnlyRefuses := by
  unfold Node.allColumns
  split
  · exact .ok _
  · rename_i qualifiers hqualifiers
    exact .bind (ofParts_onlyRefuses _ hqualifiers) fun _ _ => .ok _

namespace Context

section

variable {rule : Rule} {span : Span} {children : List Tree}

theorem nodeOf_headToken? (lexeme : Lexeme) :
    (context.nodeOf rule span [.leaf lexeme]).headToken? = some lexeme.token := by
  rw [Node.headToken?, nodeOf_trees]
  rfl

theorem operands_pos (h : children.any Tree.isExpression) :
    0 < children.countP Tree.isExpression :=
  List.countP_pos_iff.mpr (List.any_eq_true.mp h)

/-- An operand that is there is taken from the expressions among the parts. -/
theorem operand_bind {β : Type} {n : Nat} {f : Part → Built β}
    (h : n < children.countP Tree.isExpression)
    (hf : ∀ tree ∈ children, tree.isExpression → (f (context.part tree)).OnlyRefuses) :
    ((context.nodeOf rule span children).operand n >>= f).OnlyRefuses := by
  rw [List.countP_eq_length_filter] at h
  refine .require_bind ⟨context.part (children.filter Tree.isExpression)[n], ?_, ?_⟩
  · rw [nodeOf_operands, List.getElem?_map, List.getElem?_eq_getElem h, Option.map_some]
  · have hmem := List.mem_filter.mp (List.getElem_mem h)
    exact hf _ hmem.1 hmem.2

-- every expression among the parts is built or refused
variable (hparts : ∀ child ∈ children, child.isExpression →
  (context.expression child).OnlyRefuses)
include hparts

omit hparts in
/-- A chain that has items has a shallow tree of them. -/
theorem balanced_isSome {α : Type} (combine : α → α → α) {items : List α} (h : items ≠ []) :
    (balanced combine items).isSome := by
  fun_induction balanced combine items with
  | case1 => exact absurd rfl h
  | case2 => rfl
  | case3 first second items all ihl =>
    rename_i ihr
    obtain ⟨left, hleft⟩ := Option.isSome_iff_exists.mp (ihl (by simp [all]))
    obtain ⟨right, hright⟩ := Option.isSome_iff_exists.mp (ihr (by simp [all]; omega))
    simp [hleft, hright]

theorem logical_onlyRefuses (combine : Expr → Expr → Expr)
    (h : children.any Tree.isExpression) :
    ((context.nodeOf rule span children).logical combine).OnlyRefuses := by
  rw [Node.logical, nodeOf_operands]
  refine .bind (.mapM ?_) ?_
  · intro part hmem
    obtain ⟨tree, htree, rfl⟩ := List.mem_map.mp hmem
    have hbuilt := hparts tree (List.mem_of_mem_filter htree) (List.of_mem_filter htree)
    refine .bind hbuilt ?_
    intro e _
    split
    · exact .ok _
    · exact .reject rfl
  · intro items hitems
    have hlength := (forall₂_of_mapM_eq_ok hitems).length_eq
    have hne : items ≠ [] := by
      rintro rfl
      obtain ⟨tree, hmem, hexpression⟩ := List.any_eq_true.mp h
      have hfiltered : tree ∈ children.filter Tree.isExpression :=
        List.mem_filter.mpr ⟨hmem, hexpression⟩
      rw [List.length_map, List.length_nil, List.length_eq_zero_iff] at hlength
      rw [hlength] at hfiltered
      cases hfiltered
    obtain ⟨e, he⟩ := Option.isSome_iff_exists.mp (balanced_isSome combine hne)
    rw [he]
    exact .ok _

/-- The value of the operand at a place. -/
theorem operand_value_bind {β : Type} {n : Nat} {f : Expr → Built β}
    (h : n < children.countP Tree.isExpression) (hf : ∀ e, (f e).OnlyRefuses) :
    ((context.nodeOf rule span children).operand n >>= fun part =>
      context.value part >>= f).OnlyRefuses :=
  context.operand_bind h fun tree hmem hexpression =>
    .bind (value_onlyRefuses context (hparts tree hmem hexpression)) fun e _ => hf e

theorem comparison_onlyRefuses (h : Rule.comparisonExpr.Shape children) :
    ((context.nodeOf rule span children).comparison context).OnlyRefuses := by
  obtain ⟨left, sign, right, rfl, hleft, hsign, hright⟩ := h
  have hcount : [left, .leaf sign, right].countP Tree.isExpression = 2 := by
    simp [hleft, hright]
  refine context.operand_value_bind hparts (by omega) fun first =>
    context.operand_value_bind hparts (by omega) fun second => .require_bind ?_
  have hleaf : (context.nodeOf rule span [left, .leaf sign, right]).firstLeaf = some sign := by
    rw [Node.firstLeaf, nodeOf_trees, Tree.leaves_cons_of_isExpression hleft]
    rfl
  obtain ⟨comparison, hcomparison⟩ := comparisonOf_of_isComparisonSign hsign
  exact ⟨comparison, by rw [hleaf]; exact hcomparison, .ok _⟩

theorem isNull_onlyRefuses (h : children.any Tree.isExpression) :
    (context.nodeOf rule span children).isNull.OnlyRefuses := by
  refine context.operand_bind (operands_pos h) ?_
  intro tree hmem hexpression
  exact .bind (columnOperand_onlyRefuses _ (hparts tree hmem hexpression)) fun _ _ => .ok _

theorem between_onlyRefuses (h : Rule.betweenExpr.Shape children) :
    ((context.nodeOf rule span children).between context).OnlyRefuses := by
  have hcount : 3 ≤ children.countP Tree.isExpression := h
  refine context.operand_value_bind hparts (by omega) fun subject =>
    context.operand_value_bind hparts (by omega) fun low =>
    context.operand_value_bind hparts (by omega) ?_
  intro high
  split
  · exact .ok _
  · exact .ok _

theorem like_onlyRefuses (h : Rule.likeExpr.Shape children) :
    ((context.nodeOf rule span children).like context).OnlyRefuses := by
  obtain ⟨htwo, hthree⟩ := h
  refine context.operand_bind (by omega) fun tree hmem hexpression =>
    .bind (columnOperand_onlyRefuses _ (hparts tree hmem hexpression)) fun column _ =>
    context.operand_bind (by omega) fun tree hmem hexpression =>
    .bind (constant_onlyRefuses context _ (hparts tree hmem hexpression)) ?_
  intro pattern _
  dsimp only
  split
  · rename_i hescape
    have hcount : 3 ≤ children.countP Tree.isExpression := by
      refine hthree ?_
      rw [Node.hasKeyword, nodeOf_trees] at hescape
      exact (Tree.any_leaves (isKeyword .ESCAPE) children).symm.trans hescape
    refine context.operand_bind (by omega) fun tree hmem hexpression =>
      .bind (constant_onlyRefuses context _ (hparts tree hmem hexpression)) ?_
    intro value _
    exact .bind (.ofMeaning (Literal.character_failsOnly value)) fun _ _ => .ok _
  · exact .ok _

/-- The list of an `IN` is built when its members are. -/
theorem inList_onlyRefuses (h : Rule.inExpr.Shape children)
    (hmembers : ∀ list ∈ children, ∀ child ∈ list.children, child.isExpression →
      (context.expression child).OnlyRefuses) :
    ((context.nodeOf rule span children).inList context).OnlyRefuses := by
  obtain ⟨hone, hlist⟩ := h
  refine context.operand_bind (operands_pos hone) fun tree hmem hexpression =>
    .bind (columnOperand_onlyRefuses _ (hparts tree hmem hexpression)) ?_
  intro column _
  rw [nodeOf_trees]
  split
  · exact .refuse_bind
  · rename_i hquery
    have hany := Tree.any_of_either hlist (Tree.any_eq_false_of_find? (by simpa using hquery))
    obtain ⟨list, hmem, -, hfound⟩ := Tree.find?_of_any hany
    refine .require_bind ⟨context.parts list.children, ?_, .bind (.mapM ?_) fun _ _ => .ok _⟩
    · rw [nodeOf, members_eq_map, hfound, Option.map_some]
    · intro part hpart
      obtain ⟨hpart, hexpression⟩ := List.mem_filter.mp hpart
      rw [parts_eq_map] at hpart
      obtain ⟨child, hchild, rfl⟩ := List.mem_map.mp hpart
      exact constant_onlyRefuses context _ (hmembers list hmem child hchild hexpression)

/-- The chain goes on with an operator and an operand as long as there are parts. -/
theorem arithmeticFrom_onlyRefuses (node : Node) {isOperator : Token → Bool}
    (hoperator : ∀ token, isOperator token → isSign token ∨ isProductSign token) {rest : List Tree}
    (hrest : Tree.Operations isOperator rest) (hsub : ∀ tree ∈ rest, tree ∈ children)
    (start : Span) (built : Expr) :
    (node.arithmeticFrom context start built (rest.map context.part)).OnlyRefuses := by
  induction hrest generalizing built with
  | nil => exact .ok _
  | @cons operator operand trees haccepts hoperand hrest ih =>
    have hbuilt := hparts operand (hsub operand (by simp)) hoperand
    refine .bind (value_onlyRefuses context hbuilt) fun right _ =>
      .bind (arithmeticOf_onlyRefuses node (hoperator _ haccepts)) ?_
    intro op _
    exact ih (fun tree hmem => hsub tree (by simp [hmem])) _

theorem arithmetic_onlyRefuses {isOperator : Token → Bool}
    (hoperator : ∀ token, isOperator token → isSign token ∨ isProductSign token)
    (h : Tree.OperandChain isOperator children) :
    ((context.nodeOf rule span children).arithmetic context).OnlyRefuses := by
  obtain ⟨first, rest, rfl, hfirst, hrest⟩ := h
  have hbuilt := hparts first (by simp) hfirst
  have hnode : (context.nodeOf rule span (first :: rest)).parts =
      context.part first :: rest.map context.part := parts_eq_map context (first :: rest)
  rw [Node.arithmetic, hnode]
  refine .bind (value_onlyRefuses context hbuilt) ?_
  intro e _
  exact context.arithmeticFrom_onlyRefuses hparts _ hoperator hrest
    (fun tree hmem => by simp [hmem]) _ e

theorem signed_onlyRefuses (h : children.any Tree.isExpression) :
    ((context.nodeOf rule span children).signed context).OnlyRefuses := by
  refine context.operand_bind (operands_pos h) ?_
  intro tree hmem hexpression
  have hbuilt := hparts tree hmem hexpression
  split
  · exact .bind (.ofMeaning (Literal.numberBy_failsOnly _ _ _)) fun _ _ => .ok _
  · exact .bind (value_onlyRefuses context hbuilt) fun _ _ => .ok _
  · exact value_onlyRefuses context hbuilt

theorem call_onlyRefuses (h : children.any Tree.isLeaf) :
    ((context.nodeOf rule span children).call context).OnlyRefuses := by
  obtain ⟨leaf, hleaf⟩ : ∃ leaf, (context.nodeOf rule span children).firstLeaf = some leaf := by
    rw [Node.firstLeaf, nodeOf_trees]
    exact ⟨_, List.head?_eq_some_head (Tree.leaves_ne_nil h)⟩
  refine .require_bind ⟨leaf, hleaf, .bind (.mapM fun part hpart => ?_) fun arguments _ => ?_⟩
  · rw [nodeOf_operands] at hpart
    obtain ⟨child, hchild, rfl⟩ := List.mem_map.mp hpart
    obtain ⟨hmem, hexpression⟩ := List.mem_filter.mp hchild
    exact value_onlyRefuses context (hparts child hmem hexpression)
  · dsimp only
    split
    · exact .reject rfl
    · split
      · exact .ok _
      · split
        · exact .reject rfl
        · exact .ok _

/-- The expression of a node is built or refused when it has the shape of its production and its
parts are built or refused. -/
theorem bare_onlyRefuses (hrule : rule.isExpression) (hshape : rule.Shape children)
    (hmembers : ∀ list ∈ children, ∀ child ∈ list.children, child.isExpression →
      (context.expression child).OnlyRefuses) :
    ((context.nodeOf rule span children).bare context).OnlyRefuses := by
  cases rule with
  | orExpr => exact context.logical_onlyRefuses hparts _ hshape
  | andExpr => exact context.logical_onlyRefuses hparts _ hshape
  | notExpr =>
    refine context.operand_bind (operands_pos hshape) ?_
    intro tree hmem hexpression
    exact .bind (hparts tree hmem hexpression) fun e _ => .ofMeaning (negate_failsOnly e)
  | bitwiseExpr => exact .refuse
  | comparisonExpr => exact context.comparison_onlyRefuses hparts hshape
  | inExpr => exact context.inList_onlyRefuses hparts hshape hmembers
  | likeExpr => exact context.like_onlyRefuses hparts hshape
  | isNullExpr => exact context.isNull_onlyRefuses hparts hshape
  | betweenExpr => exact context.between_onlyRefuses hparts hshape
  | additiveExpr => exact context.arithmetic_onlyRefuses hparts (fun _ => .inl) hshape
  | multiplicativeExpr => exact context.arithmetic_onlyRefuses hparts (fun _ => .inr) hshape
  | unaryExpr => exact context.signed_onlyRefuses hparts hshape
  | parenExpr =>
    refine context.operand_bind (operands_pos hshape) ?_
    intro tree hmem hexpression
    exact hparts tree hmem hexpression
  | functionCall => exact context.call_onlyRefuses hparts hshape
  | literal =>
    obtain ⟨lexeme, rfl, hliteral⟩ := hshape
    refine .bind ?_ fun _ _ => .ok _
    rw [nodeOf_rule, nodeOf_headToken?]
    exact literal_onlyRefuses context _ hliteral
  | placeholder =>
    obtain ⟨⟨token, place⟩, rfl, hplaceholder⟩ := hshape
    cases token with
    | placeholder label =>
      rw [Node.bare, nodeOf_rule, nodeOf_headToken?]
      exact .ok _
    | _ => cases hplaceholder
  | columnName =>
    refine .bind (columnOfTree_onlyRefuses _ ?_) fun _ _ => .ok _
    rw [nodeOf_trees]
    exact hshape
  | allColumns => exact allColumns_onlyRefuses context _
  | subquery => exact .refuse
  | _ => cases hrule

end

/-- **An expression is built or refused**, whatever well-formed tree it is built from. -/
theorem expression_onlyRefuses {tree : Tree} (h : tree.WellFormed) (hrule : tree.isExpression) :
    (context.expression tree).OnlyRefuses := by
  -- the members of a list are two levels down, so the induction carries the parts along
  suffices hboth : ∀ tree : Tree, tree.WellFormed →
      (tree.isExpression → (context.expression tree).OnlyRefuses) ∧
      ∀ child ∈ tree.children, child.isExpression → (context.expression child).OnlyRefuses from
    (hboth tree h).1 hrule
  intro tree h
  induction h with
  | leaf =>
    constructor
    · intro hrule
      cases hrule
    · intro child hmem
      cases hmem
  | @node rule span children hspan hshape hchildren ih =>
    have hparts : ∀ child ∈ children, child.isExpression →
        (context.expression child).OnlyRefuses := fun child hmem => (ih child hmem).1
    refine ⟨fun hrule => ?_, hparts⟩
    have hexpression : rule.isExpression := by simpa [Tree.isExpression, Tree.rule?] using hrule
    rw [expression, if_pos hexpression]
    refine .bind ?_ fun _ _ => .ok _
    exact context.bare_onlyRefuses hparts hexpression hshape fun list hmem => (ih list hmem).2

end Context

end Build

end SqlFront
