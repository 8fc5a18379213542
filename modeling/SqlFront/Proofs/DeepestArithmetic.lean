import SqlFront.Proofs.ArithmeticDepth

/-!
Arithmetic gets as deep as its bound, with every number of levels of nesting.

The longest path goes through first operands only: a sum that starts with a product, which starts
with a sum of the same kind in parentheses that have one level less inside. Each chain has as many
operators as there are levels, and only plain operands after them.
-/

namespace SqlFront

open Build

/-- Chains of arithmetic: a production, an operator of it, and the level of the operands. -/
inductive ArithmeticChain : Rule → Symbol → Level → Prop where
  | sum : ArithmeticChain .additiveExpr .plus .product
  | product : ArithmeticChain .multiplicativeExpr .star .sign

namespace Tree

/-- A symbol, at a place that does not matter. -/
def mark (symbol : Symbol) : Tree := leaf ⟨.symbol symbol, ⟨0, 1⟩⟩

/-- An operand that takes no level. -/
def plainOperand : Tree := ofParts .columnName [leaf ⟨.name "a", ⟨0, 1⟩⟩]

/-- So many operators, with a plain operand after each of them. -/
def plainLinks (operator : Symbol) : Nat → List Tree
  | 0 => []
  | n + 1 => mark operator :: plainOperand :: plainLinks operator n

/-- A chain of so many operators behind an operand. -/
def chained (rule : Rule) (operator : Symbol) (n : Nat) (first : Tree) : Tree :=
  ofParts rule (first :: plainLinks operator n)

/-- A sum that starts with a product, each of them with so many operators. -/
def deepSum (n : Nat) (first : Tree) : Tree :=
  chained .additiveExpr .plus n (chained .multiplicativeExpr .star n first)

/-- An operand with a path as long as so many levels allow. -/
def deepOperand : Nat → Tree
  | 0 => plainOperand
  | 1 => ofParts .unaryExpr [mark .minus, plainOperand]
  | n + 2 =>
      ofParts .parenExpr [mark .leftParen, deepSum (n + 1) (deepOperand (n + 1)), mark .rightParen]

theorem nestingOfChain_plainLinks (operator : Symbol) (n : Nat) :
    nestingOfChain (plainLinks operator n) = n := by
  induction n with
  | zero => rfl
  | succ n ih =>
    have hbinds : plainOperand.bindsAt .primary := rfl
    have hnesting : plainOperand.nesting = 0 := rfl
    rw [plainLinks, mark, nestingOfChain_leaf, nestingOfChain_cons hbinds, ih, hnesting,
      Nat.zero_max]

theorem links_plainLinks {isOperator : Token → Bool} {operator : Symbol} {level : Level}
    (hoperator : isOperator (.symbol operator)) (hlevel : plainOperand.bindsAt level) (n : Nat) :
    Links (isTokenOf isOperator) (bindsAt level) (plainLinks operator n) := by
  induction n with
  | zero => exact .nil
  | succ n ih => exact .cons hoperator hlevel ih

/-- What holds of tokens and of the plain operand holds of all that follows the first operand. -/
theorem forall_mem_plainLinks {P : Tree → Prop} {operator : Symbol}
    (hleaf : ∀ lexeme, P (.leaf lexeme)) (hplain : P plainOperand) (n : Nat) :
    ∀ part ∈ plainLinks operator n, P part := by
  induction n with
  | zero => simp [plainLinks]
  | succ n ih =>
    exact List.forall_mem_cons.mpr ⟨hleaf _, List.forall_mem_cons.mpr ⟨hplain, ih⟩⟩

end Tree

open SqlFront.Tree

theorem ArithmeticChain.exists_op {rule : Rule} {operator : Symbol} {level : Level}
    (h : ArithmeticChain rule operator level) :
    ∃ op, ∀ node : Node, node.arithmeticOf (some (.symbol operator)) = .ok op := by
  cases h with
  | sum => exact ⟨.add, fun _ => rfl⟩
  | product => exact ⟨.multiply, fun _ => rfl⟩

namespace Build.Context

variable (context : Context) {rule : Rule} {span : Span} {children : List Tree} {e : Expr}

/-! ### Building values -/

theorem expression_of_bare (hrule : rule.isExpression)
    (h : (context.nodeOf rule span children).bare context = .ok e) :
    context.expression (.node rule span children) =
      .ok (e.withAlias (some (context.source.slice span))) := by
  rw [expression, if_pos hrule]
  exact bind_eq_ok.mpr ⟨e, h, rfl⟩

theorem value_of_expression {tree : Tree} (h : context.expression tree = .ok e)
    (hvalue : e.isPredicate = false) : context.value (context.part tree) = .ok e :=
  bind_eq_ok.mpr ⟨e, h, by simp [hvalue]⟩

/-- The tree builds a value with so many operations of arithmetic on a path. -/
def BuildsDeep (depth : Nat) (tree : Tree) : Prop :=
  ∃ e, context.expression tree = .ok e ∧ e.isPredicate = false ∧ e.arithmeticDepth = depth

theorem buildsDeep_plainOperand : context.BuildsDeep 0 plainOperand := ⟨_, rfl, rfl, rfl⟩

/-- An alias changes neither the depth of a value nor that it is one. -/
theorem buildsDeep_of_bare (hrule : rule.isExpression)
    (h : (context.nodeOf rule span children).bare context = .ok e)
    (hvalue : e.isPredicate = false) :
    context.BuildsDeep e.arithmeticDepth (.node rule span children) :=
  ⟨_, context.expression_of_bare hrule h, by simpa using hvalue, by simp⟩

/-- Each operator adds an operation, on the path through all first operands. -/
theorem arithmeticFrom_plainLinks {operator : Symbol} {op : ArithmeticOp} {node : Node}
    (hop : node.arithmeticOf (some (.symbol operator)) = .ok op) (start : Span) {first : Expr}
    (hfirst : first.isPredicate = false) (n : Nat) :
    ∃ e, node.arithmeticFrom context start first ((plainLinks operator n).map context.part) =
      .ok e ∧ e.isPredicate = false ∧ e.arithmeticDepth = first.arithmeticDepth + n := by
  induction n generalizing first with
  | zero => exact ⟨first, rfl, hfirst, rfl⟩
  | succ n ih =>
    obtain ⟨right, hbuilt, hvalue, hdepth⟩ := context.buildsDeep_plainOperand
    have hright := context.value_of_expression hbuilt hvalue
    let text := context.source.slice (start.join plainOperand.span)
    have hnext : (Expr.arithmetic (some text) op first right).isPredicate = false := rfl
    obtain ⟨e, he, hlast, hgrown⟩ := ih hnext
    refine ⟨e, ?_, hlast, ?_⟩
    · simp only [plainLinks, List.map_cons, Node.arithmeticFrom, bind_eq_ok]
      exact ⟨right, hright, op, hop, he⟩
    · rw [hgrown, Expr.arithmeticDepth, hdepth]
      omega

theorem BuildsDeep.chained {operator : Symbol} {level : Level} {depth : Nat} {first : Tree}
    (hchain : ArithmeticChain rule operator level) (h : context.BuildsDeep depth first) (n : Nat) :
    context.BuildsDeep (depth + n) (chained rule operator n first) := by
  obtain ⟨value, hbuilt, hvalue, rfl⟩ := h
  obtain ⟨op, hop⟩ := hchain.exists_op
  let node := context.nodeOf rule (cover (first :: plainLinks operator n))
    (first :: plainLinks operator n)
  obtain ⟨e, he, hlast, hdepth⟩ :=
    context.arithmeticFrom_plainLinks (hop node) first.span hvalue n
  have harithmetic : node.arithmetic context = .ok e := by
    unfold Node.arithmetic
    simp only [node, nodeOf, parts_eq_map, List.map_cons, bind_eq_ok] at he ⊢
    exact ⟨value, context.value_of_expression hbuilt hvalue, he⟩
  rw [← hdepth]
  cases hchain with
  | sum => exact context.buildsDeep_of_bare rfl harithmetic hlast
  | product => exact context.buildsDeep_of_bare rfl harithmetic hlast

theorem BuildsDeep.enclosed {depth : Nat} {tree : Tree} (hbinds : tree.bindsAt .disjunction)
    (h : context.BuildsDeep depth tree) :
    context.BuildsDeep depth (ofParts .parenExpr [mark .leftParen, tree, mark .rightParen]) := by
  obtain ⟨e, he, hvalue, rfl⟩ := h
  refine context.buildsDeep_of_bare rfl (bind_eq_ok.mpr ⟨context.part tree, ?_, he⟩) hvalue
  rw [Node.operand, nodeOf_operands]
  simp [mark, isExpression_of_bindsAt hbinds, Built.require]

/-! ### The longest path -/

/-- The tree is a derivation without queries that opens so many levels, and what it builds is as
deep as an expression of this level can be. -/
structure Reaches (level : Level) (levels : Nat) (tree : Tree) : Prop where
  derived : tree.IsDerivation
  free : tree.SubqueryFree
  binds : tree.bindsAt level
  nesting : tree.nesting = levels
  builds : context.BuildsDeep (level.deepest levels) tree

theorem reaches_plainOperand : context.Reaches .primary 0 plainOperand where
  derived := .node rfl ⟨_, [], rfl, rfl, .nil⟩ (by simpa using .leaf)
  free := subqueryFree_node.mpr ⟨by simp, by simpa using subqueryFree_leaf _⟩
  binds := rfl
  nesting := rfl
  builds := context.buildsDeep_plainOperand

theorem reaches_minus : context.Reaches .sign 1 (deepOperand 1) where
  derived := by
    refine .node rfl (.cons rfl (.cons rfl .nil)) (List.forall_mem_cons.mpr ⟨.leaf, ?_⟩)
    simpa using context.reaches_plainOperand.derived
  free := by
    refine subqueryFree_node.mpr ⟨by simp, List.forall_mem_cons.mpr ⟨subqueryFree_leaf _, ?_⟩⟩
    simpa using context.reaches_plainOperand.free
  binds := rfl
  nesting := rfl
  builds := ⟨_, rfl, rfl, rfl⟩

/-- A chain takes as many levels as it has operators, and as many operations stand on the path
through its first operand. -/
theorem Reaches.chained {operator : Symbol} {level own : Level} {n : Nat} {first : Tree}
    (hchain : ArithmeticChain rule operator level)
    (hown : (chained rule operator (n + 1) first).bindsAt own)
    (hdeepest : own.deepest (n + 1) = level.deepest (n + 1) + (n + 1))
    (h : context.Reaches level (n + 1) first) :
    context.Reaches own (n + 1) (chained rule operator (n + 1) first) where
  derived := by
    have hplain := context.reaches_plainOperand.derived
    refine .node rfl ?_ (List.forall_mem_cons.mpr
      ⟨h.derived, forall_mem_plainLinks (fun _ => .leaf) hplain _⟩)
    cases hchain with
    | sum => exact ⟨⟨first, _, rfl, h.binds, links_plainLinks rfl rfl _⟩, by simp [plainLinks]⟩
    | product => exact ⟨⟨first, _, rfl, h.binds, links_plainLinks rfl rfl _⟩, by simp [plainLinks]⟩
  free := by
    have hplain := context.reaches_plainOperand.free
    refine subqueryFree_node.mpr ⟨?_, List.forall_mem_cons.mpr
      ⟨h.free, forall_mem_plainLinks subqueryFree_leaf hplain _⟩⟩
    cases hchain <;> simp
  binds := hown
  nesting := by
    have hnesting : nestingOfChain (first :: plainLinks operator (n + 1)) = n + 1 := by
      rw [nestingOfChain_cons h.binds, nestingOfChain_plainLinks, h.nesting, Nat.max_self]
    cases hchain <;> exact hnesting
  builds := hdeepest ▸ h.builds.chained context hchain (n + 1)

theorem Reaches.deepSum {n : Nat} {first : Tree} (h : context.Reaches .sign (n + 1) first) :
    context.Reaches .disjunction (n + 1) (deepSum (n + 1) first) :=
  (h.chained context .product rfl (Level.deepest_product _)).chained context .sum rfl
    (Level.deepest_sum _)

theorem reaches_deepOperand (levels : Nat) :
    context.Reaches .sign levels (deepOperand levels) := by
  fun_induction deepOperand levels with
  | case1 => exact { context.reaches_plainOperand with binds := rfl }
  | case2 => exact context.reaches_minus
  | case3 n ih =>
    have hsum := ih.deepSum context
    constructor
    case derived =>
      refine .node rfl (.cons rfl (.cons hsum.binds (.cons rfl .nil))) ?_
      simpa using ⟨.leaf, hsum.derived, .leaf⟩
    case free =>
      refine subqueryFree_node.mpr ⟨by simp, ?_⟩
      simpa using ⟨subqueryFree_leaf _, hsum.free, subqueryFree_leaf _⟩
    case binds => rfl
    case nesting =>
      change max (mark .leftParen).nesting (max _ (max (mark .rightParen).nesting 0)) + 1 = n + 2
      rw [hsum.nesting]
      simp [mark, nesting]
    case builds =>
      rw [Level.deepest_sign, Level.deepestOperand_succ_succ]
      exact hsum.builds.enclosed context hsum.binds

/-- **The bound on the depth is reached**, with every number of levels: some tokens are read as an
expression whose arithmetic is as deep as it can be. -/
theorem deepestArithmetic_reached (dialect : Dialect) (levels : Nat) :
    ∃ tree e, (∀ rest, canExtend (Grammar.current rest) = false →
        Grammar.readExpression dialect levels (tree.terminals ++ rest) = .ok (tree, rest)) ∧
      context.expression tree = .ok e ∧ e.arithmeticDepth = deepestArithmetic levels := by
  have hreached : ∃ tree : Tree, context.Reaches .disjunction levels tree := by
    cases levels with
    | zero => exact ⟨plainOperand, { context.reaches_plainOperand with binds := rfl }⟩
    | succ n => exact ⟨_, (context.reaches_deepOperand (n + 1)).deepSum context⟩
  obtain ⟨tree, hreaches⟩ := hreached
  obtain ⟨e, he, -, hdepth⟩ := hreaches.builds
  rw [Level.deepest_disjunction] at hdepth
  exact ⟨tree, e, fun rest hrest => Grammar.readExpression_of_derivation hreaches.derived
    hreaches.binds hreaches.free hreaches.nesting.le hrest, he, hdepth⟩

end Build.Context

end SqlFront
