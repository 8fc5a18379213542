import SqlFront.Proofs.ConditionTruth
import SqlFront.Proofs.ExpressionRefusal
import SqlFront.Proofs.InsideTree
import SqlFront.Proofs.LevelTokens

/-!
An expression that is built holds no query: all expressions among the parts of its nodes are built
with it, and a query in parentheses is refused wherever it stands.
-/

namespace SqlFront

open SqlFront.Tree Grammar Build

/-- The productions under which stand expressions and tokens without a label only. Of those of
expressions three are of another kind: under `IN` stands a list, under the parentheses of a query a
query, and a placeholder has a label. -/
def Rule.hasPlainParts (rule : Rule) : Bool :=
  rule.isExpression && rule != .inExpr && rule != .subquery && rule != .placeholder ||
    rule == .expressionList

namespace Tree

/-- An expression of some level is an expression. -/
theorem isExpression_of_bindsAt {level : Level} {tree : Tree} (h : tree.bindsAt level) :
    tree.isExpression := by
  obtain ⟨own, hown, -⟩ := bindsAt_iff.mp h
  cases tree with
  | leaf lexeme => cases hown
  | node rule span children =>
    cases rule <;> first | rfl | cases hown

theorem isLeaf_of_isTokenOf {test : Token → Bool} {tree : Tree} (h : tree.isTokenOf test) :
    tree.isLeaf := by
  obtain ⟨lexeme, rfl, -⟩ := eq_leaf_of_isTokenOf h
  rfl

theorem SubqueryFree.of_isLeaf {tree : Tree} (h : tree.isLeaf) : tree.SubqueryFree := by
  cases tree with
  | leaf lexeme => exact subqueryFree_leaf lexeme
  | node rule span children => cases h

theorem isLeaf_eq_of_hasRule {rule : Rule} {tree : Tree} (h : tree.hasRule rule) :
    tree.isLeaf = false := by
  cases tree with
  | leaf lexeme => cases h
  | node own span children => rfl

theorem isExpression_eq_of_hasRule {rule : Rule} {tree : Tree} (h : tree.hasRule rule) :
    tree.isExpression = rule.isExpression := by
  simp [isExpression, hasRule_iff.mp h]

/-! ### Parts that are tokens or expressions -/

/-- The tree is a token other than a placeholder, or an expression. -/
def isTokenOrExpression : Tree → Bool :=
  either (isTokenOf fun token => !isPlaceholder token) isExpression

/-- Only expressions and tokens other than placeholders pass the test. -/
def Plain (test : Tree → Bool) : Prop := ∀ tree, test tree → tree.isTokenOrExpression

theorem plain_bindsAt {level : Level} : Plain (bindsAt level) :=
  fun tree h => either_of_right _ tree (isExpression_of_bindsAt h)

theorem plain_isTokenOf {test : Token → Bool} (h : ∀ label, test (.placeholder label) = false) :
    Plain (isTokenOf test) := by
  intro tree htest
  obtain ⟨⟨token, span⟩, rfl, htoken⟩ := eq_leaf_of_isTokenOf htest
  refine either_of_left _ _ ?_
  cases token with
  | placeholder label => cases (h label).symm.trans htoken
  | _ => rfl

theorem plain_isWordLeaf {keyword : Keyword} : Plain (isWordLeaf keyword) :=
  plain_isTokenOf fun _ => rfl

theorem plain_isSymbolLeaf {symbol : Symbol} : Plain (isSymbolLeaf symbol) :=
  plain_isTokenOf fun _ => rfl

theorem plain_isStar : Plain isStar := by
  intro tree h
  unfold isStar at h
  split at h
  · rfl
  · cases h

variable {parts : List Tree}

/-- All parts are expressions, or tokens other than placeholders. -/
def PlainParts (parts : List Tree) : Prop := ∀ part ∈ parts, part.isTokenOrExpression

theorem plainParts_append {left right : List Tree} (hleft : PlainParts left)
    (hright : PlainParts right) : PlainParts (left ++ right) := by
  intro part hmem
  rcases List.mem_append.mp hmem with hmem | hmem
  · exact hleft part hmem
  · exact hright part hmem

theorem plainParts_of_row {tests : List (Tree → Bool)} (h : Row tests parts)
    (htests : tests.Forall Plain) : PlainParts parts := by
  intro part hmem
  obtain ⟨test, htest, hpart⟩ := exists_of_mem_right h hmem
  exact List.forall_iff_forall_mem.mp htests test htest part hpart

theorem plainParts_of_predicate {tests : List (Tree → Bool)} (h : Predicate tests parts)
    (htests : tests.Forall Plain) : PlainParts parts := by
  have hall := List.forall_iff_forall_mem.mp htests
  rcases h with h | h
  · refine plainParts_of_row h (List.forall_iff_forall_mem.mpr ?_)
    exact List.forall_mem_cons.mpr ⟨plain_bindsAt, hall⟩
  · refine plainParts_of_row h (List.forall_iff_forall_mem.mpr ?_)
    exact List.forall_mem_cons.mpr ⟨plain_bindsAt,
      List.forall_mem_cons.mpr ⟨plain_isWordLeaf, hall⟩⟩

/-- What holds of the separators and of the items holds of all parts. -/
theorem forall_mem_of_listed {P : Tree → Prop} {separator item : Tree → Bool}
    (h : Listed separator item parts) (hseparator : ∀ tree, separator tree → P tree)
    (hitem : ∀ tree, item tree → P tree) : ∀ part ∈ parts, P part := by
  obtain ⟨first, rest, rfl, hfirst, hrest⟩ := h
  refine List.forall_mem_cons.mpr ⟨hitem _ hfirst, ?_⟩
  induction hrest with
  | nil => simp
  | cons hmark hpart _ ih =>
    exact List.forall_mem_cons.mpr ⟨hseparator _ hmark,
      List.forall_mem_cons.mpr ⟨hitem _ hpart, ih⟩⟩

theorem plainParts_of_listed {separator item : Tree → Bool} (h : Listed separator item parts)
    (hseparator : Plain separator) (hitem : Plain item) : PlainParts parts :=
  forall_mem_of_listed h hseparator hitem

theorem plainParts_of_chain {operator : Token → Bool} {level : Level}
    (hoperator : ∀ label, operator (.placeholder label) = false)
    (h : Chain operator level parts) : PlainParts parts :=
  plainParts_of_listed h.1 (plain_isTokenOf hoperator) plain_bindsAt

theorem plainParts_of_enclosed {Inner : List Tree → Prop} (h : Enclosed Inner parts)
    (hinner : ∀ inner, Inner inner → PlainParts inner) : PlainParts parts := by
  obtain ⟨left, inner, right, rfl, hleft, hright, hparts⟩ := h
  refine List.forall_mem_cons.mpr ⟨plain_isSymbolLeaf _ hleft, ?_⟩
  refine plainParts_append (hinner inner hparts) fun part hmem => ?_
  obtain rfl := List.mem_singleton.mp hmem
  exact plain_isSymbolLeaf _ hright

theorem plainParts_of_expressions (h : Expressions parts) : PlainParts parts :=
  plainParts_of_listed h plain_isSymbolLeaf plain_bindsAt

theorem plainParts_of_arguments (h : Arguments parts) : PlainParts parts := by
  obtain ⟨quantifier, list, rfl, hquantifier, hlist⟩ := h
  refine plainParts_append ?_ ?_
  · rcases hquantifier with rfl | hquantifier
    · simp [PlainParts]
    · exact plainParts_of_row hquantifier plain_isWordLeaf
  · rcases hlist with rfl | hstar | hlist
    · simp [PlainParts]
    · exact plainParts_of_row hstar plain_isStar
    · exact plainParts_of_expressions hlist

theorem plainParts_of_allows {rule : Rule} (hplain : rule.hasPlainParts) (h : rule.Allows parts) :
    PlainParts parts := by
  have dotted {names : List Tree} (h : Dotted names) : PlainParts names :=
    plainParts_of_listed h plain_isSymbolLeaf (plain_isTokenOf fun _ => rfl)
  cases rule with
  | orExpr => exact plainParts_of_chain (fun _ => rfl) h
  | andExpr => exact plainParts_of_chain (fun _ => rfl) h
  | notExpr => exact plainParts_of_row h ⟨plain_isWordLeaf, plain_bindsAt⟩
  | bitwiseExpr => exact plainParts_of_chain (fun _ => rfl) h
  | comparisonExpr =>
    exact plainParts_of_row h ⟨plain_bindsAt, plain_isTokenOf fun _ => rfl, plain_bindsAt⟩
  | likeExpr =>
    rcases h with h | h
    · exact plainParts_of_predicate h ⟨plain_isWordLeaf, plain_bindsAt⟩
    · exact plainParts_of_predicate h
        ⟨plain_isWordLeaf, plain_bindsAt, plain_isWordLeaf, plain_bindsAt⟩
  | isNullExpr =>
    rcases h with h | h
    · exact plainParts_of_row h ⟨plain_bindsAt, plain_isWordLeaf, plain_isWordLeaf⟩
    · exact plainParts_of_row h
        ⟨plain_bindsAt, plain_isWordLeaf, plain_isWordLeaf, plain_isWordLeaf⟩
  | betweenExpr =>
    exact plainParts_of_predicate h
      ⟨plain_isWordLeaf, plain_bindsAt, plain_isWordLeaf, plain_bindsAt⟩
  | additiveExpr => exact plainParts_of_chain (fun _ => rfl) h
  | multiplicativeExpr => exact plainParts_of_chain (fun _ => rfl) h
  | unaryExpr => exact plainParts_of_row h ⟨plain_isTokenOf fun _ => rfl, plain_bindsAt⟩
  | parenExpr => exact plainParts_of_row h ⟨plain_isSymbolLeaf, plain_bindsAt, plain_isSymbolLeaf⟩
  | functionCall =>
    rcases h with h | ⟨name, arguments, rfl, hname, harguments⟩
    · exact plainParts_of_row h (plain_isTokenOf fun _ => rfl)
    · exact List.forall_mem_cons.mpr ⟨plain_isTokenOf (fun _ => rfl) _ hname,
        plainParts_of_enclosed harguments fun _ => plainParts_of_arguments⟩
  | literal => exact plainParts_of_row h (plain_isTokenOf fun _ => rfl)
  | columnName => exact dotted h
  | allColumns =>
    rcases h with h | ⟨names, last, rfl, hnames, hlast⟩
    · exact plainParts_of_row h plain_isSymbolLeaf
    · exact plainParts_append (dotted hnames)
        (plainParts_of_row hlast ⟨plain_isSymbolLeaf, plain_isSymbolLeaf⟩)
  | expressionList => exact plainParts_of_enclosed h fun _ => plainParts_of_expressions
  | _ => cases hplain

theorem free_of_plainParts (h : PlainParts parts)
    (hexpressions : ∀ part ∈ parts, part.isExpression → part.SubqueryFree) :
    ∀ part ∈ parts, part.SubqueryFree := by
  intro part hmem
  rcases Bool.or_eq_true_iff.mp (h part hmem) with htoken | hexpression
  · exact .of_isLeaf (isLeaf_of_isTokenOf htoken)
  · exact hexpressions part hmem hexpression

/-! ### How many parts are expressions -/

/-- At most so many parts that pass these tests in a row are expressions. -/
def AtMost (count : Nat) (tests : List (Tree → Bool)) : Prop :=
  ∀ parts, Row tests parts → parts.countP isExpression ≤ count

namespace AtMost

variable {count : Nat} {tests : List (Tree → Bool)}

theorem nil : AtMost 0 [] := by
  intro parts h
  rw [eq_nil_of_row h]
  rfl

theorem token {test : Token → Bool} (h : AtMost count tests) :
    AtMost count (isTokenOf test :: tests) := by
  intro parts hrow
  obtain ⟨lexeme, more, rfl, -, hmore⟩ := eq_leaf_of_row hrow
  simpa using h more hmore

theorem operand {test : Tree → Bool} (h : AtMost count tests) :
    AtMost (count + 1) (test :: tests) := by
  intro parts hrow
  obtain ⟨part, more, rfl, -, hmore⟩ := eq_cons_of_row hrow
  have hcount := h more hmore
  rw [List.countP_cons]
  split <;> omega

theorem predicate (h : AtMost count tests) {parts : List Tree} (hparts : Predicate tests parts) :
    parts.countP isExpression ≤ count + 1 := by
  rcases hparts with hrow | hrow
  · exact h.operand parts hrow
  · exact (token h).operand parts hrow

end AtMost

/-- In a dotted name stand tokens only. -/
theorem countP_of_dotted {parts : List Tree} (h : Dotted parts) :
    parts.countP isExpression = 0 := by
  have token {test : Token → Bool} (tree : Tree) (htoken : tree.isTokenOf test) :
      ¬tree.isExpression := by
    obtain ⟨lexeme, rfl, -⟩ := eq_leaf_of_isTokenOf htoken
    simp
  exact List.countP_eq_zero.mpr (forall_mem_of_listed h token token)

end Tree

namespace Build.Context

variable (context : Context)

/-! ### Values, constants and columns -/

theorem built_of_value {part : Part} {e : Expr} (h : context.value part = .ok e) :
    part.built = .ok e := by
  obtain ⟨built, hbuilt, h⟩ := bind_eq_ok.mp h
  split at h
  · exact absurd h reject_ne_ok
  · obtain rfl := pure_eq_ok.mp h
    exact hbuilt

theorem built_of_constant {what : String} {part : Part} {value : Constant}
    (h : context.constant what part = .ok value) :
    ∃ a, part.built = .ok (.constant a value) := by
  obtain ⟨built, hbuilt, h⟩ := bind_eq_ok.mp h
  split at h
  · obtain rfl := pure_eq_ok.mp h
    exact ⟨_, hbuilt⟩
  · exact absurd h refuse_ne_ok

theorem built_of_columnOperand {operator : String} {part : Part} {column : ColumnRef}
    (h : columnOperand operator part = .ok column) :
    ∃ a, part.built = .ok (.column a column) := by
  obtain ⟨built, hbuilt, h⟩ := bind_eq_ok.mp h
  split at h
  · obtain rfl := pure_eq_ok.mp h
    exact ⟨_, hbuilt⟩
  · exact absurd h refuse_ne_ok

end Build.Context

/-! ### What a node is composed of -/

/-- An expression, without its alias, and the expressions that it is composed of, in their order. A
subject of `BETWEEN` is one of them, though it is used twice. -/
inductive Composes : List Expr → Expr → Prop
  | disjunction {items : List Expr} {e : Expr} (h : balanced (.or none) items = some e) :
      Composes items e
  | conjunction {items : List Expr} {e : Expr} (h : balanced (.and none) items = some e) :
      Composes items e
  | negation (e : Expr) : Composes [e] e.complement
  | comparison (negated : Bool) (op : ComparisonOp) (l r : Expr) :
      Composes [l, r] (.compare none negated op l r)
  | isNull (a : Option String) (negated : Bool) (column : ColumnRef) :
      Composes [.column a column] (.isNull none negated column)
  | like (a b : Option String) (negated : Bool) (column : ColumnRef) (pattern : Constant) :
      Composes [.column a column, .constant b pattern] (.like none negated column pattern none)
  | likeEscape (a b d : Option String) (negated : Bool) (column : ColumnRef) (pattern : Constant)
      {value : Constant} {escape : Char} (h : Literal.character value = .ok escape) :
      Composes [.column a column, .constant b pattern, .constant d value]
        (.like none negated column pattern (some escape))
  | between (subject low high : Expr) :
      Composes [subject, low, high] <| .and none
        (.compare none false .greaterEqual subject low)
        (.compare none false .lessEqual subject high)
  | notBetween (subject low high : Expr) :
      Composes [subject, low, high] <| .or none
        (.compare none false .less subject low) (.compare none false .greater subject high)
  | arithmetic (first : Expr) (steps : List (String × ArithmeticOp × Expr)) :
      Composes (first :: steps.map fun step => step.2.2) <|
        steps.foldl (fun built step => .arithmetic (some step.1) step.2.1 built step.2.2) first
  | minus (e : Expr) :
      Composes [e] (.arithmetic none .subtract (.constant (some "0") (.int 0)) e)
  | same (e : Expr) : Composes [e] e
  | call (name : String) (arguments : List Expr) : Composes arguments (.call none name arguments)
  | aggregate (function : Aggregate) (distinct : Bool) (arguments : List Expr) :
      Composes arguments (.aggregate none function distinct arguments)
  | literal {value : Constant} (h : ∀ label, value ≠ .placeholder label) :
      Composes [] (.constant none value)
  | column (column : ColumnRef) : Composes [] (.column none column)
  | allColumns (table : Option TableRef) : Composes [] (.allColumns none table)

namespace Build.Context

variable (context : Context) {rule : Rule} {span : Span} {children : List Tree} {e : Expr}

/-- The trees build these expressions, each of them one. -/
abbrev BuildsAll (trees : List Tree) (items : List Expr) : Prop :=
  List.Forall₂ (fun tree e => context.expression tree = .ok e) trees items

/-- All operands of the node are built, and the expression is composed of what they build. -/
def Composed (children : List Tree) (e : Expr) : Prop :=
  ∃ items, context.BuildsAll (children.filter Tree.isExpression) items ∧ Composes items e

/-- The operands of a node from a place on build these expressions. -/
def BuildsFrom (node : Node) : Nat → List Expr → Prop
  | _, [] => True
  | n, e :: items =>
      (∃ part, node.operand n = .ok part ∧ part.built = .ok e) ∧ BuildsFrom node (n + 1) items

/-- Where no more operands stand than are built, these are all. -/
theorem buildsAll_of_buildsFrom {n : Nat} {items : List Expr}
    (hcount : children.countP Tree.isExpression ≤ n + items.length)
    (h : BuildsFrom (context.nodeOf rule span children) n items) :
    context.BuildsAll ((children.filter Tree.isExpression).drop n) items := by
  induction items generalizing n with
  | nil =>
    rw [List.countP_eq_length_filter, List.length_nil, Nat.add_zero] at hcount
    rw [List.drop_of_length_le hcount]
    exact .nil
  | cons e items ih =>
    obtain ⟨⟨part, hpart, hbuilt⟩, hrest⟩ := h
    simp only [Node.operand, require_eq_ok, nodeOf_operands, List.getElem?_map,
      Option.map_eq_some_iff] at hpart
    obtain ⟨tree, htree, rfl⟩ := hpart
    obtain ⟨hn, hget⟩ := List.getElem?_eq_some_iff.mp htree
    rw [List.drop_eq_getElem_cons hn, hget]
    refine .cons hbuilt (ih ?_ hrest)
    rw [List.length_cons] at hcount
    omega

/-- The operands that are looked up one by one are all there are. -/
theorem composed_of_buildsFrom (items : List Expr)
    (hcount : children.countP Tree.isExpression ≤ items.length)
    (h : BuildsFrom (context.nodeOf rule span children) 0 items) (hcomposes : Composes items e) :
    context.Composed children e :=
  ⟨items, context.buildsAll_of_buildsFrom (by simpa using hcount) h, hcomposes⟩

/-- Where nothing but tokens stands, there is nothing to be built. -/
theorem composed_of_tokens (hcount : children.countP Tree.isExpression ≤ 0)
    (hcomposes : Composes [] e) : context.Composed children e := by
  have none : children.filter Tree.isExpression = [] := by
    rwa [List.countP_eq_length_filter, Nat.le_zero, List.length_eq_zero_iff] at hcount
  exact ⟨[], by rw [none]; exact .nil, hcomposes⟩

theorem composed_of_logical {combine : Expr → Expr → Expr}
    (hcomposes : ∀ items, balanced combine items = some e → Composes items e)
    (h : (context.nodeOf rule span children).logical combine = .ok e) :
    context.Composed children e := by
  obtain ⟨items, hitems, hbalanced⟩ := context.operands_of_logical h
  exact ⟨items, hitems.imp fun _ _ hitem => hitem.1, hcomposes items hbalanced⟩

theorem composed_of_comparison (hcount : children.countP Tree.isExpression ≤ 2)
    (h : (context.nodeOf rule span children).comparison context = .ok e) :
    context.Composed children e := by
  simp only [Node.comparison, bind_eq_ok, pure_eq_ok] at h
  obtain ⟨left, hleft, _, hvalue, right, hright, _, hother, _, -, rfl⟩ := h
  exact context.composed_of_buildsFrom [_, _] hcount
    ⟨⟨left, hleft, context.built_of_value hvalue⟩,
      ⟨right, hright, context.built_of_value hother⟩, trivial⟩ (.comparison ..)

theorem composed_of_isNull (hcount : children.countP Tree.isExpression ≤ 1)
    (h : (context.nodeOf rule span children).isNull = .ok e) : context.Composed children e := by
  simp only [Node.isNull, bind_eq_ok, pure_eq_ok] at h
  obtain ⟨part, hpart, column, hcolumn, rfl⟩ := h
  obtain ⟨a, hbuilt⟩ := built_of_columnOperand hcolumn
  exact context.composed_of_buildsFrom [_] hcount ⟨⟨part, hpart, hbuilt⟩, trivial⟩ (.isNull ..)

theorem composed_of_between (hcount : children.countP Tree.isExpression ≤ 3)
    (h : (context.nodeOf rule span children).between context = .ok e) :
    context.Composed children e := by
  simp only [Node.between, bind_eq_ok] at h
  obtain ⟨_, hfirst, subject, hsubject, _, hsecond, low, hlow, _, hthird, high, hhigh, h⟩ := h
  refine context.composed_of_buildsFrom [subject, low, high] hcount
    ⟨⟨_, hfirst, context.built_of_value hsubject⟩, ⟨_, hsecond, context.built_of_value hlow⟩,
      ⟨_, hthird, context.built_of_value hhigh⟩, trivial⟩ ?_
  split at h
  · obtain rfl := pure_eq_ok.mp h
    exact .notBetween ..
  · obtain rfl := pure_eq_ok.mp h
    exact .between ..

/-- A third operand of `LIKE` stands only after an `ESCAPE`. -/
theorem countP_of_like (rule : Rule) (span : Span) (hallows : Rule.likeExpr.Allows children) :
    children.countP Tree.isExpression ≤
      if (context.nodeOf rule span children).hasKeyword .ESCAPE then 3 else 2 := by
  rcases hallows with hrow | hrow
  · have hcount := AtMost.nil.operand.token.predicate hrow
    split <;> omega
  · have hescape : (context.nodeOf rule span children).hasKeyword .ESCAPE := by
      rw [Node.hasKeyword, nodeOf_trees]
      refine (any_leaves (isKeyword .ESCAPE) children).trans (List.any_eq_true.mpr ?_)
      rcases hrow with hrow | hrow
      all_goals exact exists_of_mem_right hrow.flip (by simp [isWordLeaf])
    rw [if_pos hescape]
    exact AtMost.nil.operand.token.operand.token.predicate hrow

theorem composed_of_like (hallows : Rule.likeExpr.Allows children)
    (h : (context.nodeOf rule span children).like context = .ok e) :
    context.Composed children e := by
  have hcount := context.countP_of_like rule span hallows
  simp only [Node.like, bind_eq_ok] at h
  obtain ⟨_, hfirst, column, hcolumn, _, hsecond, pattern, hpattern, h⟩ := h
  obtain ⟨a, hcolumn⟩ := built_of_columnOperand hcolumn
  obtain ⟨b, hpattern⟩ := context.built_of_constant hpattern
  split at h
  · rename_i hkeyword
    rw [if_pos hkeyword] at hcount
    simp only [bind_eq_ok, pure_eq_ok, Built.ofMeaning, mapError_eq_ok] at h
    obtain ⟨_, hthird, _, hvalue, c, hcharacter, _, rfl, rfl⟩ := h
    obtain ⟨d, hvalue⟩ := context.built_of_constant hvalue
    exact context.composed_of_buildsFrom [_, _, _] hcount
      ⟨⟨_, hfirst, hcolumn⟩, ⟨_, hsecond, hpattern⟩, ⟨_, hthird, hvalue⟩, trivial⟩
      (.likeEscape a b d _ column pattern hcharacter)
  · rename_i hkeyword
    rw [if_neg hkeyword] at hcount
    simp only [bind_eq_ok, pure_eq_ok] at h
    obtain ⟨_, rfl, rfl⟩ := h
    exact context.composed_of_buildsFrom [_, _] hcount
      ⟨⟨_, hfirst, hcolumn⟩, ⟨_, hsecond, hpattern⟩, trivial⟩ (.like ..)

theorem composed_of_call (h : (context.nodeOf rule span children).call context = .ok e) :
    context.Composed children e := by
  simp only [Node.call, bind_eq_ok, nodeOf_operands, List.mapM_map] at h
  obtain ⟨leaf, -, arguments, harguments, h⟩ := h
  refine ⟨arguments, (forall₂_of_mapM_eq_ok harguments).imp fun _ _ => context.built_of_value, ?_⟩
  split at h
  · exact absurd h reject_ne_ok
  · split at h
    · obtain rfl := pure_eq_ok.mp h
      exact .aggregate ..
    · split at h
      · exact absurd h reject_ne_ok
      · obtain rfl := pure_eq_ok.mp h
        exact .call ..

/-- Each operand of a chain of arithmetic is a step from what has been built before it. -/
theorem steps_of_arithmeticFrom {operator : Token → Bool} {level : Level} {trees : List Tree}
    (hlinks : Links (isTokenOf operator) (bindsAt level) trees) {node : Node} {start : Span}
    {first : Expr} (h : node.arithmeticFrom context start first (trees.map context.part) = .ok e) :
    ∃ steps : List (String × ArithmeticOp × Expr),
      context.BuildsAll (trees.filter Tree.isExpression) (steps.map fun step => step.2.2) ∧
      e = steps.foldl (fun built step => .arithmetic (some step.1) step.2.1 built step.2.2)
        first := by
  induction hlinks generalizing start first with
  | nil =>
    obtain rfl : first = e := by simpa [Node.arithmeticFrom] using h
    exact ⟨[], .nil, rfl⟩
  | @cons mark operand trees hmark hoperand _ ih =>
    simp only [List.map_cons, Node.arithmeticFrom, bind_eq_ok] at h
    obtain ⟨right, hright, op, -, h⟩ := h
    obtain ⟨steps, hsteps, rfl⟩ := ih h
    obtain ⟨lexeme, rfl, -⟩ := eq_leaf_of_isTokenOf hmark
    refine ⟨(_, op, right) :: steps, ?_, rfl⟩
    rw [List.filter_cons_of_neg (by simp),
      List.filter_cons_of_pos (isExpression_of_bindsAt hoperand)]
    exact .cons (context.built_of_value hright) hsteps

theorem composed_of_arithmetic {operator : Token → Bool} {level : Level}
    (hchain : Chain operator level children)
    (h : (context.nodeOf rule span children).arithmetic context = .ok e) :
    context.Composed children e := by
  obtain ⟨⟨first, rest, rfl, hfirst, hlinks⟩, -⟩ := hchain
  unfold Node.arithmetic at h
  simp only [nodeOf, parts_eq_map, List.map_cons, bind_eq_ok] at h
  obtain ⟨value, hvalue, h⟩ := h
  obtain ⟨steps, hsteps, rfl⟩ := context.steps_of_arithmeticFrom hlinks h
  refine ⟨value :: steps.map fun step => step.2.2, ?_, .arithmetic value steps⟩
  rw [List.filter_cons_of_pos (isExpression_of_bindsAt hfirst)]
  exact .cons (context.built_of_value hvalue) hsteps

theorem not_placeholder_of_number {reader : Decimal.Reader} {negative : Bool} {text : String}
    {value : Constant} (h : Literal.numberBy reader negative text = .ok value) (label : String) :
    value ≠ .placeholder label := by
  simp only [Literal.numberBy] at h
  split at h
  · cases h
    simp
  · obtain ⟨_, -, rfl⟩ := map_eq_ok.mp h
    simp

theorem not_placeholder_of_string {decoder : Literal.HexDecoder} {body : String}
    {kind : StringKind} {escapes : Bool} {value : Constant}
    (h : Literal.stringBy decoder body kind escapes = .ok value) (label : String) :
    value ≠ .placeholder label := by
  unfold Literal.stringBy at h
  split at h
  · obtain ⟨_, -, rfl⟩ := map_eq_ok.mp h
    simp
  · cases h
    simp

theorem not_placeholder_of_literal {token : Option Token} {value : Constant}
    (h : context.literal rule token = .ok value) (label : String) : value ≠ .placeholder label := by
  have bytes {digits : String}
      (h : (Literal.hexBy context.hexDigits digits).map Constant.binary = .ok value) :
      value ≠ .placeholder label := by
    obtain ⟨_, -, rfl⟩ := map_eq_ok.mp h
    simp
  unfold literal at h
  split at h
  · exact not_placeholder_of_number (mapError_eq_ok.mp h) label
  · exact bytes (mapError_eq_ok.mp h)
  · exact bytes (mapError_eq_ok.mp h)
  · exact not_placeholder_of_string (mapError_eq_ok.mp h) label
  · cases h
    simp
  · cases h
    simp
  · cases h
    simp
  · exact absurd h reject_ne_ok

/-- The expression is a number that has been read with the sign before it. What the number builds
on its own is not known. -/
def SignedNumber (children : List Tree) (e : Expr) : Prop :=
  ∃ sign operand text value, children = [.leaf sign, operand] ∧
    Node.numberText? operand = some text ∧
    Literal.numberBy context.decimals true text = .ok value ∧ e = .constant none value

theorem composed_of_signed (hallows : Rule.unaryExpr.Allows children)
    (h : (context.nodeOf rule span children).signed context = .ok e) :
    context.Composed children e ∨ context.SignedNumber children e := by
  obtain ⟨sign, more, rfl, -, hmore⟩ := eq_leaf_of_row hallows
  obtain ⟨operand, more, rfl, hoperand, hnil⟩ := eq_cons_of_row hmore
  obtain rfl := eq_nil_of_row hnil
  have hexpression := isExpression_of_bindsAt hoperand
  have composed {item : Expr} (hvalue : context.value (context.part operand) = .ok item)
      (hcomposes : Composes [item] e) : context.Composed [.leaf sign, operand] e := by
    have hbuilt : context.expression operand = .ok item := context.built_of_value hvalue
    exact ⟨[item], by simpa [hexpression] using hbuilt, hcomposes⟩
  obtain ⟨inner, hinner, h⟩ := bind_eq_ok.mp h
  obtain rfl : context.part operand = inner := by
    simpa [Node.operand, require_eq_ok, hexpression] using hinner
  split at h
  · rename_i hnumber
    obtain ⟨value, hvalue, h⟩ := bind_eq_ok.mp h
    exact .inr ⟨sign, operand, _, value, rfl, hnumber, mapError_eq_ok.mp hvalue,
      (pure_eq_ok.mp h).symm⟩
  · obtain ⟨item, hvalue, h⟩ := bind_eq_ok.mp h
    obtain rfl := pure_eq_ok.mp h
    exact .inl (composed hvalue (.minus item))
  · exact .inl (composed h (.same e))

/-- **An expression is composed of what the operands of its node build**, all of them, unless it is
a number with its sign. -/
theorem composed_of_bare (hplain : rule.hasPlainParts) (hallows : rule.Allows children)
    (h : (context.nodeOf rule span children).bare context = .ok e) :
    context.Composed children e ∨ context.SignedNumber children e := by
  unfold Node.bare at h
  rw [nodeOf_rule] at h
  cases rule with
  | orExpr => exact .inl (context.composed_of_logical (fun _ => .disjunction) h)
  | andExpr => exact .inl (context.composed_of_logical (fun _ => .conjunction) h)
  | notExpr =>
    simp only [bind_eq_ok] at h
    obtain ⟨part, hpart, inner, hinner, h⟩ := h
    obtain ⟨-, rfl⟩ := complement_of_negate h
    have hcount : AtMost 1 [isWordLeaf .NOT, bindsAt .negation] := AtMost.nil.operand.token
    exact .inl (context.composed_of_buildsFrom [inner] (hcount _ hallows)
      ⟨⟨part, hpart, hinner⟩, trivial⟩ (.negation inner))
  | bitwiseExpr => exact absurd h refuse_ne_ok
  | comparisonExpr =>
    have hcount : AtMost 2 [bindsAt .sum, isTokenOf isComparisonSign, bindsAt .sum] :=
      AtMost.nil.operand.token.operand
    exact .inl (context.composed_of_comparison (hcount _ hallows) h)
  | likeExpr => exact .inl (context.composed_of_like hallows h)
  | isNullExpr =>
    have hcount : children.countP Tree.isExpression ≤ 1 := by
      rcases hallows with hrow | hrow
      · exact AtMost.nil.token.token.operand _ hrow
      · exact AtMost.nil.token.token.token.operand _ hrow
    exact .inl (context.composed_of_isNull hcount h)
  | betweenExpr =>
    have hcount := AtMost.nil.operand.token.operand.token.predicate hallows
    exact .inl (context.composed_of_between hcount h)
  | additiveExpr => exact .inl (context.composed_of_arithmetic hallows h)
  | multiplicativeExpr => exact .inl (context.composed_of_arithmetic hallows h)
  | unaryExpr => exact context.composed_of_signed hallows h
  | parenExpr =>
    obtain ⟨part, hpart, hbuilt⟩ := bind_eq_ok.mp h
    have hcount : AtMost 1 [isSymbolLeaf .leftParen, bindsAt .disjunction,
        isSymbolLeaf .rightParen] := AtMost.nil.token.operand.token
    exact .inl (context.composed_of_buildsFrom [e] (hcount _ hallows)
      ⟨⟨part, hpart, hbuilt⟩, trivial⟩ (.same e))
  | functionCall => exact .inl (context.composed_of_call h)
  | literal =>
    obtain ⟨value, hvalue, h⟩ := bind_eq_ok.mp h
    obtain rfl := pure_eq_ok.mp h
    exact .inl (context.composed_of_tokens (AtMost.nil.token _ hallows)
      (.literal (context.not_placeholder_of_literal hvalue)))
  | columnName =>
    obtain ⟨column, -, h⟩ := bind_eq_ok.mp h
    obtain rfl := pure_eq_ok.mp h
    exact .inl (context.composed_of_tokens (countP_of_dotted hallows).le (.column column))
  | allColumns =>
    have hcount : children.countP Tree.isExpression ≤ 0 := by
      rcases hallows with hrow | ⟨names, last, rfl, hnames, hlast⟩
      · exact AtMost.nil.token _ hrow
      · rw [List.countP_append, countP_of_dotted hnames, Nat.zero_add]
        exact AtMost.nil.token.token _ hlast
    refine .inl (context.composed_of_tokens hcount ?_)
    simp only [Node.allColumns] at h
    split at h
    · cases h
      exact .allColumns none
    · obtain ⟨table, -, h⟩ := bind_eq_ok.mp h
      obtain rfl := pure_eq_ok.mp h
      exact .allColumns (some table)
  | expressionList => exact absurd h reject_ne_ok
  | _ => cases hplain

/-- Words that are no placeholders stand between the operand of `IN` and its list. -/
theorem parts_of_inExpr (h : Rule.inExpr.Allows children) :
    ∃ left words last, children = left :: (words ++ [last]) ∧ left.isExpression ∧
      (∀ word ∈ words, word.isTokenOf fun token => !isPlaceholder token) ∧
      either (hasRule .subquery) (hasRule .expressionList) last := by
  rcases h with h | h
  · obtain ⟨left, _, rfl, hleft, hrest⟩ := eq_cons_of_row h
    obtain ⟨span, more, rfl, hmore⟩ := eq_word_of_row hrest
    obtain ⟨last, _, rfl, hlast, hnil⟩ := eq_cons_of_row hmore
    obtain rfl := eq_nil_of_row hnil
    exact ⟨left, [_], last, rfl, isExpression_of_bindsAt hleft, by simp [isPlaceholder], hlast⟩
  · obtain ⟨left, _, rfl, hleft, hrest⟩ := eq_cons_of_row h
    obtain ⟨span, more, rfl, hmore⟩ := eq_word_of_row hrest
    obtain ⟨span', others, rfl, hothers⟩ := eq_word_of_row hmore
    obtain ⟨last, _, rfl, hlast, hnil⟩ := eq_cons_of_row hothers
    obtain rfl := eq_nil_of_row hnil
    exact ⟨left, [_, _], last, rfl, isExpression_of_bindsAt hleft, by simp [isPlaceholder], hlast⟩

/-- The operand of `IN` is a column, and the list that is looked into is the last part. -/
theorem built_of_inList {e : Expr} (hallows : Rule.inExpr.Allows children)
    (h : (context.nodeOf rule span children).inList context = .ok e) :
    ∃ left words list a negated column values, children = left :: (words ++ [list]) ∧
      (∀ word ∈ words, word.isTokenOf fun token => !isPlaceholder token) ∧
      list.hasRule .expressionList ∧ context.expression left = .ok (.column a column) ∧
      ((context.parts list.children).filter fun part => part.tree.isExpression).mapM
        (context.constant "an IN list value") = .ok values ∧
      e = .inList none negated column values := by
  obtain ⟨left, words, last, rfl, hleft, hwords, hlast⟩ := parts_of_inExpr hallows
  simp only [Node.inList, bind_eq_ok, nodeOf_trees] at h
  obtain ⟨first, hfirst, column, hcolumn, h⟩ := h
  split at h
  · obtain ⟨_, refused, -⟩ := bind_eq_ok.mp h
    exact absurd refused refuse_ne_ok
  rename_i hnone
  simp only [bind_eq_ok, require_eq_ok, pure_eq_ok] at h
  obtain ⟨members, hfound, values, hvalues, rfl⟩ := h
  have hfound := (context.members_eq_map _).symm.trans hfound
  obtain ⟨list, hlist, rfl⟩ := Option.map_eq_some_iff.mp hfound
  have hmem := List.mem_of_find?_eq_some hlist
  have hrule := List.find?_some hlist
  obtain rfl : context.part left = first := by
    simpa [Node.operand, require_eq_ok, hleft] using hfirst
  obtain ⟨a, hbuilt⟩ := built_of_columnOperand hcolumn
  -- neither the operand nor a word is a list
  obtain rfl : list = last := by
    rcases List.mem_cons.mp hmem with rfl | hmem
    · cases (isExpression_eq_of_hasRule hrule).symm.trans hleft
    · rcases List.mem_append.mp hmem with hmem | hmem
      · cases (isLeaf_eq_of_hasRule hrule).symm.trans (isLeaf_of_isTokenOf (hwords list hmem))
      · exact List.mem_singleton.mp hmem
  exact ⟨left, words, list, a, _, column, values, rfl, hwords, hrule, hbuilt, hvalues, rfl⟩

/-! ### No query among the parts -/

/-- Whatever the tree builds, it holds no query. -/
def BuildsFree (tree : Tree) : Prop := ∀ e, context.expression tree = .ok e → tree.SubqueryFree

theorem free_of_composed (hplain : PlainParts children)
    (hfree : ∀ child ∈ children, context.BuildsFree child) (h : context.Composed children e) :
    ∀ child ∈ children, child.SubqueryFree := by
  obtain ⟨items, hitems, -⟩ := h
  refine free_of_plainParts hplain fun child hmem hexpression => ?_
  obtain ⟨item, -, hitem⟩ :=
    exists_of_mem_right hitems.flip (List.mem_filter.mpr ⟨hmem, hexpression⟩)
  exact hfree child hmem item hitem

/-- The tree of a number is a single token. -/
theorem free_of_numberText {tree : Tree} {text : String} (h : tree.IsDerivation)
    (hnumber : Node.numberText? tree = some text) : tree.SubqueryFree := by
  unfold Node.numberText? at hnumber
  split at hnumber
  · cases h with
    | node _ hallows _ =>
      obtain ⟨lexeme, more, heq, -, hmore⟩ := eq_leaf_of_row hallows
      rw [heq, eq_nil_of_row hmore, subqueryFree_node]
      exact ⟨by simp, by simpa using subqueryFree_leaf lexeme⟩
  · cases hnumber

theorem free_of_signedNumber (hderived : ∀ child ∈ children, child.IsDerivation)
    (h : context.SignedNumber children e) : ∀ child ∈ children, child.SubqueryFree := by
  obtain ⟨sign, operand, text, value, rfl, hnumber, -, -⟩ := h
  have hoperand := free_of_numberText (hderived operand (by simp)) hnumber
  simpa using ⟨subqueryFree_leaf sign, hoperand⟩

/-- The members of a list are built, and so they hold no query. -/
theorem free_of_expressionList {what : String} {list : Tree} {values : List Constant}
    (hlist : list.IsDerivation) (hrule : list.hasRule .expressionList)
    (hmembers : ∀ member ∈ list.children, context.BuildsFree member)
    (h : ((context.parts list.children).filter fun part => part.tree.isExpression).mapM
      (context.constant what) = .ok values) : list.SubqueryFree := by
  cases hlist with
  | leaf => exact subqueryFree_leaf _
  | @node rule span children _ hallows _ =>
    obtain rfl : rule = .expressionList := by simpa [hasRule_iff, rule?] using hrule
    rw [subqueryFree_node]
    refine ⟨by simp, free_of_plainParts (plainParts_of_allows rfl hallows)
      fun member hmem hexpression => ?_⟩
    have hpart : context.part member ∈
        (context.parts children).filter fun part => part.tree.isExpression := by
      simpa [parts_eq_map, part, hexpression] using hmem
    obtain ⟨value, -, hvalue⟩ := exists_of_mem_right (forall₂_of_mapM_eq_ok h).flip hpart
    obtain ⟨built, hbuilt, -⟩ := bind_eq_ok.mp hvalue
    exact hmembers member hmem built hbuilt

theorem free_of_inList (hfree : ∀ child ∈ children, context.BuildsFree child)
    (hderived : ∀ child ∈ children, child.IsDerivation)
    (hmembers : ∀ list ∈ children, ∀ member ∈ list.children, context.BuildsFree member)
    (hallows : Rule.inExpr.Allows children)
    (h : (context.nodeOf rule span children).inList context = .ok e) :
    ∀ child ∈ children, child.SubqueryFree := by
  obtain ⟨left, words, list, a, _, column, values, rfl, hwords, hrule, hbuilt, hvalues, -⟩ :=
    context.built_of_inList hallows h
  refine List.forall_mem_cons.mpr ⟨hfree left (by simp) _ hbuilt, fun child hchild => ?_⟩
  rcases List.mem_append.mp hchild with hchild | hchild
  · exact .of_isLeaf (isLeaf_of_isTokenOf (hwords child hchild))
  · obtain rfl := List.mem_singleton.mp hchild
    exact context.free_of_expressionList (hderived child (by simp)) hrule
      (hmembers child (by simp)) hvalues

/-- **The parts of an expression that is built hold no query**, when what they build holds none. -/
theorem free_of_bare (hrule : rule.isExpression) (hallows : rule.Allows children)
    (hderived : ∀ child ∈ children, child.IsDerivation)
    (hfree : ∀ child ∈ children, context.BuildsFree child)
    (hmembers : ∀ list ∈ children, ∀ member ∈ list.children, context.BuildsFree member)
    (h : (context.nodeOf rule span children).bare context = .ok e) :
    rule ≠ .subquery ∧ ∀ child ∈ children, child.SubqueryFree := by
  by_cases hplain : rule.hasPlainParts
  · have hsubquery : rule ≠ .subquery := by
      rintro rfl
      cases hplain
    refine ⟨hsubquery, ?_⟩
    rcases context.composed_of_bare hplain hallows h with hcomposed | hnumber
    · exact context.free_of_composed (plainParts_of_allows hplain hallows) hfree hcomposed
    · exact context.free_of_signedNumber hderived hnumber
  · unfold Node.bare at h
    rw [nodeOf_rule] at h
    cases rule with
    | inExpr => exact ⟨by simp, context.free_of_inList hfree hderived hmembers hallows h⟩
    | placeholder =>
      obtain ⟨lexeme, more, rfl, -, hmore⟩ := eq_leaf_of_row hallows
      rw [eq_nil_of_row hmore]
      exact ⟨by simp, by simpa using subqueryFree_leaf lexeme⟩
    | subquery => exact absurd h refuse_ne_ok
    | _ => first | exact absurd rfl hplain | cases hrule

/-- Only the productions of expressions build one. -/
theorem isExpression_of_expression {e : Expr}
    (h : context.expression (.node rule span children) = .ok e) : rule.isExpression := by
  rw [expression] at h
  split at h
  · assumption
  · exact absurd h reject_ne_ok

/-- **An expression that is built holds no query.** -/
theorem subqueryFree_of_expression (tree : Tree) {e : Expr} (hderived : tree.IsDerivation)
    (h : context.expression tree = .ok e) : tree.SubqueryFree := by
  induction tree using Tree.induct_inside generalizing e with
  | step tree ih =>
    cases tree with
    | leaf lexeme => exact subqueryFree_leaf lexeme
    | node rule span children =>
      cases hderived with
      | node _ hallows hparts =>
        -- the members of a list are grandchildren
        have hfree : ∀ child ∈ children, ∀ inner, inner.Inside child → context.BuildsFree inner :=
          fun child hmem inner hinside e he =>
            ih child hmem inner hinside ((hparts child hmem).inside hinside) he
        obtain ⟨bare, -, hbare, -⟩ := context.bare_of_expression h
        rw [subqueryFree_node]
        exact context.free_of_bare (context.isExpression_of_expression h) hallows hparts
          (fun child hmem => hfree child hmem child .self)
          (fun list hlist member hmem => hfree list hlist member (.of_mem hmem)) hbare

end Build.Context

end SqlFront
