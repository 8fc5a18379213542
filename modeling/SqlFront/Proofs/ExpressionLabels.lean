import SqlFront.Proofs.BuiltOperands
import SqlFront.Proofs.Labels

/-!
Expressions have the labels of the trees that they are built from.

An expression is composed of what the operands of its node build, and nothing is left out and
nothing but words, signs and names stands beside them: so it has their labels. Apart are the list
that is looked into for `IN`, whose members are kept as constants, and the placeholder, which is a
label itself.
-/

namespace SqlFront

open SqlFront.Tree Grammar Build

namespace Tree

/-- Whatever is built from the tree has its labels. -/
def KeepsLabels {α : Type} (build : Tree → Built α) (labelsIn : α → List String) (tree : Tree) :
    Prop :=
  ∀ result, build tree = .ok result → SameLabels (labelsIn result) tree.labels

/-- Trees that are all built, and whose results are all kept. -/
theorem sameLabels_of_built {α : Type} {build : Tree → Built α} {labelsIn : α → List String}
    {trees : List Tree} {results : List α}
    (hkeeps : ∀ tree ∈ trees, tree.KeepsLabels build labelsIn)
    (hbuilt : List.Forall₂ (fun tree result => build tree = .ok result) trees results) :
    SameLabels (results.flatMap labelsIn) (labelsOf trees) := by
  have kept := (List.forall₂_and_left _ _).mpr ⟨hkeeps, hbuilt⟩
  exact .flatMap (kept.imp fun _ _ h => h.1 _ h.2).flip

/-- Trees without labels can be left out. -/
theorem labelsOf_filter {test : Tree → Bool} {trees : List Tree}
    (h : ∀ tree ∈ trees, test tree = true ∨ tree.labels = []) :
    labelsOf (trees.filter test) = labelsOf trees := by
  induction trees with
  | nil => rfl
  | cons tree trees ih =>
    obtain ⟨first, others⟩ := List.forall_mem_cons.mp h
    rw [List.filter_cons]
    split
    · rw [labelsOf_cons, labelsOf_cons, ih others]
    · rename_i htest
      rw [labelsOf_cons, first.resolve_left htest, ih others, List.nil_append]

theorem labels_of_isTokenOf {test : Token → Bool} (h : ∀ label, test (.placeholder label) = false)
    {tree : Tree} (htree : tree.isTokenOf test) : tree.labels = [] := by
  obtain ⟨⟨token, span⟩, rfl, htoken⟩ := eq_leaf_of_isTokenOf htree
  cases token with
  | placeholder label => cases (h label).symm.trans htoken
  | _ => rw [labels_leaf]; rfl

theorem labelsOf_of_plainParts {parts : List Tree} (h : PlainParts parts) :
    labelsOf (parts.filter isExpression) = labelsOf parts := by
  refine labelsOf_filter fun part hmem => ?_
  rcases Bool.or_eq_true_iff.mp (h part hmem) with htoken | hexpression
  · exact .inr (labels_of_isTokenOf (fun _ => rfl) htoken)
  · exact .inl hexpression

end Tree

/-! ### What an expression is composed of -/

theorem labels_of_not_placeholder {value : Constant} (h : ∀ label, value ≠ .placeholder label) :
    value.labels = [] := by
  cases value with
  | placeholder label => exact absurd rfl (h label)
  | _ => rfl

/-- A character to escape with is no parameter. -/
theorem labels_of_character {value : Constant} {c : Char} (h : Literal.character value = .ok c) :
    value.labels = [] := by
  unfold Literal.character at h
  split at h
  · rfl
  · cases h

theorem labels_of_steps (first : Expr) (steps : List (String × ArithmeticOp × Expr)) :
    (steps.foldl (fun built step => .arithmetic (some step.1) step.2.1 built step.2.2)
      first).labels = first.labels ++ (steps.map fun step => step.2.2).flatMap Expr.labels := by
  induction steps generalizing first with
  | nil => simp
  | cons step steps ih => simp [ih, Expr.labels]

/-- **An expression has the labels of what it is composed of.** The subject of `BETWEEN` is used
twice, which changes none of them. -/
theorem sameLabels_of_composes {items : List Expr} {e : Expr} (h : Composes items e) :
    SameLabels e.labels (items.flatMap Expr.labels) := by
  cases h with
  | disjunction h => exact .of_eq (collect_balanced (fun _ _ => by rw [Expr.labels]) h)
  | conjunction h => exact .of_eq (collect_balanced (fun _ _ => by rw [Expr.labels]) h)
  | negation e => exact .of_eq (by simp)
  | comparison => exact .of_eq (by simp [Expr.labels])
  | isNull => exact .of_eq (by simp [Expr.labels])
  | like => exact .of_eq (by simp [Expr.labels])
  | likeEscape a b d negated column pattern h =>
    exact .of_eq (by simp [Expr.labels, labels_of_character h])
  | between | notBetween =>
    intro label
    simp only [Expr.labels, List.flatMap_cons, List.flatMap_nil, List.append_nil, List.mem_append]
    tauto
  | arithmetic first steps => exact .of_eq (by rw [labels_of_steps, List.flatMap_cons])
  | minus e => exact .of_eq (by simp [Expr.labels, Constant.labels])
  | same e => exact .of_eq (by simp)
  | call => exact .of_eq (by rw [Expr.labels, Expr.labelsOfAll_eq])
  | aggregate => exact .of_eq (by rw [Expr.labels, Expr.labelsOfAll_eq])
  | literal h => exact .of_eq (labels_of_not_placeholder h)
  | column => exact .refl []
  | allColumns => exact .refl []

namespace Build.Context

variable (context : Context) {rule : Rule} {span : Span} {children : List Tree} {e : Expr}

/-- The expression that a tree builds has its labels. -/
abbrev KeepsExpression (tree : Tree) : Prop := tree.KeepsLabels context.expression Expr.labels

theorem sameLabels_of_composed (hplain : PlainParts children)
    (hkeeps : ∀ child ∈ children, context.KeepsExpression child)
    (h : context.Composed children e) : SameLabels e.labels (labelsOf children) := by
  obtain ⟨items, hbuilt, hcomposes⟩ := h
  rw [← labelsOf_of_plainParts hplain]
  exact (sameLabels_of_composes hcomposes).trans (sameLabels_of_built
    (fun tree hmem => hkeeps tree (List.mem_of_mem_filter hmem)) hbuilt)

/-- The tree of a number is a single token. -/
theorem labels_of_numberText {tree : Tree} {text : String} (h : tree.IsDerivation)
    (hnumber : Node.numberText? tree = some text) : tree.labels = [] := by
  unfold Node.numberText? at hnumber
  split at hnumber
  · cases h with
    | node _ hallows _ =>
      obtain ⟨lexeme, more, heq, -, hmore⟩ := eq_leaf_of_row hallows
      obtain ⟨-, rfl⟩ := List.cons.inj heq
      rw [eq_nil_of_row hmore]
      rfl
  · cases hnumber

theorem sameLabels_of_signedNumber (hplain : PlainParts children)
    (hderived : ∀ child ∈ children, child.IsDerivation) (h : context.SignedNumber children e) :
    SameLabels e.labels (labelsOf children) := by
  obtain ⟨sign, operand, text, value, rfl, hnumber, hvalue, rfl⟩ := h
  have none : labelsOf ([.leaf sign, operand].filter isExpression) = [] := by
    refine List.flatMap_eq_nil_iff.mpr fun tree hmem => ?_
    obtain ⟨hmem, hexpression⟩ := List.mem_filter.mp hmem
    rcases List.mem_pair.mp hmem with rfl | rfl
    · cases hexpression
    · exact labels_of_numberText (hderived tree (by simp)) hnumber
  rw [← labelsOf_of_plainParts hplain, none]
  exact .of_eq (labels_of_not_placeholder (not_placeholder_of_number hvalue))

/-- The members of a list that is looked into are constants, and all of them are kept. -/
theorem sameLabels_of_members {what : String} {list : Tree} {values : List Constant}
    (hlist : list.IsDerivation) (hrule : list.hasRule .expressionList)
    (hmembers : ∀ member ∈ list.children, context.KeepsExpression member)
    (h : ((context.parts list.children).filter fun part => part.tree.isExpression).mapM
      (context.constant what) = .ok values) :
    SameLabels (values.flatMap Constant.labels) list.labels := by
  cases hlist with
  | leaf => cases hrule
  | @node rule span members _ hallows _ =>
    obtain rfl : rule = .expressionList := by simpa [hasRule_iff, rule?] using hrule
    have hfilter : (context.parts members).filter (fun part => part.tree.isExpression) =
        (members.filter Tree.isExpression).map context.part := by
      simp [parts_eq_map, List.filter_map, Function.comp_def, part]
    rw [labels_node, ← labelsOf_of_plainParts (plainParts_of_allows rfl hallows)]
    rw [children, hfilter, List.mapM_map] at h
    have kept : ∀ tree ∈ members.filter Tree.isExpression,
        tree.KeepsLabels (fun tree => context.constant what (context.part tree))
          Constant.labels := by
      intro tree hmem value hvalue
      obtain ⟨a, hbuilt⟩ := context.built_of_constant hvalue
      exact hmembers tree (List.mem_of_mem_filter hmem) _ hbuilt
    exact sameLabels_of_built kept (forall₂_of_mapM_eq_ok h)

theorem sameLabels_of_inList (hderived : ∀ child ∈ children, child.IsDerivation)
    (hkeeps : ∀ child ∈ children, context.KeepsExpression child)
    (hmembers : ∀ list ∈ children, ∀ member ∈ list.children, context.KeepsExpression member)
    (hallows : Rule.inExpr.Allows children)
    (h : (context.nodeOf rule span children).inList context = .ok e) :
    SameLabels e.labels (labelsOf children) := by
  obtain ⟨left, words, list, a, negated, column, values, rfl, hwords, hrule, hbuilt, hvalues,
    rfl⟩ := context.built_of_inList hallows h
  have left_nil : left.labels = [] := (hkeeps left (by simp) _ hbuilt).eq_nil
  have words_nil : labelsOf words = [] :=
    List.flatMap_eq_nil_iff.mpr fun word hmem =>
      labels_of_isTokenOf (fun _ => rfl) (hwords word hmem)
  have hlist := context.sameLabels_of_members (hderived list (by simp)) hrule
    (hmembers list (by simp)) hvalues
  simpa [left_nil, words_nil, Expr.labels] using hlist

theorem sameLabels_of_placeholder (hallows : Rule.placeholder.Allows children)
    (h : (context.nodeOf .placeholder span children).bare context = .ok e) :
    SameLabels e.labels (labelsOf children) := by
  obtain ⟨⟨token, place⟩, more, rfl, htoken, hmore⟩ := eq_leaf_of_row hallows
  obtain rfl := eq_nil_of_row hmore
  cases token with
  | placeholder label =>
    obtain rfl : .constant none (.placeholder label) = e := Except.ok.inj h
    exact .refl [label]
  | _ => cases htoken

/-- **What a node builds has the labels of its parts**, when what they build has theirs. -/
theorem sameLabels_of_bare (hrule : rule.isExpression) (hallows : rule.Allows children)
    (hderived : ∀ child ∈ children, child.IsDerivation)
    (hkeeps : ∀ child ∈ children, context.KeepsExpression child)
    (hmembers : ∀ list ∈ children, ∀ member ∈ list.children, context.KeepsExpression member)
    (h : (context.nodeOf rule span children).bare context = .ok e) :
    SameLabels e.labels (labelsOf children) := by
  by_cases hplain : rule.hasPlainParts
  · have plain := plainParts_of_allows hplain hallows
    rcases context.composed_of_bare hplain hallows h with hcomposed | hnumber
    · exact context.sameLabels_of_composed plain hkeeps hcomposed
    · exact context.sameLabels_of_signedNumber plain hderived hnumber
  · cases rule with
    | inExpr => exact context.sameLabels_of_inList hderived hkeeps hmembers hallows h
    | placeholder => exact context.sameLabels_of_placeholder hallows h
    | subquery => exact absurd h refuse_ne_ok
    | _ => first | exact absurd rfl hplain | cases hrule

/-- **An expression has the labels of the tree that it is built from.** -/
theorem keepsExpression (tree : Tree) (hderived : tree.IsDerivation) :
    context.KeepsExpression tree := by
  induction tree using Tree.induct_inside with
  | step tree ih =>
    intro e h
    cases tree with
    | leaf lexeme => exact absurd h reject_ne_ok
    | node rule span children =>
      cases hderived with
      | node _ hallows hparts =>
        -- the members of a list are grandchildren
        have hkeeps : ∀ child ∈ children, ∀ inner, inner.Inside child →
            context.KeepsExpression inner :=
          fun child hmem inner hinside =>
            ih child hmem inner hinside ((hparts child hmem).inside hinside)
        obtain ⟨bare, a, hbare, rfl⟩ := context.bare_of_expression h
        rw [labels_node, Expr.labels_withAlias]
        exact context.sameLabels_of_bare (context.isExpression_of_expression h) hallows hparts
          (fun child hmem => hkeeps child hmem child .self)
          (fun list hlist member hmem => hkeeps list hlist member (.of_mem hmem)) hbare

end Build.Context

end SqlFront
