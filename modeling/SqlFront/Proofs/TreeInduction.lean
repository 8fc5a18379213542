import SqlFront.Build.Expression

/-!
Induction on parse trees and on balanced chains, and the expressions that the parts of a node build.
-/

namespace SqlFront

/-- What holds of tokens, and of every node whose parts it holds of, holds of all trees. -/
theorem Tree.induct {motive : Tree → Prop} (leaf : ∀ lexeme, motive (.leaf lexeme))
    (node : ∀ rule span children, (∀ child ∈ children, motive child) →
      motive (.node rule span children)) : ∀ tree, motive tree
  | .leaf lexeme => leaf lexeme
  | .node rule span children =>
      node rule span children fun child _ => Tree.induct leaf node child

/-- What holds of single items, and of two chains together when it holds of both, holds of all
balanced chains. -/
theorem balanced_induct {α : Type} {combine : α → α → α} {motive : List α → α → Prop}
    (single : ∀ item, motive [item] item)
    (append : ∀ left right l r, motive left l → motive right r →
      motive (left ++ right) (combine l r))
    {items : List α} {e : α} (h : balanced combine items = some e) : motive items e := by
  fun_induction balanced combine items generalizing e with
  | case1 => cases h
  | case2 item =>
    obtain rfl : item = e := by simpa using h
    exact single item
  | case3 first second items all ihl =>
    rename_i ihr
    simp only [Option.bind_eq_bind, Option.bind_eq_some_iff, Option.pure_def,
      Option.some.injEq] at h
    obtain ⟨l, hl, r, hr, rfl⟩ := h
    have both := append _ _ l r (ihl hl) (ihr hr)
    rwa [List.take_append_drop] at both

/-- What a combination keeps, a balanced chain keeps. -/
theorem keep_of_balanced {α : Type} {combine : α → α → α} {motive : α → Prop}
    (combined : ∀ l r, motive l → motive r → motive (combine l r)) {items : List α} {e : α}
    (hitems : ∀ item ∈ items, motive item) (h : balanced combine items = some e) : motive e := by
  refine balanced_induct (motive := fun items e => (∀ item ∈ items, motive item) → motive e)
    (fun item hitem => hitem item (by simp)) (fun left right l r hl hr hboth => ?_) h hitems
  obtain ⟨hleft, hright⟩ := List.forall_mem_append.mp hboth
  exact combined l r (hl hleft) (hr hright)

namespace Build.Context

/-- A part of a node with what it builds. -/
def part (context : Context) (tree : Tree) : Part := ⟨tree, context.expression tree⟩

theorem parts_eq_map (context : Context) (trees : List Tree) :
    context.parts trees = trees.map context.part := by
  induction trees with
  | nil => rfl
  | cons tree trees ih => rw [parts, ih, List.map_cons, part]

/-- The list of expressions that a node looks into is the first one among its parts. -/
theorem members_eq_map (context : Context) (trees : List Tree) :
    context.members trees =
      (Tree.find? .expressionList trees).map fun list => context.parts list.children := by
  induction trees with
  | nil => rfl
  | cons tree trees ih =>
    cases tree with
    | leaf lexeme => simpa [members, Tree.find?, Tree.hasRule, Tree.rule?] using ih
    | node rule span children =>
      by_cases h : rule = .expressionList
      · subst h
        simp [members, Tree.find?, Tree.hasRule, Tree.rule?, Tree.children]
      · rw [members, ih]
        · simp [Tree.find?, Tree.hasRule, Tree.rule?, h]
        · simpa using h

/-- The node that a tree is for the builder. -/
def nodeOf (context : Context) (rule : Rule) (span : Span) (children : List Tree) : Node :=
  ⟨rule, span, context.parts children, context.members children⟩

variable (context : Context) (rule : Rule) (span : Span) (children : List Tree)

@[simp]
theorem nodeOf_rule : (context.nodeOf rule span children).rule = rule := rfl

@[simp]
theorem nodeOf_trees : (context.nodeOf rule span children).trees = children := by
  simp [nodeOf, Node.trees, parts_eq_map, part, Function.comp_def]

@[simp]
theorem nodeOf_operands : (context.nodeOf rule span children).operands =
    (children.filter Tree.isExpression).map context.part := by
  simp [nodeOf, Node.operands, parts_eq_map, List.filter_map, Function.comp_def, part]

end Build.Context

end SqlFront
