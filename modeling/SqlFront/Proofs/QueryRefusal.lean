import SqlFront.Build.Change
import SqlFront.Proofs.ExpressionRefusal

/-!
Queries and changes of rows of well-formed trees are built, or refused for what they mean.
-/

namespace SqlFront.Build

open Built Grammar

/-! ### Row limits -/

theorem rowCount_onlyRefuses {token : Token} (h : isRowCount token) :
    (rowCount token).OnlyRefuses := by
  cases token with
  | number text => exact .require rfl _
  | placeholder label => exact .refuse
  | _ => cases h

/-- The counts of a clause are its tokens that can be counts. -/
theorem counts_length (tree : Tree) :
    (counts tree).length = tree.children.countP (Tree.isTokenOf isRowCount) := by
  have hcounts : ∀ trees : List Tree,
      (((Tree.leaves trees).map Lexeme.token).filter isRowCount).length =
        trees.countP (Tree.isTokenOf isRowCount) := by
    intro trees
    induction trees with
    | nil => rfl
    | cons part parts ih =>
      cases part with
      | leaf lexeme =>
        rw [Tree.leaves_leaf_cons, List.map_cons, List.filter_cons, List.countP_cons,
          Tree.isTokenOf_leaf, ← ih]
        split
        · rfl
        · rfl
      | node rule span children => exact ih
  exact hcounts tree.children

theorem isRowCount_of_mem_counts {tree : Tree} {token : Token} (h : token ∈ counts tree) :
    isRowCount token :=
  (List.mem_filter.mp h).2

theorem topLimit_onlyRefuses {clause : Tree}
    (h : clause.children.any (Tree.isTokenOf isRowCount)) : (topLimit clause).OnlyRefuses := by
  have hpos : 0 < (counts clause).length := by
    rw [counts_length]
    exact List.countP_pos_iff.mpr (List.any_eq_true.mp h)
  obtain ⟨count, rest, hcounts⟩ := List.exists_cons_of_length_pos hpos
  have hmem : count ∈ counts clause := by simp [hcounts]
  unfold topLimit
  split
  · exact .refuse_bind
  · refine .require_bind ⟨count, by rw [hcounts, List.head?_cons], ?_⟩
    exact .bind (rowCount_onlyRefuses (isRowCount_of_mem_counts hmem)) fun _ _ => .ok _

theorem limit_onlyRefuses {clause : Tree} (h : Rule.limitClause.Shape clause.children) :
    (limit clause).OnlyRefuses := by
  have hcounts : (counts clause).length = 1 ∨ (counts clause).length = 2 := by
    rw [counts_length]
    exact h
  have hrow : ∀ token ∈ counts clause, (rowCount token).OnlyRefuses :=
    fun _ hmem => rowCount_onlyRefuses (isRowCount_of_mem_counts hmem)
  unfold limit
  split
  · rename_i count heq
    exact .bind (hrow count (by simp [heq])) fun _ _ => .ok _
  · rename_i first second heq
    have hfirst := hrow first (by simp [heq])
    have hsecond := hrow second (by simp [heq])
    split
    rename_i count offset hpair
    split at hpair
    · cases hpair
      exact .bind hsecond fun _ _ => .bind hfirst fun _ _ => .ok _
    · cases hpair
      exact .bind hfirst fun _ _ => .bind hsecond fun _ _ => .ok _
  · rename_i hone htwo
    rcases hcounts with hlength | hlength
    · obtain ⟨count, heq⟩ := List.length_eq_one_iff.mp hlength
      exact absurd heq (hone count)
    · obtain ⟨first, second, heq⟩ := List.length_eq_two.mp hlength
      exact absurd heq (htwo first second)

namespace Context

variable (context : Context) {tree : Tree}

/-! ### Expressions in clauses -/

theorem firstExpression_onlyRefuses (h : tree.WellFormed)
    (hany : tree.children.any Tree.isExpression) :
    (context.firstExpression tree).OnlyRefuses := by
  have hsome : (tree.children.find? Tree.isExpression).isSome :=
    List.find?_isSome.mpr (List.any_eq_true.mp hany)
  obtain ⟨part, hfound⟩ := Option.isSome_iff_exists.mp hsome
  refine .require_bind ⟨part, hfound, ?_⟩
  exact context.expression_onlyRefuses (h.child (List.mem_of_find?_eq_some hfound))
    (List.find?_some hfound)

theorem expressions_onlyRefuses (h : tree.WellFormed) :
    (context.expressions tree).OnlyRefuses := by
  refine .mapM ?_
  intro child hchild
  obtain ⟨hmem, hexpression⟩ := List.mem_filter.mp hchild
  exact context.expression_onlyRefuses (h.child hmem) hexpression

theorem condition_onlyRefuses (name : String) (h : tree.WellFormed)
    (hany : tree.children.any Tree.isExpression) :
    (context.condition name tree).OnlyRefuses := by
  refine .bind (context.firstExpression_onlyRefuses h hany) ?_
  intro e _
  split
  · have hnormal : FailsOnly (fun _ => true) (e.normalizeWithin context.config.maxCnfLeaves) :=
      fun _ _ => rfl
    exact hnormal.mapError fun _ _ => rfl
  · exact .reject rfl

theorem selectItem_onlyRefuses (h : tree.WellFormed) (hrule : tree.hasRule .selectItem) :
    (context.selectItem tree).OnlyRefuses := by
  refine .bind (context.firstExpression_onlyRefuses h (h.shape hrule)) ?_
  intro e _
  split
  · rename_i clause hfound
    obtain ⟨name, hname⟩ := Tree.aliasName_of_any h (Tree.any_of_find? hfound)
    rw [hname]
    exact .ok _
  · exact .ok _

theorem orderItem_onlyRefuses (h : tree.WellFormed) (hrule : tree.hasRule .orderItem) :
    (context.orderItem tree).OnlyRefuses :=
  .bind (context.firstExpression_onlyRefuses h (h.shape hrule)) fun _ _ => .ok _

/-- A step for each part of a kind. -/
theorem mapM_onlyRefuses {β : Type} {rule : Rule} {f : Tree → Built β} (h : tree.WellFormed)
    (hf : ∀ part : Tree, part.WellFormed → part.hasRule rule → (f part).OnlyRefuses) :
    OnlyRefuses ((tree.children.filter (Tree.hasRule rule)).mapM f) := by
  refine .mapM ?_
  intro part hpart
  obtain ⟨hmem, hrule⟩ := List.mem_filter.mp hpart
  exact hf part (h.child hmem) hrule

theorem clause_onlyRefuses (h : tree.WellFormed) (query : SelectQuery) :
    (context.clause tree query).OnlyRefuses := by
  cases h with
  | leaf => exact .ok _
  | @node rule span children hspan hshape hchildren =>
    have hformed : (Tree.node rule span children).WellFormed := .node hspan hshape hchildren
    cases rule with
    | topClause => exact .bind (topLimit_onlyRefuses hshape) fun _ _ => .ok _
    | selectList =>
      exact .bind (mapM_onlyRefuses hformed fun _ => context.selectItem_onlyRefuses)
        fun _ _ => .ok _
    | whereClause =>
      exact .bind (context.condition_onlyRefuses _ hformed hshape) fun _ _ => .ok _
    | groupByClause => exact .bind (context.expressions_onlyRefuses hformed) fun _ _ => .ok _
    | havingClause =>
      exact .bind (context.condition_onlyRefuses _ hformed hshape) fun _ _ => .ok _
    | orderByClause =>
      exact .bind (mapM_onlyRefuses hformed fun _ => context.orderItem_onlyRefuses)
        fun _ _ => .ok _
    | limitClause => exact .bind (limit_onlyRefuses hshape) fun _ _ => .ok _
    | _ => exact .ok _

/-! ### Queries -/

/-- What is asked of each kind of part of a query, so that the kinds can hold each other. -/
structure Serves (tree : Tree) : Prop where
  table : tree.isTable → (context.tableSource tree).OnlyRefuses
  query : tree.hasRule .selectStatement → (context.select tree).OnlyRefuses
  tables : tree.hasRule .fromClause → (context.fromItems tree.children).OnlyRefuses
  source : tree.hasRule .tableSource → (context.fromItem tree.children).OnlyRefuses
  join : tree.hasRule .joinClause →
    ∃ built, context.joinedSource tree.children = some built ∧ built.OnlyRefuses

variable {trees : List Tree} (hformed : ∀ tree ∈ trees, tree.WellFormed)
  (hserves : ∀ tree ∈ trees, context.Serves tree)
include hserves

theorem fromItems_onlyRefuses : (context.fromItems trees).OnlyRefuses := by
  induction trees with
  | nil => exact .ok _
  | cons tree trees ih =>
    obtain ⟨hfirst, hothers⟩ := List.forall_mem_cons.mp hserves
    unfold fromItems
    split
    · exact .ok _
    · rename_i span children rest heq
      cases heq
      exact .bind (hfirst.source rfl) fun item _ => .bind (ih hothers) fun _ _ => .ok _
    · rename_i first rest _ heq
      cases heq
      exact ih hothers

theorem joinedSource_onlyRefuses (h : trees.any Tree.isTable) :
    ∃ built, context.joinedSource trees = some built ∧ built.OnlyRefuses := by
  induction trees with
  | nil => cases h
  | cons tree trees ih =>
    obtain ⟨hfirst, hothers⟩ := List.forall_mem_cons.mp hserves
    rw [joinedSource]
    split
    · rename_i htable
      exact ⟨_, rfl, hfirst.table htable⟩
    · rename_i htable
      refine ih hothers ?_
      simpa [Tree.isTable, Tree.either, htable] using h

theorem innerQuery_onlyRefuses (h : trees.any (Tree.hasRule .selectStatement)) :
    ∃ built, context.innerQuery trees = some built ∧ built.OnlyRefuses := by
  induction trees with
  | nil => cases h
  | cons tree trees ih =>
    obtain ⟨hfirst, hothers⟩ := List.forall_mem_cons.mp hserves
    rw [innerQuery]
    split
    · rename_i hquery
      exact ⟨_, rfl, hfirst.query hquery⟩
    · rename_i hquery
      refine ih hothers ?_
      simpa [hquery] using h

include hformed

theorem joins_onlyRefuses : (context.joins trees).OnlyRefuses := by
  induction trees with
  | nil => exact .ok _
  | cons tree trees ih =>
    obtain ⟨hfirst, hothers⟩ := List.forall_mem_cons.mp hserves
    obtain ⟨hjoin, hrest⟩ := List.forall_mem_cons.mp hformed
    unfold joins
    split
    · exact .ok _
    · rename_i span children rest heq
      cases heq
      obtain ⟨source, hsource, hbuilt⟩ := hfirst.join rfl
      refine .require_bind ⟨source, hsource, ?_⟩
      have hmore : ∀ condition : Option Cnf, OnlyRefuses (do
          let source ← source
          let joins ← context.joins trees
          return (⟨joinKind children, source, condition⟩ :: joins : List Join)) :=
        fun _ => .bind hbuilt fun _ _ => .bind (ih hrest hothers) fun _ _ => .ok _
      dsimp only
      split
      · rename_i clause hfound
        obtain ⟨hclause, hkind⟩ := hjoin.found hfound
        have hcondition := context.condition_onlyRefuses "ON" hclause (hclause.shape hkind)
        exact .bind (.map hcondition) fun condition _ => hmore condition
      · exact hmore none
    · rename_i first rest _ heq
      cases heq
      exact ih hrest hothers

theorem clauses_onlyRefuses (query : SelectQuery) : (context.clauses trees query).OnlyRefuses := by
  induction trees generalizing query with
  | nil => exact .ok _
  | cons tree trees ih =>
    obtain ⟨hfirst, hothers⟩ := List.forall_mem_cons.mp hserves
    obtain ⟨hclause, hrest⟩ := List.forall_mem_cons.mp hformed
    unfold clauses
    split
    · exact .ok _
    · rename_i query span children rest heq
      cases heq
      exact .bind (hfirst.tables rfl) fun sources _ => ih hrest hothers _
    · rename_i heq
      cases heq
      exact .bind (context.clause_onlyRefuses hclause _) fun next _ => ih hrest hothers next

theorem fromItem_onlyRefuses (h : Rule.tableSource.Shape trees) :
    (context.fromItem trees).OnlyRefuses := by
  obtain ⟨table, rest, rfl, htable⟩ := h
  obtain ⟨hfirst, hothers⟩ := List.forall_mem_cons.mp hserves
  obtain ⟨-, hjoins⟩ := List.forall_mem_cons.mp hformed
  rw [fromItem]
  exact .bind (hfirst.table htable) fun source _ =>
    .bind (context.joins_onlyRefuses hjoins hothers) fun _ _ => .ok _

omit hserves hformed in
/-- Every part of a query serves, by induction on the tree. -/
theorem serves (h : tree.WellFormed) : context.Serves tree := by
  induction h with
  | leaf => constructor <;> intro hrule <;> cases hrule
  | @node rule span children hspan hshape hchildren ih =>
    have hnode : (Tree.node rule span children).WellFormed := .node hspan hshape hchildren
    constructor
    · intro htable
      cases rule with
      | tableName => exact .bind (tableOfTree_onlyRefuses _ hnode rfl) fun _ _ => .ok _
      | derivedTable =>
        obtain ⟨hquery, halias⟩ := hshape
        obtain ⟨query, hfound, hbuilt⟩ := context.innerQuery_onlyRefuses ih hquery
        obtain ⟨name, hname⟩ := Tree.aliasName_of_any hnode halias
        rw [tableSource]
        refine .require_bind ⟨query, hfound, .bind hbuilt fun _ _ => ?_⟩
        rw [hname]
        exact .ok _
      | _ => cases htable
    · intro hrule
      rw [select]
      exact context.clauses_onlyRefuses hchildren ih _
    · intro hrule
      exact context.fromItems_onlyRefuses ih
    · intro hrule
      exact context.fromItem_onlyRefuses hchildren ih (hnode.shape hrule)
    · intro hrule
      exact context.joinedSource_onlyRefuses ih (hnode.shape hrule)

end Context

end SqlFront.Build
