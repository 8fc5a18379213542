import SqlFront.Build.Statement
import SqlFront.Proofs.InsideTree

/-!
What queries store, and which trees it was built from.

A statement stores conditions in normal form, and expressions outside of them. Both also stand in
the queries that it takes rows from, at any depth. Whatever is stored was built from a tree inside
that of the batch: a query by `select`, a condition by `condition`, an expression by `expression`.
-/

namespace SqlFront

/-! ### Parts of queries -/

mutual

/-- The query and those that it takes rows from, at any depth. -/
def SelectQuery.selects : SelectQuery → List SelectQuery
  | ⟨distinct, items, sources, condition, grouping, having, ordering, limit⟩ =>
      ⟨distinct, items, sources, condition, grouping, having, ordering, limit⟩ ::
        selectsOfItems sources

def selectsOfItems : List FromItem → List SelectQuery
  | [] => []
  | item :: items => item.selects ++ selectsOfItems items

def FromItem.selects : FromItem → List SelectQuery
  | ⟨source, joins⟩ => source.selects ++ selectsOfJoins joins

def selectsOfJoins : List Join → List SelectQuery
  | [] => []
  | join :: joins => join.selects ++ selectsOfJoins joins

def Join.selects : Join → List SelectQuery
  | ⟨_, source, _⟩ => source.selects

def TableSource.selects : TableSource → List SelectQuery
  | .table _ => []
  | .derived query _ => query.selects

end

theorem SelectQuery.selects_eq (query : SelectQuery) :
    query.selects = query :: selectsOfItems query.sources := by
  cases query
  rfl

namespace SelectQuery

/-- The conditions of the query itself. -/
def conditions (query : SelectQuery) : List Cnf :=
  query.condition.toList ++ query.having.toList ++
    query.sources.flatMap fun item => item.joins.filterMap Join.condition

/-- The expressions of the query itself outside its conditions. -/
def expressions (query : SelectQuery) : List Expr :=
  query.items ++ query.grouping.getD [] ++ query.ordering.map OrderItem.expression

end SelectQuery

namespace Query

/-- All queries of a statement that select rows. -/
def selects : Query → List SelectQuery
  | select query => query.selects
  | bypass query => selects query
  | _ => []

/-- All conditions that a statement stores. -/
def conditions : Query → List Cnf
  | select query => query.selects.flatMap SelectQuery.conditions
  | update query => query.condition.toList
  | delete query => query.condition.toList
  | bypass query => conditions query
  | _ => []

/-- All expressions that a statement stores outside of conditions. -/
def expressions : Query → List Expr
  | select query => query.selects.flatMap SelectQuery.expressions
  | insert query => query.rows.flatten
  | update query => query.assignments.map Prod.snd
  | createTable query => query.columns.filterMap ColumnDefinition.defaultValue
  | alterTable query => query.column.defaultValue.toList
  | bypass query => expressions query
  | _ => []

end Query

/-- A part that a tree must have lies inside it. -/
theorem Tree.inside_of_required {rule : Rule} {tree part : Tree}
    (h : tree.required rule = .ok part) : part.Inside tree :=
  .of_mem (List.mem_of_find?_eq_some (require_eq_ok.mp h))

namespace Build.Context

variable (context : Context)

/-! ### Clauses of a query -/

/-- What one clause adds to a query. -/
inductive Adds (tree : Tree) (query : SelectQuery) : SelectQuery → Prop where
  | nothing : Adds tree query query
  | sources {sources : List FromItem} : tree.hasRule .fromClause →
      context.fromItems tree.children = .ok sources → Adds tree query { query with sources }
  | limit (limit : Option RowLimit) : Adds tree query { query with limit }
  | items {items : List Expr} : tree.hasRule .selectList →
      List.Forall₂ (fun item e => context.selectItem item = .ok e)
        (tree.children.filter (Tree.hasRule .selectItem)) items →
      Adds tree query { query with items }
  | condition {cnf : Cnf} : context.condition "WHERE" tree = .ok cnf →
      Adds tree query { query with condition := some cnf }
  | grouping {grouping : List Expr} : context.expressions tree = .ok grouping →
      Adds tree query { query with grouping := some grouping }
  | having {cnf : Cnf} : context.condition "HAVING" tree = .ok cnf →
      Adds tree query { query with having := some cnf }
  | ordering {ordering : List OrderItem} :
      List.Forall₂ (fun item key => context.orderItem item = .ok key)
        (tree.children.filter (Tree.hasRule .orderItem)) ordering →
      Adds tree query { query with ordering }

theorem adds_of_clause {tree : Tree} {query next : SelectQuery}
    (h : context.clause tree query = .ok next) : context.Adds tree query next := by
  unfold clause at h
  split at h
  · obtain ⟨limit, -, h⟩ := bind_eq_ok.mp h
    obtain rfl := pure_eq_ok.mp h
    exact .limit _
  · rename_i hrule
    obtain ⟨items, hitems, h⟩ := bind_eq_ok.mp h
    obtain rfl := pure_eq_ok.mp h
    exact .items (Tree.hasRule_iff.mpr hrule) (forall₂_of_mapM_eq_ok hitems)
  · obtain ⟨cnf, hcnf, h⟩ := bind_eq_ok.mp h
    obtain rfl := pure_eq_ok.mp h
    exact .condition hcnf
  · obtain ⟨grouping, hgrouping, h⟩ := bind_eq_ok.mp h
    obtain rfl := pure_eq_ok.mp h
    exact .grouping hgrouping
  · obtain ⟨cnf, hcnf, h⟩ := bind_eq_ok.mp h
    obtain rfl := pure_eq_ok.mp h
    exact .having hcnf
  · obtain ⟨ordering, hordering, h⟩ := bind_eq_ok.mp h
    obtain rfl := pure_eq_ok.mp h
    exact .ordering (forall₂_of_mapM_eq_ok hordering)
  · obtain ⟨limit, -, h⟩ := bind_eq_ok.mp h
    obtain rfl := pure_eq_ok.mp h
    exact .limit _
  · cases h
    exact .nothing

/-- One clause is added to a query. The tables of `FROM` are built apart. -/
def Steps (tree : Tree) (query next : SelectQuery) : Prop :=
  (tree.hasRule .fromClause ∧ ∃ sources, context.fromItems tree.children = .ok sources ∧
    next = { query with sources }) ∨
  context.clause tree query = .ok next

theorem adds_of_steps {tree : Tree} {query next : SelectQuery}
    (h : context.Steps tree query next) : context.Adds tree query next := by
  rcases h with ⟨hrule, sources, hsources, rfl⟩ | h
  · exact .sources hrule hsources
  · exact context.adds_of_clause h

/-- Clauses are added one after the other. -/
theorem steps_of_clauses {tree : Tree} {trees : List Tree} {query result : SelectQuery}
    (h : context.clauses (tree :: trees) query = .ok result) :
    ∃ next, context.Steps tree query next ∧ context.clauses trees next = .ok result := by
  unfold clauses at h
  split at h
  · rename_i heq
    cases heq
  · rename_i span children rest heq
    cases heq
    obtain ⟨sources, hsources, h⟩ := bind_eq_ok.mp h
    exact ⟨_, .inl ⟨rfl, sources, hsources, rfl⟩, h⟩
  · rename_i heq
    cases heq
    obtain ⟨next, hnext, h⟩ := bind_eq_ok.mp h
    exact ⟨next, .inr hnext, h⟩

/-- What each clause keeps, all clauses of a query keep. -/
theorem clauses_keep {motive : SelectQuery → Prop} {trees : List Tree} {query result : SelectQuery}
    (step : ∀ tree ∈ trees, ∀ query next, context.Adds tree query next → motive query → motive next)
    (h : context.clauses trees query = .ok result) (start : motive query) : motive result := by
  induction trees generalizing query with
  | nil =>
    obtain rfl : query = result := by simpa [clauses] using h
    exact start
  | cons tree trees ih =>
    obtain ⟨first, others⟩ := List.forall_mem_cons.mp step
    obtain ⟨next, hsteps, hrest⟩ := context.steps_of_clauses h
    exact ih others hrest (first _ _ (context.adds_of_steps hsteps) start)

/-- The items were built from the items of a select list. -/
def BuildsItems (list : Tree) (items : List Expr) : Prop :=
  list.hasRule .selectList ∧ List.Forall₂ (fun item e => context.selectItem item = .ok e)
    (list.children.filter (Tree.hasRule .selectItem)) items

/-- Only a select list changes the items of a query. -/
theorem items_of_steps {tree : Tree} {query next : SelectQuery}
    (h : context.Steps tree query next) :
    context.BuildsItems tree next.items ∨
      tree.hasRule .selectList = false ∧ next.items = query.items := by
  cases hlist : tree.hasRule .selectList with
  | true =>
    rw [Tree.hasRule_iff] at hlist
    rcases h with ⟨hrule, -⟩ | h
    · rw [Tree.hasRule_iff, hlist] at hrule
      cases hrule
    · simp only [clause, hlist, bind_eq_ok, pure_eq_ok] at h
      obtain ⟨items, hitems, rfl⟩ := h
      exact .inl ⟨Tree.hasRule_iff.mpr hlist, forall₂_of_mapM_eq_ok hitems⟩
  | false =>
    refine .inr ⟨rfl, ?_⟩
    cases context.adds_of_steps h with
    | items hrule => cases hlist.symm.trans hrule
    | _ => rfl

/-- The items of a query are those of the last select list among its clauses. -/
theorem items_of_clauses {trees : List Tree} {query result : SelectQuery}
    (h : context.clauses trees query = .ok result) :
    (∃ list ∈ trees, context.BuildsItems list result.items) ∨
      trees.any (Tree.hasRule .selectList) = false ∧ result.items = query.items := by
  induction trees generalizing query with
  | nil =>
    obtain rfl : query = result := by simpa [clauses] using h
    exact .inr ⟨rfl, rfl⟩
  | cons tree trees ih =>
    obtain ⟨next, hsteps, hrest⟩ := context.steps_of_clauses h
    rcases ih hrest with ⟨list, hmem, hbuilds⟩ | ⟨hnone, hitems⟩
    · exact .inl ⟨list, List.mem_cons_of_mem _ hmem, hbuilds⟩
    · rcases context.items_of_steps hsteps with hbuilds | ⟨hother, hkept⟩
      · exact .inl ⟨tree, List.mem_cons_self, hitems ▸ hbuilds⟩
      · exact .inr ⟨by simp [hother, hnone], hitems.trans hkept⟩

/-! ### Tables of a query -/

/-- A join was built from the tree of a table, and its condition from a tree as well. -/
def BuildsJoin (tree : Tree) (join : Join) : Prop :=
  (∃ table ∈ tree.children, context.tableSource table = .ok join.source) ∧
    ∀ cnf, join.condition = some cnf →
      ∃ clause ∈ tree.children, context.condition "ON" clause = .ok cnf

theorem tableSource_of_joinedSource {trees : List Tree} {built : Built TableSource}
    (h : context.joinedSource trees = some built) :
    ∃ table ∈ trees, context.tableSource table = built := by
  induction trees with
  | nil => cases h
  | cons tree trees ih =>
    rw [joinedSource] at h
    split at h
    · exact ⟨tree, by simp, Option.some.inj h⟩
    · obtain ⟨table, hmem, htable⟩ := ih h
      exact ⟨table, by simp [hmem], htable⟩

theorem buildsJoin_of_joins {trees : List Tree} {joins : List Join}
    (h : context.joins trees = .ok joins) :
    ∀ join ∈ joins, ∃ tree ∈ trees, context.BuildsJoin tree join := by
  induction trees generalizing joins with
  | nil =>
    obtain rfl : [] = joins := by simpa [Context.joins] using h
    simp
  | cons tree trees ih =>
    have later {joins : List Join} (h : context.joins trees = .ok joins) :
        ∀ join ∈ joins, ∃ other ∈ tree :: trees, context.BuildsJoin other join := by
      intro join hmem
      obtain ⟨other, hother, hjoin⟩ := ih h join hmem
      exact ⟨other, by simp [hother], hjoin⟩
    unfold Context.joins at h
    split at h
    · rename_i heq
      cases heq
    · rename_i span children rest heq
      cases heq
      obtain ⟨built, hbuilt, h⟩ := bind_eq_ok.mp h
      have hsource := context.tableSource_of_joinedSource (require_eq_ok.mp hbuilt)
      split at h
      · rename_i clause hfound
        simp only [bind_eq_ok, pure_eq_ok] at h
        obtain ⟨condition, hcondition, source, rfl, more, hmore, rfl⟩ := h
        refine List.forall_mem_cons.mpr
          ⟨⟨.node .joinClause span children, by simp, hsource, ?_⟩, later hmore⟩
        rintro cnf rfl
        obtain ⟨stored, hstored, heq⟩ := map_eq_ok.mp hcondition
        exact ⟨clause, List.mem_of_find?_eq_some hfound, by rw [hstored, Option.some.inj heq]⟩
      · simp only [bind_eq_ok, pure_eq_ok] at h
        obtain ⟨condition, hcondition, source, rfl, more, hmore, rfl⟩ := h
        cases hcondition
        exact List.forall_mem_cons.mpr
          ⟨⟨.node .joinClause span children, by simp, hsource, by simp⟩, later hmore⟩
    · rename_i heq
      cases heq
      exact later h

/-- The tables and joins of an item of the `FROM` clause, with the trees they were built from. -/
theorem tables_of_fromItem {trees : List Tree} {item : FromItem}
    (h : context.fromItem trees = .ok item) :
    (∃ table ∈ trees, context.tableSource table = .ok item.source) ∧
      ∀ join ∈ item.joins, ∃ tree ∈ trees, context.BuildsJoin tree join := by
  cases trees with
  | nil => exact absurd h reject_ne_ok
  | cons primary rest =>
    simp only [fromItem, bind_eq_ok, pure_eq_ok] at h
    obtain ⟨source, hsource, joins, hjoins, rfl⟩ := h
    refine ⟨⟨primary, by simp, hsource⟩, fun join hmem => ?_⟩
    obtain ⟨tree, htree, hjoin⟩ := context.buildsJoin_of_joins hjoins join hmem
    exact ⟨tree, by simp [htree], hjoin⟩

theorem fromItem_of_fromItems {trees : List Tree} {items : List FromItem}
    (h : context.fromItems trees = .ok items) :
    ∀ item ∈ items, ∃ tree ∈ trees, context.fromItem tree.children = .ok item := by
  induction trees generalizing items with
  | nil =>
    obtain rfl : [] = items := by simpa [fromItems] using h
    simp
  | cons tree trees ih =>
    have later {items : List FromItem} (h : context.fromItems trees = .ok items) :
        ∀ item ∈ items, ∃ other ∈ tree :: trees, context.fromItem other.children = .ok item := by
      intro item hmem
      obtain ⟨other, hother, hitem⟩ := ih h item hmem
      exact ⟨other, by simp [hother], hitem⟩
    unfold fromItems at h
    split at h
    · rename_i heq
      cases heq
    · rename_i span children rest heq
      cases heq
      simp only [bind_eq_ok, pure_eq_ok] at h
      obtain ⟨item, hitem, more, hmore, rfl⟩ := h
      exact List.forall_mem_cons.mpr
        ⟨⟨.node .tableSource span children, by simp, hitem⟩, later hmore⟩
    · rename_i heq
      cases heq
      exact later h

/-! ### Queries inside a tree -/

theorem eq_of_innerQuery {trees : List Tree} {built : Built SelectQuery}
    (h : context.innerQuery trees = some built) :
    ∃ node ∈ trees, node.hasRule .selectStatement ∧ context.select node = built := by
  induction trees with
  | nil => cases h
  | cons tree trees ih =>
    rw [innerQuery] at h
    split at h
    · rename_i hrule
      exact ⟨tree, by simp, hrule, Option.some.inj h⟩
    · obtain ⟨node, hmem, hnode⟩ := ih h
      exact ⟨node, by simp [hmem], hnode⟩

/-- The queries of a table are those of the query it was built from. -/
theorem selects_of_tableSource {tree : Tree} {source : TableSource}
    (h : context.tableSource tree = .ok source) :
    ∀ inner ∈ source.selects, ∃ node ∈ tree.children, node.hasRule .selectStatement ∧
      ∃ query, context.select node = .ok query ∧ inner ∈ query.selects := by
  unfold tableSource at h
  split at h
  · simp only [bind_eq_ok, pure_eq_ok] at h
    obtain ⟨table, -, rfl⟩ := h
    simp [TableSource.selects]
  · simp only [bind_eq_ok, pure_eq_ok, require_eq_ok] at h
    obtain ⟨built, hbuilt, query, rfl, aliasName, -, rfl⟩ := h
    obtain ⟨node, hmem, hrule, hnode⟩ := context.eq_of_innerQuery hbuilt
    exact fun inner hinner => ⟨node, hmem, hrule, query, hnode, hinner⟩
  · exact absurd h reject_ne_ok

theorem mem_selectsOfItems {inner : SelectQuery} {items : List FromItem} :
    inner ∈ selectsOfItems items ↔ ∃ item ∈ items, inner ∈ item.source.selects ∨
      ∃ join ∈ item.joins, inner ∈ join.source.selects := by
  have hjoins (joins : List Join) : inner ∈ selectsOfJoins joins ↔
      ∃ join ∈ joins, inner ∈ join.source.selects := by
    induction joins with
    | nil => simp [selectsOfJoins]
    | cons join joins ih =>
      cases join
      simp [selectsOfJoins, Join.selects, ih]
  induction items with
  | nil => simp [selectsOfItems]
  | cons item items ih =>
    cases item
    simp [selectsOfItems, FromItem.selects, ih, hjoins, or_assoc]

/-- The queries that the tables of a query are built from lie inside the tree of the tables. -/
theorem selects_of_fromItems {trees : List Tree} {items : List FromItem}
    (h : context.fromItems trees = .ok items) :
    ∀ inner ∈ selectsOfItems items, ∃ tree ∈ trees, ∃ node, node.Inside tree ∧
      node.hasRule .selectStatement ∧
        ∃ query, context.select node = .ok query ∧ inner ∈ query.selects := by
  intro inner hinner
  obtain ⟨item, hitem, hselects⟩ := mem_selectsOfItems.mp hinner
  obtain ⟨tree, htree, hbuilds⟩ := context.fromItem_of_fromItems h item hitem
  obtain ⟨⟨primary, hprimary, hsource⟩, hjoins⟩ := context.tables_of_fromItem hbuilds
  refine ⟨tree, htree, ?_⟩
  rcases hselects with hselects | ⟨join, hjoin, hselects⟩
  · obtain ⟨node, hnode, hselect⟩ := context.selects_of_tableSource hsource inner hselects
    exact ⟨node, (Tree.Inside.of_mem hnode).trans (.of_mem hprimary), hselect⟩
  · obtain ⟨clause, hclause, ⟨table, htable, hsource⟩, -⟩ := hjoins join hjoin
    obtain ⟨node, hnode, hselect⟩ := context.selects_of_tableSource hsource inner hselects
    exact ⟨node, ((Tree.Inside.of_mem hnode).trans (.of_mem htable)).trans (.of_mem hclause),
      hselect⟩

/-- A query was built from a tree inside this one. -/
def SelectsInside (tree : Tree) (query : SelectQuery) : Prop :=
  ∃ node, node.Inside tree ∧ node.hasRule .selectStatement ∧ context.select node = .ok query

theorem SelectsInside.mono {inner outer : Tree} {query : SelectQuery}
    (h : context.SelectsInside inner query) (hinside : inner.Inside outer) :
    context.SelectsInside outer query := by
  obtain ⟨node, hnode, hselect⟩ := h
  exact ⟨node, hnode.trans hinside, hselect⟩

/-- **Every query that a query takes rows from was built from a tree inside its own.** -/
theorem selects_of_select (tree : Tree) {query : SelectQuery}
    (hrule : tree.hasRule .selectStatement) (h : context.select tree = .ok query) :
    ∀ inner ∈ query.selects, context.SelectsInside tree inner := by
  induction tree using Tree.induct_inside generalizing query with
  | step tree ih =>
    rw [SelectQuery.selects_eq, List.forall_mem_cons]
    refine ⟨⟨tree, .self, hrule, h⟩, ?_⟩
    cases tree with
    | leaf lexeme => exact absurd h reject_ne_ok
    | node rule span children =>
      rw [select] at h
      refine context.clauses_keep
        (motive := fun query => ∀ inner ∈ selectsOfItems query.sources,
          context.SelectsInside (.node rule span children) inner) ?_ h (by simp [SelectQuery.empty,
            selectsOfItems])
      intro clause hclause query next hadds hkept
      cases hadds with
      | sources _ hsources =>
        intro inner hinner
        obtain ⟨table, htable, node, hnode, hselect, found, hfound, hmem⟩ :=
          context.selects_of_fromItems hsources inner hinner
        have hinside := hnode.trans (Tree.Inside.of_mem htable)
        exact SelectsInside.mono context (ih clause hclause node hinside hselect hfound inner hmem)
          (hinside.trans (.of_mem hclause))
      | _ => exact hkept

/-! ### What a query stores itself -/

/-- The condition was stored for a clause of some name, inside the tree. -/
def StoresCondition (tree : Tree) (cnf : Cnf) : Prop :=
  ∃ (name : String) (clause : {clause : Tree // clause.Inside tree}),
    context.condition name clause = .ok cnf

/-- The expression was built from a tree inside this one, and perhaps named. -/
def StoresExpression (tree : Tree) (e : Expr) : Prop :=
  ∃ (part : {part : Tree // part.Inside tree}) (built : Expr), context.expression part = .ok built ∧
    (e = built ∨ ∃ aliasName, e = named aliasName built)

section

variable {inner outer : Tree} (hinside : inner.Inside outer)
include hinside

theorem StoresCondition.mono {cnf : Cnf} (h : context.StoresCondition inner cnf) :
    context.StoresCondition outer cnf := by
  obtain ⟨name, clause, hcnf⟩ := h
  exact ⟨name, ⟨clause, clause.property.trans hinside⟩, hcnf⟩

theorem StoresExpression.mono {e : Expr} (h : context.StoresExpression inner e) :
    context.StoresExpression outer e := by
  obtain ⟨part, built, hbuilt, hnamed⟩ := h
  exact ⟨⟨part, part.property.trans hinside⟩, built, hbuilt, hnamed⟩

end

theorem storesCondition_of_condition {name : String} {tree : Tree} {cnf : Cnf}
    (h : context.condition name tree = .ok cnf) : context.StoresCondition tree cnf :=
  ⟨name, ⟨tree, .self⟩, h⟩

theorem storesExpression_of_expression {tree : Tree} {e : Expr}
    (h : context.expression tree = .ok e) : context.StoresExpression tree e :=
  ⟨⟨tree, .self⟩, e, h, .inl rfl⟩

theorem expression_of_firstExpression {tree : Tree} {e : Expr}
    (h : context.firstExpression tree = .ok e) :
    ∃ child, tree.children.find? Tree.isExpression = some child ∧
      context.expression child = .ok e := by
  simpa only [firstExpression, bind_eq_ok, require_eq_ok] using h

theorem storesExpression_of_firstExpression {tree : Tree} {e : Expr}
    (h : context.firstExpression tree = .ok e) : context.StoresExpression tree e := by
  obtain ⟨child, hfound, hchild⟩ := context.expression_of_firstExpression h
  exact (context.storesExpression_of_expression hchild).mono context
    (.of_mem (List.mem_of_find?_eq_some hfound))

theorem storesExpression_of_expressions {tree : Tree} {es : List Expr}
    (h : context.expressions tree = .ok es) : ∀ e ∈ es, context.StoresExpression tree e := by
  intro e hmem
  obtain ⟨child, hfiltered, hchild⟩ := exists_of_mem_right (forall₂_of_mapM_eq_ok h) hmem
  exact (context.storesExpression_of_expression hchild).mono context
    (.of_mem (List.mem_of_mem_filter hfiltered))

/-- An item of a select list is the first expression in its tree, with the alias that follows
it. -/
theorem selectItem_eq_ok {item : Tree} {e : Expr} (h : context.selectItem item = .ok e) :
    ∃ built, context.firstExpression item = .ok built ∧
      ((Tree.find? .aliasClause item.children = none ∧ e = built) ∨
        ∃ aliasName, item.aliasName = .ok aliasName ∧ e = named aliasName built) := by
  obtain ⟨built, hbuilt, h⟩ := bind_eq_ok.mp h
  refine ⟨built, hbuilt, ?_⟩
  split at h
  · simp only [bind_eq_ok, pure_eq_ok] at h
    obtain ⟨aliasName, haliasName, rfl⟩ := h
    exact .inr ⟨aliasName, haliasName, rfl⟩
  · rename_i hfound
    exact .inl ⟨hfound, (pure_eq_ok.mp h).symm⟩

theorem storesExpression_of_selectItem {item : Tree} {e : Expr}
    (h : context.selectItem item = .ok e) : context.StoresExpression item e := by
  obtain ⟨built, hbuilt, hnamed⟩ := context.selectItem_eq_ok h
  obtain ⟨child, hfound, hchild⟩ := context.expression_of_firstExpression hbuilt
  refine ⟨⟨child, .of_mem (List.mem_of_find?_eq_some hfound)⟩, built, hchild, ?_⟩
  rcases hnamed with ⟨-, rfl⟩ | ⟨aliasName, -, rfl⟩
  · exact .inl rfl
  · exact .inr ⟨aliasName, rfl⟩

/-- What is stored for a query itself was built from trees inside this one. -/
structure StoresOwn (tree : Tree) (query : SelectQuery) : Prop where
  condition : ∀ cnf ∈ query.condition, context.StoresCondition tree cnf
  having : ∀ cnf ∈ query.having, context.StoresCondition tree cnf
  joins : ∀ item ∈ query.sources, ∀ join ∈ item.joins, ∀ cnf ∈ join.condition,
    context.StoresCondition tree cnf
  items : ∀ e ∈ query.items, context.StoresExpression tree e
  grouping : ∀ es ∈ query.grouping, ∀ e ∈ es, context.StoresExpression tree e
  ordering : ∀ key ∈ query.ordering, context.StoresExpression tree key.expression

theorem StoresOwn.conditions {tree : Tree} {query : SelectQuery}
    (h : context.StoresOwn tree query) :
    ∀ cnf ∈ query.conditions, context.StoresCondition tree cnf := by
  intro cnf hmem
  simp only [SelectQuery.conditions, List.mem_append, List.mem_flatMap, List.mem_filterMap,
    Option.mem_toList] at hmem
  rcases hmem with (hmem | hmem) | ⟨item, hitem, join, hjoin, hmem⟩
  · exact h.condition cnf hmem
  · exact h.having cnf hmem
  · exact h.joins item hitem join hjoin cnf hmem

theorem StoresOwn.expressions {tree : Tree} {query : SelectQuery}
    (h : context.StoresOwn tree query) :
    ∀ e ∈ query.expressions, context.StoresExpression tree e := by
  intro e hmem
  simp only [SelectQuery.expressions, List.mem_append, List.mem_map] at hmem
  rcases hmem with (hmem | hmem) | ⟨key, hkey, rfl⟩
  · exact h.items e hmem
  · cases hgrouping : query.grouping with
    | none => simp [hgrouping] at hmem
    | some es => exact h.grouping es hgrouping e (by simpa [hgrouping] using hmem)
  · exact h.ordering key hkey

/-- A clause adds what was built from it. -/
theorem storesOwn_of_adds {outer tree : Tree} {query next : SelectQuery}
    (hinside : tree.Inside outer) (hadds : context.Adds tree query next)
    (h : context.StoresOwn outer query) : context.StoresOwn outer next := by
  have stored {cnf : Cnf} {name : String} (hcnf : context.condition name tree = .ok cnf) :
      ∀ other ∈ some cnf, context.StoresCondition outer other := by
    rintro other ⟨⟩
    exact (context.storesCondition_of_condition hcnf).mono context hinside
  cases hadds with
  | nothing => exact h
  | limit => exact { h with }
  | sources _ hsources =>
    refine { h with joins := fun item hitem join hjoin cnf hcnf => ?_ }
    obtain ⟨table, htable, hbuilds⟩ := context.fromItem_of_fromItems hsources item hitem
    obtain ⟨clause, hclause, -, hcondition⟩ := (context.tables_of_fromItem hbuilds).2 join hjoin
    obtain ⟨on, hmem, hon⟩ := hcondition cnf hcnf
    have hthrough := ((Tree.Inside.of_mem hmem).trans (.of_mem hclause)).trans (.of_mem htable)
    exact (context.storesCondition_of_condition hon).mono context (hthrough.trans hinside)
  | items _ hitems =>
    refine { h with items := fun e hmem => ?_ }
    obtain ⟨item, hfiltered, hitem⟩ := exists_of_mem_right hitems hmem
    exact (context.storesExpression_of_selectItem hitem).mono context
      ((Tree.Inside.of_mem (List.mem_of_mem_filter hfiltered)).trans hinside)
  | condition hcnf => exact { h with condition := stored hcnf }
  | grouping hgrouping =>
    refine { h with grouping := ?_ }
    rintro es ⟨⟩ e hmem
    exact (context.storesExpression_of_expressions hgrouping e hmem).mono context hinside
  | having hcnf => exact { h with having := stored hcnf }
  | ordering hordering =>
    refine { h with ordering := fun key hmem => ?_ }
    obtain ⟨item, hfiltered, hitem⟩ := exists_of_mem_right hordering hmem
    simp only [orderItem, bind_eq_ok, pure_eq_ok] at hitem
    obtain ⟨e, he, rfl⟩ := hitem
    exact (context.storesExpression_of_firstExpression he).mono context
      ((Tree.Inside.of_mem (List.mem_of_mem_filter hfiltered)).trans hinside)

/-- **What a query stores itself was built from trees inside its own.** -/
theorem storesOwn_of_select {tree : Tree} {query : SelectQuery}
    (h : context.select tree = .ok query) : context.StoresOwn tree query := by
  cases tree with
  | leaf lexeme => exact absurd h reject_ne_ok
  | node rule span children =>
    rw [select] at h
    refine context.clauses_keep
      (fun _ hmem _ _ hadds => context.storesOwn_of_adds (.of_mem hmem) hadds) h ?_
    constructor <;> simp [SelectQuery.empty]

/-! ### What a statement stores -/

/-- Whatever a statement stores was built from trees inside this one. -/
structure Stores (tree : Tree) (query : Query) : Prop where
  selects : ∀ inner ∈ query.selects, context.SelectsInside tree inner
  conditions : ∀ cnf ∈ query.conditions, context.StoresCondition tree cnf
  expressions : ∀ e ∈ query.expressions, context.StoresExpression tree e

theorem Stores.mono {inner outer : Tree} {query : Query} (h : context.Stores inner query)
    (hinside : inner.Inside outer) : context.Stores outer query where
  selects := fun select hmem => (h.selects select hmem).mono context hinside
  conditions := fun cnf hmem => (h.conditions cnf hmem).mono context hinside
  expressions := fun e hmem => (h.expressions e hmem).mono context hinside

/-- A statement of a kind that stores none of this. -/
theorem stores_of_nothing {tree : Tree} {query : Query} (hselects : query.selects = [])
    (hconditions : query.conditions = []) (hexpressions : query.expressions = []) :
    context.Stores tree query := by
  constructor <;> simp [hselects, hconditions, hexpressions]

theorem stores_select {tree : Tree} {query : SelectQuery} (hrule : tree.hasRule .selectStatement)
    (h : context.select tree = .ok query) : context.Stores tree (.select query) := by
  have hselects := context.selects_of_select tree hrule h
  refine ⟨hselects, fun cnf hmem => ?_, fun e hmem => ?_⟩
  · obtain ⟨inner, hinner, hmem⟩ := List.mem_flatMap.mp hmem
    obtain ⟨node, hinside, -, hnode⟩ := hselects inner hinner
    have hown := context.storesOwn_of_select hnode
    exact (hown.conditions context cnf hmem).mono context hinside
  · obtain ⟨inner, hinner, hmem⟩ := List.mem_flatMap.mp hmem
    obtain ⟨node, hinside, -, hnode⟩ := hselects inner hinner
    have hown := context.storesOwn_of_select hnode
    exact (hown.expressions context e hmem).mono context hinside

theorem storesExpression_of_valueRows {expected : Option Nat} {number : Nat} {trees : List Tree}
    {rows : List (List Expr)} (h : context.valueRows expected number trees = .ok rows) :
    ∀ row ∈ rows, ∀ e ∈ row, ∃ tree ∈ trees, context.StoresExpression tree e := by
  induction trees generalizing expected number rows with
  | nil =>
    obtain rfl : [] = rows := by simpa [valueRows] using h
    simp
  | cons tree trees ih =>
    obtain ⟨values, hvalues, h⟩ := bind_eq_ok.mp h
    dsimp only at h
    split at h
    · exact absurd h reject_ne_ok
    · simp only [bind_eq_ok, pure_eq_ok] at h
      obtain ⟨more, hmore, rfl⟩ := h
      refine List.forall_mem_cons.mpr ⟨fun e hmem => ?_, fun row hrow e hmem => ?_⟩
      · exact ⟨tree, by simp, context.storesExpression_of_expressions hvalues e hmem⟩
      · obtain ⟨other, hother, hstored⟩ := ih hmore row hrow e hmem
        exact ⟨other, by simp [hother], hstored⟩

theorem stores_insert {tree : Tree} {query : InsertQuery} (h : context.insert tree = .ok query) :
    context.Stores tree (.insert query) := by
  have rows {columns : Option (List ColumnRef)} {clause : Tree} {rows : List (List Expr)}
      (hclause : tree.required .valuesClause = .ok clause)
      (hrows : context.valueRows (columns.map List.length) 1
        (clause.children.filter (Tree.hasRule .valueRow)) = .ok rows) :
      ∀ e ∈ rows.flatten, context.StoresExpression tree e := by
    intro e hmem
    obtain ⟨row, hrow, hmem⟩ := List.mem_flatten.mp hmem
    obtain ⟨part, hpart, hstored⟩ := context.storesExpression_of_valueRows hrows row hrow e hmem
    exact hstored.mono context
      ((Tree.Inside.of_mem (List.mem_of_mem_filter hpart)).trans (Tree.inside_of_required hclause))
  refine ⟨by simp [Query.selects], by simp [Query.conditions], ?_⟩
  simp only [insert] at h
  split at h
  · obtain ⟨_, refused, -⟩ := bind_eq_ok.mp h
    exact absurd refused refuse_ne_ok
  · obtain ⟨table, -, h⟩ := bind_eq_ok.mp h
    split at h
    · simp only [bind_eq_ok, pure_eq_ok] at h
      obtain ⟨_, -, _, rfl, clause, hclause, values, hvalues, rfl⟩ := h
      exact rows hclause hvalues
    · simp only [bind_eq_ok, pure_eq_ok] at h
      obtain ⟨_, rfl, clause, hclause, values, hvalues, rfl⟩ := h
      exact rows hclause hvalues

theorem storesCondition_of_whereClause? {tree : Tree} {condition : Option Cnf}
    (h : context.whereClause? tree = .ok condition) :
    ∀ cnf ∈ condition.toList, context.StoresCondition tree cnf := by
  unfold whereClause? at h
  split at h
  · rename_i clause hfound
    simp only [bind_eq_ok, pure_eq_ok] at h
    obtain ⟨cnf, hcnf, rfl⟩ := h
    have hstored := (context.storesCondition_of_condition hcnf).mono context
      (.of_mem (List.mem_of_find?_eq_some hfound))
    simpa using hstored
  · cases h
    simp

theorem stores_update {tree : Tree} {query : UpdateQuery} (h : context.update tree = .ok query) :
    context.Stores tree (.update query) := by
  simp only [update, bind_eq_ok, pure_eq_ok] at h
  obtain ⟨assignments, hassignments, table, -, condition, hcondition, rfl⟩ := h
  refine ⟨by simp [Query.selects], context.storesCondition_of_whereClause? hcondition,
    fun e hmem => ?_⟩
  obtain ⟨⟨column, value⟩, hassignment, rfl⟩ := List.mem_map.mp hmem
  obtain ⟨part, hfiltered, hpart⟩ :=
    exists_of_mem_right (forall₂_of_mapM_eq_ok hassignments) hassignment
  simp only [assignment, bind_eq_ok, pure_eq_ok, require_eq_ok, Prod.mk.injEq] at hpart
  obtain ⟨_, -, last, hlast, _, -, value, hvalue, -, rfl⟩ := hpart
  exact (context.storesExpression_of_expression hvalue).mono context
    ((Tree.Inside.of_mem (List.mem_of_getLast? hlast)).trans
      (.of_mem (List.mem_of_mem_filter hfiltered)))

theorem stores_delete {tree : Tree} {query : DeleteQuery} (h : context.delete tree = .ok query) :
    context.Stores tree (.delete query) := by
  simp only [delete, bind_eq_ok, pure_eq_ok] at h
  obtain ⟨table, -, condition, hcondition, rfl⟩ := h
  exact ⟨by simp [Query.selects], context.storesCondition_of_whereClause? hcondition,
    by simp [Query.expressions]⟩

/-! ### Default values of columns -/

/-- The default value of a column, where it has one, was built from a tree inside this one. -/
def StoresDefault (tree : Tree) (column : ColumnDefinition) : Prop :=
  ∀ e ∈ column.defaultValue, context.StoresExpression tree e

theorem StoresDefault.mono {inner outer : Tree} {column : ColumnDefinition}
    (h : context.StoresDefault inner column) (hinside : inner.Inside outer) :
    context.StoresDefault outer column :=
  fun e hmem => (h e hmem).mono context hinside

theorem defaultValue_of_setLength {column next : ColumnDefinition} {length : Int}
    (h : column.setLength length = .ok next) : next.defaultValue = column.defaultValue := by
  unfold ColumnDefinition.setLength at h
  split at h
  · cases h
  · cases h
  · split at h
    · cases h
    · split at h
      · cases h
      · cases h
        rfl

theorem defaultValue_of_typeArguments {column next : ColumnDefinition} {list : Tree}
    (h : context.typeArguments column list = .ok next) :
    next.defaultValue = column.defaultValue := by
  simp only [typeArguments] at h
  split at h
  · simp only [bind_eq_ok, pure_eq_ok] at h
    obtain ⟨members, -, rfl⟩ := h
    rfl
  · simp only [bind_eq_ok, Built.ofMeaning, mapError_eq_ok] at h
    obtain ⟨length, -, h⟩ := h
    exact defaultValue_of_setLength h
  · simp only [bind_eq_ok, pure_eq_ok, Built.ofMeaning, mapError_eq_ok] at h
    obtain ⟨length, -, sized, hsized, scale, -, rfl⟩ := h
    exact (defaultValue_of_setLength hsized :)
  · exact defaultValue_of_setLength (mapError_eq_ok.mp h)
  · exact absurd h reject_ne_ok

theorem storesDefault_of_columnProperty {column next : ColumnDefinition} {outer tree : Tree}
    (hinside : tree.Inside outer) (h : context.columnProperty column tree = .ok next)
    (hcolumn : context.StoresDefault outer column) : context.StoresDefault outer next := by
  unfold columnProperty at h
  split at h
  case h_6 =>
    simp only [bind_eq_ok, pure_eq_ok] at h
    obtain ⟨e, he, rfl⟩ := h
    rintro _ ⟨⟩
    exact (context.storesExpression_of_firstExpression he).mono context hinside
  case h_7 =>
    split at h
    · simp only [bind_eq_ok, pure_eq_ok] at h
      obtain ⟨flags, -, rfl⟩ := h
      exact hcolumn
    · cases h
      exact hcolumn
  all_goals
    cases h
    exact hcolumn

theorem storesDefault_of_columnDefinition {tree : Tree} {column : ColumnDefinition}
    (h : context.columnDefinition tree = .ok column) : context.StoresDefault tree column := by
  simp only [columnDefinition, bind_eq_ok] at h
  obtain ⟨name, -, typeTree, -, h⟩ := h
  split at h
  · exact absurd h refuse_ne_ok
  · rename_i spelled hspelled
    have properties {next : ColumnDefinition} (hnext : next.defaultValue = none)
        (h : tree.children.foldlM context.columnProperty next = .ok column) :
        context.StoresDefault tree column := by
      refine keep_of_foldlM_eq_ok (motive := context.StoresDefault tree)
        (fun _ hmem _ _ hstep => context.storesDefault_of_columnProperty (.of_mem hmem) hstep) h ?_
      simp [StoresDefault, hnext]
    split at h
    · obtain ⟨next, hnext, h⟩ := bind_eq_ok.mp h
      exact properties (context.defaultValue_of_typeArguments hnext) h
    · obtain ⟨next, hnext, h⟩ := bind_eq_ok.mp h
      cases hnext
      exact properties rfl h

theorem storesDefault_of_changeColumn (change : ColumnDefinition → ColumnDefinition)
    {tree : Tree} {constraint name : String} {columns changed : List ColumnDefinition}
    (hchange : ∀ column, (change column).defaultValue = column.defaultValue)
    (h : changeColumn change constraint name columns = .ok changed)
    (hcolumns : ∀ column ∈ columns, context.StoresDefault tree column) :
    ∀ column ∈ changed, context.StoresDefault tree column := by
  induction columns generalizing changed with
  | nil => exact absurd h reject_ne_ok
  | cons column columns ih =>
    obtain ⟨hfirst, hothers⟩ := List.forall_mem_cons.mp hcolumns
    rw [changeColumn] at h
    split at h
    · cases h
      refine List.forall_mem_cons.mpr ⟨?_, hothers⟩
      rw [StoresDefault, hchange]
      exact hfirst
    · simp only [bind_eq_ok, pure_eq_ok] at h
      obtain ⟨more, hmore, rfl⟩ := h
      exact List.forall_mem_cons.mpr ⟨hfirst, ih hmore hothers⟩

theorem storesDefault_of_changeColumns (change : ColumnDefinition → ColumnDefinition)
    {tree : Tree} {constraint : String} {names : List String}
    {columns changed : List ColumnDefinition}
    (hchange : ∀ column, (change column).defaultValue = column.defaultValue)
    (h : changeColumns change constraint names columns = .ok changed)
    (hcolumns : ∀ column ∈ columns, context.StoresDefault tree column) :
    ∀ column ∈ changed, context.StoresDefault tree column :=
  keep_of_foldlM_eq_ok
    (motive := fun columns => ∀ column ∈ columns, context.StoresDefault tree column)
    (fun _ _ _ _ hstep => context.storesDefault_of_changeColumn change hchange hstep) h hcolumns

theorem storesDefault_of_tableElement {elements next : TableElements} {outer tree : Tree}
    (hinside : tree.Inside outer) (h : context.tableElement elements tree = .ok next)
    (hcolumns : ∀ column ∈ elements.columns, context.StoresDefault outer column) :
    ∀ column ∈ next.columns, context.StoresDefault outer column := by
  unfold tableElement at h
  split at h
  · simp only [bind_eq_ok, pure_eq_ok] at h
    obtain ⟨column, hcolumn, rfl⟩ := h
    have hlast := (context.storesDefault_of_columnDefinition hcolumn).mono context hinside
    simpa [or_imp, forall_and] using ⟨hcolumns, hlast⟩
  · simp only [bind_eq_ok, pure_eq_ok] at h
    obtain ⟨names, -, rfl⟩ := h
    exact hcolumns
  · obtain ⟨names, -, h⟩ := bind_eq_ok.mp h
    split at h
    · exact absurd h refuse_ne_ok
    · cases h
      exact hcolumns
  · cases h
    exact hcolumns

theorem stores_createTable {tree : Tree} {query : CreateTableQuery}
    (h : context.createTable tree = .ok query) : context.Stores tree (.createTable query) := by
  simp only [createTable, bind_eq_ok, pure_eq_ok] at h
  obtain ⟨list, hlist, elements, helements, keyed, hkeyed, columns, hcolumns, table, -, rfl⟩ := h
  refine ⟨by simp [Query.selects], by simp [Query.conditions], fun e hmem => ?_⟩
  obtain ⟨column, hcolumn, hvalue⟩ := List.mem_filterMap.mp hmem
  have hinside := Tree.inside_of_required hlist
  have hfirst : ∀ column ∈ elements.columns, context.StoresDefault tree column :=
    keep_of_foldlM_eq_ok (motive := fun elements => ∀ column ∈ elements.columns,
      context.StoresDefault tree column)
      (fun _ hmem _ _ hstep =>
        context.storesDefault_of_tableElement ((Tree.Inside.of_mem hmem).trans hinside) hstep)
      helements (by simp)
  have hsecond := context.storesDefault_of_changeColumns inPrimaryKey (fun _ => rfl) hkeyed
    hfirst
  exact context.storesDefault_of_changeColumns madeUnique (fun _ => rfl) hcolumns hsecond
    column hcolumn e hvalue

theorem stores_alterTable {tree : Tree} {query : AlterTableQuery}
    (h : context.alterTable tree = .ok query) : context.Stores tree (.alterTable query) := by
  refine ⟨by simp [Query.selects], by simp [Query.conditions], fun e hmem => ?_⟩
  obtain ⟨action, haction, h⟩ := bind_eq_ok.mp h
  dsimp only at h
  split at h
  · exact absurd h refuse_ne_ok
  · split at h
    · exact absurd h refuse_ne_ok
    · simp only [bind_eq_ok, pure_eq_ok] at h
      obtain ⟨definition, hdefinition, table, -, column, hcolumn, rfl⟩ := h
      have hinside := (Tree.inside_of_required hdefinition).trans (Tree.inside_of_required haction)
      exact (context.storesDefault_of_columnDefinition hcolumn).mono context hinside e
        (Option.mem_toList.mp hmem)

/-! ### Statements and batches -/

theorem stores_of_simpleStatement {tree : Tree} {query : Query}
    (h : context.simpleStatement tree = .ok query) : context.Stores tree query := by
  unfold simpleStatement at h
  split at h
  case h_1 hrule =>
    obtain ⟨select, hselect, rfl⟩ := map_eq_ok.mp h
    exact context.stores_select (Tree.hasRule_iff.mpr hrule) hselect
  case h_2 =>
    obtain ⟨insert, hinsert, rfl⟩ := map_eq_ok.mp h
    exact context.stores_insert hinsert
  case h_3 =>
    obtain ⟨update, hupdate, rfl⟩ := map_eq_ok.mp h
    exact context.stores_update hupdate
  case h_4 =>
    obtain ⟨delete, hdelete, rfl⟩ := map_eq_ok.mp h
    exact context.stores_delete hdelete
  case h_5 =>
    obtain ⟨table, htable, rfl⟩ := map_eq_ok.mp h
    exact context.stores_createTable htable
  case h_6 =>
    obtain ⟨table, htable, rfl⟩ := map_eq_ok.mp h
    exact context.stores_alterTable htable
  all_goals first
    | exact absurd h reject_ne_ok
    | cases h
      exact context.stores_of_nothing rfl rfl rfl
    | obtain ⟨_, -, rfl⟩ := map_eq_ok.mp h
      exact context.stores_of_nothing rfl rfl rfl

theorem statement_of_innerStatement {trees : List Tree} {built : Built Query}
    (h : context.innerStatement trees = some built) :
    ∃ tree ∈ trees, context.statement tree = built := by
  induction trees with
  | nil => cases h
  | cons tree trees ih =>
    rw [innerStatement] at h
    split at h
    · obtain ⟨inner, hmem, hinner⟩ := ih h
      exact ⟨inner, by simp [hmem], hinner⟩
    · exact ⟨tree, by simp, Option.some.inj h⟩

theorem stores_of_statement (tree : Tree) {query : Query}
    (h : context.statement tree = .ok query) : context.Stores tree query := by
  induction tree using Tree.induct generalizing query with
  | leaf lexeme => exact context.stores_of_simpleStatement h
  | node rule span children ih =>
    unfold statement at h
    split at h
    · rename_i heq
      cases heq
      simp only [bind_eq_ok, require_eq_ok] at h
      obtain ⟨built, hbuilt, inner, rfl, h⟩ := h
      obtain ⟨child, hmem, hchild⟩ := context.statement_of_innerStatement hbuilt
      have hinner := (ih child hmem hchild).mono context
        (.of_mem hmem : child.Inside (.node .bypassStatement span children))
      unfold bypassed at h
      split at h
      · cases h
        exact ⟨hinner.selects, hinner.conditions, hinner.expressions⟩
      · exact absurd h reject_ne_ok
    · exact context.stores_of_simpleStatement h

/-- **Whatever the statements of a batch store was built from trees inside that of the batch.** -/
theorem stores_of_batch {tree : Tree} {queries : List Query}
    (h : context.batch tree = .ok queries) : ∀ query ∈ queries, context.Stores tree query := by
  intro query hmem
  obtain ⟨child, hchild, hstatement⟩ := exists_of_mem_right (forall₂_of_mapM_eq_ok h) hmem
  exact (context.stores_of_statement child hstatement).mono context
    (.of_mem (List.mem_of_mem_filter hchild))

end Build.Context

end SqlFront
