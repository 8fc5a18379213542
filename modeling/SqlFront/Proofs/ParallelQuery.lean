import SqlFront.Proofs.ParallelExpression

/-!
Queries of two texts side by side.

A query is built clause by clause, and each clause from related trees. The limit on the size of a
normal form is the only setting that the two sides may differ in, and the second one may only be
larger.
-/

namespace SqlFront

/-- A node is none of another production. -/
theorem Tree.node_ne {rule other : Rule} {span : Span} {children : List Tree} (h : rule ≠ other)
    (span' : Span) (children' : List Tree) :
    node rule span children = node other span' children' → False := by
  rintro ⟨⟩
  exact h rfl

namespace Parallel

open Build

variable {p : Parallel} {tree tree' : Tree}

/-- Conditions in normal form look alike where the conditions do. -/
theorem normalizeWithin_follows {limit limit' : Nat} (hlimit : limit ≤ limit') {e e' : Expr}
    (h : p.Alike Expr.seen e e') :
    Follows (p.Alike Cnf.seen) (e.normalizeWithin limit) (e'.normalizeWithin limit') := by
  have hsize : e.cnfSize = e'.cnfSize := h.apply_eq fun _ => Expr.cnfSize_seen
  rw [Expr.normalizeWithin, Expr.normalizeWithin, ← hsize]
  by_cases hfits : limit < e.cnfSize.leaves
  · rw [if_pos hfits]
    rintro _ ⟨⟩
  · rw [if_neg hfits, if_neg (by omega)]
    refine .ok ?_
    rw [Alike, Expr.seen_normalize, h, Expr.seen_normalize]

theorem named_alike (aliasName : String) {e e' : Expr} (h : p.Alike Expr.seen e e') :
    p.Alike Expr.seen (named aliasName e) (named aliasName e') := by
  rw [Alike, Expr.seen_named, Expr.seen_named, h, p.aliases]

/-! ### Words and numbers of a clause -/

theorem sortDirection_eq (h : p.Trees tree tree') : sortDirection tree = sortDirection tree' := by
  rw [sortDirection, Tree.Matches.hasKeyword_eq p.keepsToken h.children, sortDirection]

theorem joinKind_eq {trees trees' : List Tree} (h : List.Forall₂ p.Trees trees trees') :
    joinKind trees = joinKind trees' := by
  unfold joinKind
  simp only [Tree.Matches.hasKeyword_eq p.keepsToken h]

theorem counts_rel (h : p.Trees tree tree') :
    List.Forall₂ (p.Alike Token.seen) (counts tree) (counts tree') := by
  refine rel_filter (List.rel_map (fun _ _ h => h.token) (Tree.Matches.leaves h.children))
    fun token token' h => ?_
  rcases token_cases h with rfl | ⟨label, label', rfl, rfl, -⟩
  · rfl
  · rfl

theorem rowCount_follows {token token' : Token} (h : p.Alike Token.seen token token') :
    Follows Eq (rowCount token) (rowCount token') := by
  rcases token_cases h with rfl | ⟨label, label', rfl, rfl, -⟩
  · exact .of_eq rfl
  · exact .refuse

theorem topLimit_follows (h : p.Trees tree tree') :
    Follows Eq (topLimit tree) (topLimit tree') := by
  unfold topLimit
  rw [← Tree.Matches.hasWord_eq p.keepsToken h.children]
  split
  · exact .refuse
  · refine (Follows.require (rel_head? (counts_rel h))).bind fun count count' hcount => ?_
    refine (rowCount_follows hcount).bind ?_
    rintro n _ rfl
    exact .ok rfl

theorem limit_follows (h : p.Trees tree tree') : Follows Eq (limit tree) (limit tree') := by
  have htwo {first first' second second' : Token} (hfirst : p.Alike Token.seen first first')
      (hsecond : p.Alike Token.seen second second') :
      Follows Eq (do return ⟨← rowCount first, some (← rowCount second)⟩ : Built RowLimit)
        (do return ⟨← rowCount first', some (← rowCount second')⟩) := by
    refine (rowCount_follows hfirst).bind ?_
    rintro n _ rfl
    refine (rowCount_follows hsecond).bind ?_
    rintro m _ rfl
    exact .ok rfl
  have hcounts := counts_rel h
  unfold limit
  generalize counts tree = tokens at hcounts ⊢
  generalize counts tree' = tokens' at hcounts ⊢
  rcases hcounts with _ | ⟨hfirst, _ | ⟨hsecond, _ | _⟩⟩
  · exact .reject
  · refine (rowCount_follows hfirst).bind ?_
    rintro n _ rfl
    exact .ok rfl
  · dsimp only
    rw [← Tree.Matches.hasSymbol_eq p.keepsToken h.children]
    split
    · exact htwo hsecond hfirst
    · exact htwo hfirst hsecond
  · exact .reject

/-! ### Expressions of a clause -/

theorem firstExpression_follows (h : p.Trees tree tree') :
    Follows (p.Alike Expr.seen) (p.left.firstExpression tree) (p.right.firstExpression tree') :=
  (Follows.require (rel_find? h.children fun _ _ h => h.isExpression_eq)).bind
    fun _ _ h => expression_follows h

theorem expressions_follows (h : p.Trees tree tree') :
    Follows (List.Forall₂ (p.Alike Expr.seen)) (p.left.expressions tree)
      (p.right.expressions tree') :=
  .mapM (Tree.Matches.expressions h.children) fun _ _ h => expression_follows h

theorem condition_follows (name : String) (h : p.Trees tree tree') :
    Follows (p.Alike Cnf.seen) (p.left.condition name tree) (p.right.condition name tree') := by
  refine (firstExpression_follows h).bind fun e e' he => ?_
  rw [← isPredicate_eq he]
  split
  · exact (normalizeWithin_follows p.limits.maxCnfLeaves he).mapError
  · exact .reject

theorem selectItem_follows (h : p.Trees tree tree') :
    Follows (p.Alike Expr.seen) (p.left.selectItem tree) (p.right.selectItem tree') := by
  refine (firstExpression_follows h).bind fun e e' he => ?_
  rcases rel_cases (Tree.Matches.find? h.children .aliasClause) with ⟨hclause, hclause'⟩ |
    ⟨clause, clause', hclause, hclause', -⟩
  · rw [hclause, hclause']
    exact .ok he
  · rw [hclause, hclause']
    refine (Tree.Matches.aliasName_follows p.keepsToken h).bind ?_
    rintro aliasName _ rfl
    exact .ok (named_alike aliasName he)

theorem orderItem_follows (h : p.Trees tree tree') :
    Follows (p.Alike OrderItem.seen) (p.left.orderItem tree) (p.right.orderItem tree') := by
  refine (firstExpression_follows h).bind fun e e' he => .ok ?_
  rw [Alike, OrderItem.seen, OrderItem.seen, he, sortDirection_eq h]

/-! ### Clauses -/

theorem query_alike_iff {query query' : SelectQuery} : p.Alike SelectQuery.seen query query' ↔
    query.distinct = query'.distinct ∧
      p.Alike (fun view => List.map (Expr.seen view)) query.items query'.items ∧
      p.Alike FromItem.seenAll query.sources query'.sources ∧
      p.Alike (fun view => Option.map (Cnf.seen view)) query.condition query'.condition ∧
      p.Alike (fun view => Option.map (List.map (Expr.seen view))) query.grouping query'.grouping ∧
      p.Alike (fun view => Option.map (Cnf.seen view)) query.having query'.having ∧
      p.Alike (fun view => List.map (OrderItem.seen view)) query.ordering query'.ordering ∧
      query.limit = query'.limit := by
  cases query
  cases query'
  rw [Alike, SelectQuery.seen, SelectQuery.seen, SelectQuery.mk.injEq]

/-- A clause of another table adds things that look alike. -/
theorem clause_follows (h : p.Trees tree tree') {query query' : SelectQuery}
    (hquery : p.Alike SelectQuery.seen query query') :
    Follows (p.Alike SelectQuery.seen) (p.left.clause tree query)
      (p.right.clause tree' query') := by
  obtain ⟨hdistinct, hitems, hsources, hcondition, hgrouping, hhaving, hordering, hlimit⟩ :=
    query_alike_iff.mp hquery
  unfold Context.clause
  rw [← h.rule?_eq]
  split
  · refine (topLimit_follows h).bind ?_
    rintro limit _ rfl
    exact .ok (query_alike_iff.mpr ⟨hdistinct, hitems, hsources, hcondition, hgrouping, hhaving,
      hordering, rfl⟩)
  · refine (Follows.mapM (Tree.Matches.ofRule h.children .selectItem) fun _ _ h =>
      selectItem_follows h).bind fun items items' hitems => ?_
    exact .ok (query_alike_iff.mpr ⟨hdistinct, .map hitems, hsources, hcondition, hgrouping,
      hhaving, hordering, hlimit⟩)
  · refine (condition_follows _ h).bind fun cnf cnf' hcnf => ?_
    exact .ok (query_alike_iff.mpr ⟨hdistinct, hitems, hsources, congrArg some hcnf, hgrouping,
      hhaving, hordering, hlimit⟩)
  · refine (expressions_follows h).bind fun es es' hes => ?_
    exact .ok (query_alike_iff.mpr ⟨hdistinct, hitems, hsources, hcondition,
      congrArg some (Alike.map hes), hhaving, hordering, hlimit⟩)
  · refine (condition_follows _ h).bind fun cnf cnf' hcnf => ?_
    exact .ok (query_alike_iff.mpr ⟨hdistinct, hitems, hsources, hcondition, hgrouping,
      congrArg some hcnf, hordering, hlimit⟩)
  · refine (Follows.mapM (Tree.Matches.ofRule h.children .orderItem) fun _ _ h =>
      orderItem_follows h).bind fun ordering ordering' hordering => ?_
    exact .ok (query_alike_iff.mpr ⟨hdistinct, hitems, hsources, hcondition, hgrouping, hhaving,
      .map hordering, hlimit⟩)
  · refine (limit_follows h).bind ?_
    rintro limit _ rfl
    exact .ok (query_alike_iff.mpr ⟨hdistinct, hitems, hsources, hcondition, hgrouping, hhaving,
      hordering, rfl⟩)
  · exact .ok hquery

/-! ### Queries -/

theorem joins_alike (kind : JoinKind) {source source' : TableSource}
    (hsource : p.Alike TableSource.seen source source') {condition condition' : Option Cnf}
    (hcondition : p.Alike (fun view => Option.map (Cnf.seen view)) condition condition')
    {joins joins' : List Join} (hjoins : p.Alike Join.seenAll joins joins') :
    p.Alike Join.seenAll (⟨kind, source, condition⟩ :: joins)
      (⟨kind, source', condition'⟩ :: joins') := by
  simp only [Alike, Join.seenAll, Join.seen, hsource, hcondition, hjoins]

mutual

/-- **Related trees build queries that look alike.** -/
theorem select_follows (tree : Tree) {tree' : Tree} (h : p.Trees tree tree') :
    Follows (p.Alike SelectQuery.seen) (p.left.select tree) (p.right.select tree') := by
  cases h with
  | leaf _ => exact .reject
  | @node rule span span' children children' hspan hchildren =>
    rw [Context.select, Context.select, Tree.Matches.hasKeyword_eq p.keepsToken hchildren]
    exact clauses_follows children hchildren rfl
termination_by sizeOf tree

theorem clauses_follows (trees : List Tree) {trees' : List Tree} {query query' : SelectQuery}
    (h : List.Forall₂ p.Trees trees trees') (hquery : p.Alike SelectQuery.seen query query') :
    Follows (p.Alike SelectQuery.seen) (p.left.clauses trees query)
      (p.right.clauses trees' query') := by
  cases h with
  | nil => exact .ok hquery
  | @cons tree tree' trees trees' htree htrees =>
    have hclause := clause_follows htree hquery
    cases htree with
    | leaf _ => exact hclause.bind fun _ _ hquery => clauses_follows trees htrees hquery
    | @node rule span span' children children' hspan hchildren =>
      by_cases hrule : rule = .fromClause
      · subst hrule
        rw [Context.clauses, Context.clauses]
        refine (fromItems_follows children hchildren).bind fun sources sources' hsources => ?_
        refine clauses_follows trees htrees (query_alike_iff.mpr ?_)
        obtain ⟨hdistinct, hitems, -, hothers⟩ := query_alike_iff.mp hquery
        exact ⟨hdistinct, hitems, hsources, hothers⟩
      · rw [Context.clauses.eq_3 _ _ _ _ (Tree.node_ne hrule),
          Context.clauses.eq_3 _ _ _ _ (Tree.node_ne hrule)]
        exact hclause.bind fun _ _ hquery => clauses_follows trees htrees hquery
termination_by sizeOf trees

theorem fromItems_follows (trees : List Tree) {trees' : List Tree}
    (h : List.Forall₂ p.Trees trees trees') :
    Follows (p.Alike FromItem.seenAll) (p.left.fromItems trees) (p.right.fromItems trees') := by
  cases h with
  | nil => exact .ok rfl
  | @cons tree tree' trees trees' htree htrees =>
    have hrest := fromItems_follows trees htrees
    cases htree with
    | leaf _ => exact hrest
    | @node rule span span' children children' hspan hchildren =>
      by_cases hrule : rule = .tableSource
      · subst hrule
        rw [Context.fromItems, Context.fromItems]
        refine (fromItem_follows children hchildren).bind fun item item' hitem => ?_
        refine hrest.bind fun items items' hitems => .ok ?_
        rw [Alike, FromItem.seenAll, FromItem.seenAll, hitem, hitems]
      · rw [Context.fromItems.eq_3 _ _ _ (Tree.node_ne hrule),
          Context.fromItems.eq_3 _ _ _ (Tree.node_ne hrule)]
        exact hrest
termination_by sizeOf trees

theorem fromItem_follows (trees : List Tree) {trees' : List Tree}
    (h : List.Forall₂ p.Trees trees trees') :
    Follows (p.Alike FromItem.seen) (p.left.fromItem trees) (p.right.fromItem trees') := by
  cases h with
  | nil => exact .reject
  | @cons primary primary' rest rest' hprimary hrest =>
    refine (tableSource_follows primary hprimary).bind fun source source' hsource => ?_
    refine (joins_follows rest hrest).bind fun joins joins' hjoins => .ok ?_
    rw [Alike, FromItem.seen, FromItem.seen, hsource, hjoins]
termination_by sizeOf trees

theorem joins_follows (trees : List Tree) {trees' : List Tree}
    (h : List.Forall₂ p.Trees trees trees') :
    Follows (p.Alike Join.seenAll) (p.left.joins trees) (p.right.joins trees') := by
  cases h with
  | nil => exact .ok rfl
  | @cons tree tree' trees trees' htree htrees =>
    have hrest := joins_follows trees htrees
    cases htree with
    | leaf _ => exact hrest
    | @node rule span span' children children' hspan hchildren =>
      by_cases hrule : rule = .joinClause
      · subst hrule
        rw [Context.joins, Context.joins, ← joinKind_eq hchildren]
        refine (Follows.require (joinedSource_rel children hchildren)).bind
          fun built built' hbuilt => ?_
        have hjoin {condition condition' : Option Cnf}
            (hcondition : p.Alike (fun view => Option.map (Cnf.seen view)) condition condition') :
            Follows (p.Alike Join.seenAll)
              (do
                let source ← built
                let joins ← p.left.joins trees
                return ⟨joinKind children, source, condition⟩ :: joins)
              (do
                let source ← built'
                let joins ← p.right.joins trees'
                return ⟨joinKind children, source, condition'⟩ :: joins) :=
          hbuilt.bind fun _ _ hsource => hrest.bind fun _ _ hjoins =>
            .ok (joins_alike _ hsource hcondition hjoins)
        rcases rel_cases (Tree.Matches.find? hchildren .joinCondition) with ⟨hclause, hclause'⟩ |
          ⟨clause, clause', hclause, hclause', hrel⟩
        · rw [hclause, hclause']
          exact hjoin rfl
        · rw [hclause, hclause']
          have hcondition := (condition_follows "ON" hrel).map (f := some) (g := some)
            (T := p.Alike fun view => Option.map (Cnf.seen view)) fun _ _ h => congrArg some h
          exact hcondition.bind fun condition condition' h => hjoin h
      · rw [Context.joins.eq_3 _ _ _ (Tree.node_ne hrule),
          Context.joins.eq_3 _ _ _ (Tree.node_ne hrule)]
        exact hrest
termination_by sizeOf trees

theorem joinedSource_rel (trees : List Tree) {trees' : List Tree}
    (h : List.Forall₂ p.Trees trees trees') :
    Option.Rel (Follows (p.Alike TableSource.seen)) (p.left.joinedSource trees)
      (p.right.joinedSource trees') := by
  cases h with
  | nil => exact .none
  | @cons tree tree' trees trees' htree htrees =>
    rw [Context.joinedSource, Context.joinedSource, ← htree.hasRule_eq, ← htree.hasRule_eq]
    split
    · exact .some (tableSource_follows tree htree)
    · exact joinedSource_rel trees htrees
termination_by sizeOf trees

theorem tableSource_follows (tree : Tree) {tree' : Tree} (h : p.Trees tree tree') :
    Follows (p.Alike TableSource.seen) (p.left.tableSource tree) (p.right.tableSource tree') := by
  have hname := Tree.Matches.aliasName_follows p.keepsToken h
  have htable := Tree.Matches.table_follows p.keepsToken p.left.config.dialect h
  cases h with
  | leaf _ => exact .reject
  | @node rule span span' children children' hspan hchildren =>
    by_cases hrule : rule = .tableName
    · subst hrule
      rw [Context.tableSource, Context.tableSource, ← p.limits.dialect]
      refine htable.bind ?_
      rintro table _ rfl
      exact .ok rfl
    · by_cases hderived : rule = .derivedTable
      · subst hderived
        rw [Context.tableSource, Context.tableSource]
        refine (Follows.require (innerQuery_rel children hchildren)).bind fun _ _ hbuilt => ?_
        refine hbuilt.bind fun query query' hquery => hname.bind ?_
        rintro aliasName _ rfl
        refine .ok ?_
        rw [Alike, TableSource.seen, TableSource.seen, hquery]
      · rw [Context.tableSource.eq_3 _ _ (Tree.node_ne hrule) (Tree.node_ne hderived)]
        exact .reject
termination_by sizeOf tree

theorem innerQuery_rel (trees : List Tree) {trees' : List Tree}
    (h : List.Forall₂ p.Trees trees trees') :
    Option.Rel (Follows (p.Alike SelectQuery.seen)) (p.left.innerQuery trees)
      (p.right.innerQuery trees') := by
  cases h with
  | nil => exact .none
  | @cons tree tree' trees trees' htree htrees =>
    rw [Context.innerQuery, Context.innerQuery, ← htree.hasRule_eq]
    split
    · exact .some (select_follows tree htree)
    · exact innerQuery_rel trees htrees
termination_by sizeOf trees

end

end Parallel

end SqlFront
