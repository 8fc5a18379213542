import SqlFront.Proofs.LabelledForms
import SqlFront.Proofs.QueryRefusal
import SqlFront.Proofs.StatementDerivation

/-!
Queries have the labels of the trees that they are built from.

The argument follows the forms, as that on derivations does. Each clause is stored in a place of its
own, which is empty before, so a query has the labels of all its clauses. A row limit has none: no
number is built from a placeholder. That a table in parentheses keeps its labels is a hypothesis
here, which is discharged by induction on the levels of nesting in the next module.
-/

namespace SqlFront

open Grammar Build SqlFront.Tree

namespace Build.Context

variable (context : Context) {tree value : Tree}

/-- Where only the first expression has labels, a tree has those of what it builds. -/
theorem keepsLabels_firstExpression (hfind : tree.children.find? isExpression = some value)
    (hkeeps : context.KeepsExpression value) (hlabels : tree.labels = value.labels) :
    tree.KeepsLabels context.firstExpression Expr.labels := by
  intro e hbuilt
  simp only [firstExpression, bind_eq_ok, require_eq_ok] at hbuilt
  obtain ⟨first, hfirst, hbuilt⟩ := hbuilt
  obtain rfl := Option.some.inj (hfind.symm.trans hfirst)
  rw [hlabels]
  exact hkeeps e hbuilt

/-- A condition in normal form has the labels of the condition as it is written. -/
theorem keepsLabels_condition (name : String)
    (hkeeps : tree.KeepsLabels context.firstExpression Expr.labels) :
    tree.KeepsLabels (context.condition name) Cnf.labels := by
  intro cnf hbuilt
  obtain ⟨e, he, hbuilt⟩ := bind_eq_ok.mp hbuilt
  split at hbuilt
  · obtain ⟨-, rfl⟩ := Expr.normalizeWithin_eq_ok_iff.mp (mapError_eq_ok.mp hbuilt)
    exact (labels_normalize e).trans (hkeeps e he)
  · exact absurd hbuilt reject_ne_ok

theorem keepsLabels_orderItem (hkeeps : tree.KeepsLabels context.firstExpression Expr.labels) :
    tree.KeepsLabels context.orderItem fun key => key.expression.labels := by
  intro key hbuilt
  obtain ⟨e, he, hbuilt⟩ := bind_eq_ok.mp hbuilt
  obtain rfl := pure_eq_ok.mp hbuilt
  exact hkeeps e he

theorem keepsLabels_selectItem (hkeeps : tree.KeepsLabels context.firstExpression Expr.labels) :
    tree.KeepsLabels context.selectItem Expr.labels := by
  intro e hbuilt
  obtain ⟨first, hfirst, hbuilt⟩ := bind_eq_ok.mp hbuilt
  split at hbuilt
  · obtain ⟨aliasName, -, hbuilt⟩ := bind_eq_ok.mp hbuilt
    obtain rfl := pure_eq_ok.mp hbuilt
    rw [labels_named]
    exact hkeeps first hfirst
  · obtain rfl := pure_eq_ok.mp hbuilt
    exact hkeeps first hfirst

end Build.Context

namespace Grammar

open Form

variable {enter : Construct → Reader} {levels : Nat} {rule : Rule} {accepts : Token → Bool}
  {wanted : String} {trees : List Tree} (context : Context)

/-! ### Expressions in clauses -/

section

variable (h : Nests enter levels)
include h

theorem expression_keeps (hyields : expression.Yields enter trees) :
    ∃ tree, trees = [tree] ∧ tree.isExpression ∧ context.KeepsExpression tree := by
  obtain ⟨tree, rfl, hlevel, hderived⟩ := expression_makesAt h trees hyields
  exact ⟨tree, rfl, isExpression_of_bindsAt hlevel, context.keepsExpression tree hderived.derived⟩

theorem expression_picked :
    expression.Each enter (Picked isExpression context.expression Expr.labels) := by
  intro trees hyields tree hmem
  obtain ⟨value, rfl, hexpression, hkeeps⟩ := expression_keeps context h hyields
  obtain rfl := List.mem_singleton.mp hmem
  exact .inl ⟨hexpression, hkeeps⟩

/-- An expression, and words and names after it. -/
theorem leading_keeps {after : Form} (hafter : after.Silent enter)
    (hyields : (Form.seq expression after).Yields enter trees) :
    (ofParts rule trees).KeepsLabels context.firstExpression Expr.labels := by
  obtain ⟨_, right, hvalue, hright, rfl⟩ := hyields.seq
  obtain ⟨value, rfl, hexpression, hkeeps⟩ := expression_keeps context h hvalue
  refine context.keepsLabels_firstExpression ?_ hkeeps ?_
  · simp [ofParts, children, hexpression]
  · simp [hafter.labelsOf hright]

/-- A word, and a condition after it. -/
theorem condition_keeps (name : String) (hlabel : ∀ label, accepts (.placeholder label) = false)
    (hyields : (Form.seq (.token accepts wanted) expression).Yields enter trees) :
    (ofParts rule trees).KeepsLabels (context.condition name) Cnf.labels := by
  obtain ⟨_, _, hword, hvalue, rfl⟩ := hyields.seq
  obtain ⟨word, rfl, haccepts⟩ := hword.token
  obtain ⟨value, rfl, hexpression, hkeeps⟩ := expression_keeps context h hvalue
  have silent : (leaf word).labels = [] := labels_of_isTokenOf hlabel haccepts
  refine context.keepsLabels_condition name (context.keepsLabels_firstExpression ?_ hkeeps ?_)
  · simp [ofParts, children, hexpression]
  · rw [labels_ofParts, List.singleton_append, labelsOf_cons, labelsOf_cons, labelsOf_nil, silent,
      List.nil_append, List.append_nil]

theorem orderItem_picked :
    (Form.node .orderItem (.seq expression direction)).Each enter
      (Picked (hasRule .orderItem) context.orderItem fun key => key.expression.labels) :=
  picked_node fun _ hparts =>
    context.keepsLabels_orderItem (leading_keeps context h direction_silent hparts)

/-- A star is an expression without labels. -/
theorem selectItem_picked :
    selectItem.Each enter (Picked (hasRule .selectItem) context.selectItem Expr.labels) := by
  refine picked_node fun parts hparts => context.keepsLabels_selectItem ?_
  rcases hparts.ifAt with hstar | hvalue
  · obtain ⟨star, -, rfl⟩ := hstar.node
    have hderived : (ofParts .allColumns star).DerivedWithin levels :=
      star_derives _ hstar _ (by simp)
    exact context.keepsLabels_firstExpression rfl (context.keepsExpression _ hderived.derived)
      (by simp)
  · exact leading_keeps context h alias?_silent hvalue

end

end Grammar

/-! ### Tables -/

namespace Build.Context

variable (context : Context) {trees : List Tree}

theorem fromItems_eq_mapM (trees : List Tree) :
    context.fromItems trees = (trees.filter (hasRule .tableSource)).mapM
      fun tree => context.fromItem tree.children := by
  induction trees with
  | nil => rw [fromItems]; rfl
  | cons tree trees ih =>
    cases hrule : tree.hasRule .tableSource with
    | true =>
      obtain ⟨span, parts, rfl⟩ := eq_node_of_hasRule hrule
      rw [fromItems, List.filter_cons_of_pos hrule, List.mapM_cons, ih]
      rfl
    | false =>
      rw [fromItems.eq_3 _ _ _ (ne_node_of_hasRule hrule),
        List.filter_cons_of_neg (by simp [hrule]), ih]

/-- The condition of a join, where it has one. -/
def joinCondition? (children : List Tree) : Built (Option Cnf) :=
  match Tree.find? .joinCondition children with
  | some clause => (context.condition "ON" clause).map some
  | none => .ok none

/-- A join, from the parts of its node. -/
def join (children : List Tree) : Built Join := do
  let source ← Built.require (.malformed (some .joinClause)) (context.joinedSource children)
  let condition ← context.joinCondition? children
  return ⟨joinKind children, ← source, condition⟩

theorem joins_eq_mapM (trees : List Tree) :
    context.joins trees = (trees.filter (hasRule .joinClause)).mapM
      fun tree => context.join tree.children := by
  induction trees with
  | nil => rw [joins]; rfl
  | cons tree trees ih =>
    cases hrule : tree.hasRule .joinClause with
    | true =>
      obtain ⟨span, parts, rfl⟩ := eq_node_of_hasRule hrule
      rw [joins, List.filter_cons_of_pos hrule, List.mapM_cons, ih, join, joinCondition?,
        Tree.children]
      cases Tree.find? .joinCondition parts with
      | some clause => simp only [bind_assoc, pure_bind]
      | none => simp only [bind_assoc, pure_bind]
    | false =>
      rw [joins.eq_3 _ _ _ (ne_node_of_hasRule hrule),
        List.filter_cons_of_neg (by simp [hrule]), ih]

theorem joinedSource_of_table {before after : List Tree} {table : Tree}
    (hbefore : ∀ tree ∈ before, tree.isLeaf) (htable : table.isTable) :
    context.joinedSource (before ++ table :: after) = some (context.tableSource table) := by
  induction before with
  | nil =>
    rw [List.nil_append, joinedSource]
    exact if_pos htable
  | cons tree before ih =>
    obtain ⟨hfirst, hothers⟩ := List.forall_mem_cons.mp hbefore
    rw [List.cons_append, joinedSource, if_neg (by simp [hasRule_of_isLeaf hfirst]), ih hothers]

/-- The tree of a table has the labels of what it builds. -/
abbrev KeepsTable (tree : Tree) : Prop := tree.KeepsLabels context.tableSource TableSource.labels

/-- The name of a table has no labels. -/
theorem keepsTable_of_name {parts : List Tree} (hparts : labelsOf parts = []) :
    context.KeepsTable (ofParts .tableName parts) := by
  intro source hbuilt
  simp only [ofParts, tableSource, bind_eq_ok, pure_eq_ok] at hbuilt
  obtain ⟨table, -, rfl⟩ := hbuilt
  rw [labels_ofParts, hparts]
  exact .refl []

/-- A clause with a condition that keeps its labels, or none. -/
def KeepsClause (rule : Rule) (name : String) (trees : List Tree) : Prop :=
  trees = [] ∧ Tree.find? rule trees = none ∨
  ∃ clause, trees = [clause] ∧ Tree.find? rule trees = some clause ∧
    clause.KeepsLabels (context.condition name) Cnf.labels

/-- In a join stand words, its table and then its condition, where it has one. -/
theorem sameLabels_of_join {before after : List Tree} {table : Tree} {result : Join}
    (hbefore : ∀ tree ∈ before, tree.isTokenOf fun token => !isPlaceholder token)
    (htable : table.isTable) (hkeeps : context.KeepsTable table)
    (hafter : context.KeepsClause .joinCondition "ON" after)
    (h : context.join (before ++ table :: after) = .ok result) :
    SameLabels result.labels (labelsOf (before ++ table :: after)) := by
  have hleaf : ∀ tree ∈ before, tree.isLeaf :=
    fun tree hmem => isLeaf_of_isTokenOf (hbefore tree hmem)
  have hsilent : labelsOf before = [] := List.flatMap_eq_nil_iff.mpr fun tree hmem =>
    labels_of_isTokenOf (fun _ => rfl) (hbefore tree hmem)
  have hother : ∀ tree ∈ before ++ [table], tree.hasRule .joinCondition = false := by
    intro tree hmem
    rcases List.mem_append.mp hmem with hmem | hmem
    · exact hasRule_of_isLeaf (hleaf tree hmem) _
    · rw [List.mem_singleton.mp hmem]
      exact hasRule_of_isTable htable (by simp) (by simp)
  have hfind : Tree.find? .joinCondition (before ++ table :: after) =
      Tree.find? .joinCondition after := by
    rw [List.append_cons]
    exact find?_append_of_not hother after
  rw [join, context.joinedSource_of_table hleaf htable] at h
  obtain ⟨_, hsource, h⟩ := bind_eq_ok.mp h
  obtain rfl := Except.ok.inj hsource
  simp only [joinCondition?, hfind, bind_eq_ok, pure_eq_ok] at h
  obtain ⟨condition, hcondition, source, hsource, rfl⟩ := h
  rw [labelsOf_append, hsilent, List.nil_append, labelsOf_cons, Join.labels]
  refine (hkeeps source hsource).append ?_
  rcases hafter with ⟨rfl, hnone⟩ | ⟨clause, rfl, hclause, hkeeps⟩
  · obtain rfl : condition = none := by simpa [hnone] using hcondition.symm
    exact .refl []
  · rw [hclause] at hcondition
    obtain ⟨cnf, hcnf, rfl⟩ := map_eq_ok.mp hcondition
    simpa [labelsOfCondition] using hkeeps cnf hcnf

end Build.Context

namespace Grammar

open Form

section

variable {enter : Construct → Reader} {levels : Nat} (context : Context) {trees : List Tree}
  (h : Nests enter levels) (htables : (Form.deeper .derivedTable).Each enter context.KeepsTable)
include h htables

omit h in
theorem tablePrimary_keeps : tablePrimary.Each enter context.KeepsTable :=
  Each.ifAt htables (.ofParts fun _ hparts => context.keepsTable_of_name
    (Silent.labelsOf (Each.seq tableParts_silent alias?_silent) hparts))

/-- A join is a table between words, and in most cases a condition after it. -/
theorem join_picked :
    join.Each enter (Picked (hasRule .joinClause) (fun tree => context.join tree.children)
      Join.labels) := by
  have kept {before table after : List Tree} (hbefore : ∀ tree ∈ before,
      tree.isTokenOf fun token => !isPlaceholder token) (htable : tablePrimary.Yields enter table)
      (hafter : context.KeepsClause .joinCondition "ON" after) :
      (ofParts .joinClause (before ++ (table ++ after))).KeepsLabels
        (fun tree => context.join tree.children) Join.labels := by
    intro result hbuilt
    obtain ⟨table, rfl, hkind, -⟩ := tablePrimary_makes h.toRegular _ htable
    have hkeeps := tablePrimary_keeps context htables _ htable table (by simp)
    rw [labels_ofParts]
    exact context.sameLabels_of_join hbefore hkind hkeeps hafter hbuilt
  refine picked_node fun parts hparts => ?_
  rcases hparts.ifAt with hcross | hjoin
  · obtain ⟨side, _, hside, hrest, rfl⟩ := hcross.seq
    obtain ⟨word, table, hword, htable, rfl⟩ := hrest.seq
    have hbefore := Each.parts (Words.token fun _ => rfl) (Words.token fun _ => rfl) hside hword
    simpa using kept hbefore htable (.inl ⟨rfl, rfl⟩)
  · obtain ⟨side, _, hside, hrest, rfl⟩ := hjoin.seq
    obtain ⟨word, _, hword, hmore, rfl⟩ := hrest.seq
    obtain ⟨table, _, htable, hcondition, rfl⟩ := hmore.seq
    obtain ⟨clause, hclause, rfl⟩ := hcondition.node
    have hbefore := Each.parts joinSide_words (Words.token fun _ => rfl) hside hword
    simpa using kept hbefore htable
      (.inr ⟨_, rfl, rfl, condition_keeps context h "ON" (fun _ => rfl) hclause⟩)

theorem tableSource_picked :
    tableSource.Each enter (Picked (hasRule .tableSource)
      (fun tree => context.fromItem tree.children) FromItem.labels) := by
  refine picked_node fun parts hparts item hbuilt => ?_
  obtain ⟨_, joins, htable, hjoins, rfl⟩ := hparts.seq
  obtain ⟨table, rfl, -, -⟩ := tablePrimary_makes h.toRegular _ htable
  have hpicked := Each.whileAt (join_picked context h htables) joins hjoins
  simp only [ofParts, children, List.singleton_append, Context.fromItem, context.joins_eq_mapM,
    bind_eq_ok, pure_eq_ok] at hbuilt
  obtain ⟨source, hsource, results, hresults, rfl⟩ := hbuilt
  rw [labels_ofParts, List.singleton_append, labelsOf_cons, FromItem.labels, labelsOfJoins_eq]
  exact (tablePrimary_keeps context htables _ htable table (by simp) source hsource).append
    (sameLabels_of_picked hpicked (forall₂_of_mapM_eq_ok hresults))

end

end Grammar

/-! ### Row limits -/

namespace Build

/-- The labels of a clause that consists of tokens are those of its counts. -/
theorem labelsOf_eq_counts (rule : Rule) {parts : List Tree} (h : ∀ part ∈ parts, part.isLeaf) :
    labelsOf parts = (counts (ofParts rule parts)).filterMap Token.label? := by
  rw [counts, ofParts, children]
  induction parts with
  | nil => rfl
  | cons part parts ih =>
    obtain ⟨hfirst, hothers⟩ := List.forall_mem_cons.mp h
    cases part with
    | node own span children => cases hfirst
    | leaf lexeme =>
      rw [labelsOf_cons, labels_leaf, leaves_leaf_cons, List.map_cons, ih hothers]
      cases lexeme.token <;> rfl

/-- No number of rows is built from a placeholder. -/
theorem label?_of_rowCount {token : Token} {n : Nat} (h : rowCount token = .ok n) :
    token.label? = none := by
  cases token with
  | placeholder label => exact absurd h refuse_ne_ok
  | _ => rfl

theorem labels_of_topLimit {clause : Tree} {result : RowLimit}
    (hone : (counts clause).length = 1) (h : topLimit clause = .ok result) :
    (counts clause).filterMap Token.label? = [] := by
  obtain ⟨count, hcounts⟩ := List.length_eq_one_iff.mp hone
  unfold topLimit at h
  split at h
  · exact absurd h (by simp)
  · simp only [hcounts, List.head?_cons, bind_eq_ok, require_eq_ok, Option.some.injEq] at h
    obtain ⟨_, rfl, n, hcount, -⟩ := h
    rw [hcounts, List.filterMap_cons_none (label?_of_rowCount hcount), List.filterMap_nil]

theorem labels_of_limit {clause : Tree} {result : RowLimit} (h : limit clause = .ok result) :
    (counts clause).filterMap Token.label? = [] := by
  unfold limit at h
  split at h
  · rename_i count hcounts
    obtain ⟨n, hcount, -⟩ := bind_eq_ok.mp h
    rw [hcounts, List.filterMap_cons_none (label?_of_rowCount hcount), List.filterMap_nil]
  · rename_i first second hcounts
    have both {m n : Nat} (hfirst : rowCount first = .ok m) (hsecond : rowCount second = .ok n) :
        (counts clause).filterMap Token.label? = [] := by
      rw [hcounts, List.filterMap_cons_none (label?_of_rowCount hfirst),
        List.filterMap_cons_none (label?_of_rowCount hsecond), List.filterMap_nil]
    split at h
    rename_i count offset hpair
    simp only [bind_eq_ok] at h
    obtain ⟨_, hcount, _, hoffset, -⟩ := h
    split at hpair
    · cases hpair
      exact both hoffset hcount
    · cases hpair
      exact both hcount hoffset
  · exact absurd h reject_ne_ok

end Build

/-! ### Clauses -/

namespace Build.Context

variable (context : Context) {query next : SelectQuery} {trees : List Tree}

theorem clauses_cons (tree : Tree) :
    context.clauses (tree :: trees) query =
      context.clauses [tree] query >>= context.clauses trees := by
  cases hrule : tree.hasRule .fromClause with
  | true =>
    obtain ⟨span, parts, rfl⟩ := eq_node_of_hasRule hrule
    rw [clauses, clauses, bind_assoc]
    rfl
  | false =>
    have other := ne_node_of_hasRule hrule
    rw [clauses.eq_3 _ _ _ _ other, clauses.eq_3 _ _ _ _ other, bind_assoc]
    rfl

theorem clauses_singleton {tree : Tree} (h : tree.hasRule .fromClause = false) :
    context.clauses [tree] query = context.clause tree query := by
  rw [clauses.eq_3 _ _ _ _ (ne_node_of_hasRule h)]
  simp only [clauses]
  exact bind_pure _

theorem clauses_of_append {left right : List Tree}
    (h : context.clauses (left ++ right) query = .ok next) :
    ∃ middle, context.clauses left query = .ok middle ∧
      context.clauses right middle = .ok next := by
  induction left generalizing query with
  | nil => exact ⟨query, by rw [clauses], h⟩
  | cons tree left ih =>
    rw [List.cons_append, clauses_cons, bind_eq_ok] at h
    obtain ⟨first, hfirst, h⟩ := h
    obtain ⟨middle, hmiddle, hright⟩ := ih h
    refine ⟨middle, ?_, hright⟩
    rw [clauses_cons, hfirst]
    exact hmiddle

/-- Words are no clauses. -/
theorem clauses_of_leaves (hleaf : ∀ tree ∈ trees, tree.isLeaf)
    (h : context.clauses trees query = .ok next) : next = query := by
  induction trees generalizing query with
  | nil =>
    rw [clauses] at h
    exact (Except.ok.inj h).symm
  | cons tree trees ih =>
    obtain ⟨hfirst, hothers⟩ := List.forall_mem_cons.mp hleaf
    cases tree with
    | leaf lexeme => exact ih hothers (by simpa [clauses, clause, rule?] using h)
    | node rule span children => cases hfirst

end Build.Context

namespace Grammar

open Form

variable {enter : Construct → Reader} {levels : Nat} (context : Context) {query : SelectQuery}
  {α : Type} {labelsIn : α → List String} {put : α → SelectQuery} {form : Form} {trees : List Tree}

/-- The form yields clauses that put one thing into a query, which has their labels. -/
def Form.Puts (enter : Construct → Reader) (labelsIn : α → List String) (put : α → SelectQuery)
    (query : SelectQuery) (form : Form) : Prop :=
  ∀ trees, form.Yields enter trees → ∀ next, context.clauses trees query = .ok next →
    ∃ value, next = put value ∧ SameLabels (labelsIn value) (labelsOf trees)

namespace Form.Puts

variable {context}

theorem empty {unset : α} (hunset : put unset = query) (hnone : labelsIn unset = []) :
    Form.empty.Puts context enter labelsIn put query := by
  intro trees hyields next h
  rw [hyields.empty, Context.clauses] at h
  rw [hyields.empty]
  exact ⟨unset, (Except.ok.inj h).symm.trans hunset.symm, .of_eq hnone⟩

/-- Words are no clauses. -/
theorem words (h : form.Words enter) :
    form.Puts context enter (fun _ => []) (fun _ : Unit => query) query := by
  intro trees hyields next hbuilt
  refine ⟨(), context.clauses_of_leaves (h.isLeaf trees hyields) hbuilt, ?_⟩
  exact .of_eq (h.silent.labelsOf hyields).symm

/-- What the first clauses put into a query is there for those after them. -/
theorem first {more : List Tree} {result : SelectQuery}
    (h : form.Puts context enter labelsIn put query) (hyields : form.Yields enter trees)
    (hbuilt : context.clauses (trees ++ more) query = .ok result) :
    ∃ value, SameLabels (labelsIn value) (labelsOf trees) ∧
      context.clauses more (put value) = .ok result := by
  obtain ⟨next, hfirst, hmore⟩ := context.clauses_of_append hbuilt
  obtain ⟨value, rfl, hvalue⟩ := h trees hyields next hfirst
  exact ⟨value, hvalue, hmore⟩

/-- A clause that need not be there. -/
theorem optional {look : Lookahead} {unset : α} (h : form.Puts context enter labelsIn put query)
    (hunset : put unset = query) (hnone : labelsIn unset = []) :
    (Form.optional look form).Puts context enter labelsIn put query := by
  intro trees hyields
  rcases hyields.ifAt with hyields | hyields
  · exact h trees hyields
  · exact empty hunset hnone trees hyields

theorem when {available : Bool} {unset : α} (h : form.Puts context enter labelsIn put query)
    (hunset : put unset = query) (hnone : labelsIn unset = []) :
    (Grammar.when available form).Puts context enter labelsIn put query := by
  unfold Grammar.when
  split
  · exact h
  · exact empty hunset hnone

/-- A clause whose node keeps its labels in what it builds. -/
theorem of_clause {β : Type} (build : Tree → Built β) (wrap : β → α) {rule : Rule}
    (hrule : rule ≠ .fromClause)
    (hclause : ∀ parts, context.clause (ofParts rule parts) query =
      build (ofParts rule parts) >>= fun result => pure (put (wrap result)))
    (hkeeps : ∀ parts, form.Yields enter parts →
      (ofParts rule parts).KeepsLabels build fun result => labelsIn (wrap result)) :
    (Form.node rule form).Puts context enter labelsIn put query := by
  intro trees hyields next h
  obtain ⟨parts, hparts, rfl⟩ := hyields.node
  have hother : (ofParts rule parts).hasRule .fromClause = false := by
    simpa [ofParts, hasRule, rule?] using hrule
  rw [context.clauses_singleton hother, hclause, bind_eq_ok] at h
  obtain ⟨result, hresult, hnext⟩ := h
  refine ⟨wrap result, (pure_eq_ok.mp hnext).symm, ?_⟩
  simpa using hkeeps parts hparts result hresult

end Form.Puts

/-! ### Row limits -/

theorem countP_of_other {accepts : Token → Bool} {wanted : String}
    (hother : ∀ token, accepts token → isRowCount token = false)
    (hyields : (Form.token accepts wanted).Yields enter trees) :
    trees.countP (isTokenOf isRowCount) = 0 := by
  obtain ⟨word, rfl, haccepts⟩ := hyields.token
  simp [hother word.token haccepts]

theorem countP_of_rowCount (hyields : rowCount.Yields enter trees) :
    trees.countP (isTokenOf isRowCount) = 1 := by
  obtain ⟨count, rfl, hrow⟩ := hyields.token
  have hone : isRowCount count.token := hrow
  simp [hone]

theorem leaf_token {accepts : Token → Bool} {wanted : String} :
    (Form.token accepts wanted).Each enter fun tree => tree.isLeaf :=
  Each.token fun _ _ => rfl

/-- Before the select list stands a single count. -/
theorem topClause_parts {parts : List Tree}
    (hparts : (Form.all [.word "TOP", .ifAt [isSymbol .leftParen]
      (.all [.symbol .leftParen, rowCount, .symbol .rightParen]) rowCount,
      .optional [Token.isWord "PERCENT"] (.word "PERCENT")]).Yields enter parts) :
    (∀ part ∈ parts, part.isLeaf) ∧ parts.countP (isTokenOf isRowCount) = 1 := by
  have hleaf : ∀ part ∈ parts, part.isLeaf :=
    Each.seq leaf_token (.seq (.ifAt (.seq leaf_token (.seq leaf_token leaf_token)) leaf_token)
      (.optional leaf_token)) parts hparts
  refine ⟨hleaf, ?_⟩
  have hword {text : String} (token : Token) (h : token.isWord text) :
      isRowCount token = false := by
    cases token <;> first | rfl | cases h
  obtain ⟨top, _, htop, hrest, rfl⟩ := hparts.seq
  obtain ⟨counted, percent, hcounted, hpercent, rfl⟩ := hrest.seq
  have hone : counted.countP (isTokenOf isRowCount) = 1 := by
    rcases hcounted.ifAt with hyields | hcount
    · obtain ⟨left, _, hleft, hinner, rfl⟩ := hyields.seq
      obtain ⟨count, right, hcount, hright, rfl⟩ := hinner.seq
      rw [List.countP_append, List.countP_append,
        countP_of_other (fun _ => isRowCount_of_eq_symbol) hleft, countP_of_rowCount hcount,
        countP_of_other (fun _ => isRowCount_of_eq_symbol) hright]
    · exact countP_of_rowCount hcount
  have hnone : percent.countP (isTokenOf isRowCount) = 0 := by
    rcases hpercent.optional with hyields | rfl
    · exact countP_of_other hword hyields
    · rfl
  rw [List.countP_append, List.countP_append, hone, hnone, countP_of_other hword htop]

theorem topClause_puts :
    topClause.Puts context enter (fun _ => []) (fun limit => { query with limit }) query := by
  refine .of_clause topLimit some (by simp) (fun _ => rfl) fun parts hparts limit hlimit => ?_
  obtain ⟨hleaf, hone⟩ := topClause_parts hparts
  have hcount : (counts (ofParts .topClause parts)).length = 1 := by
    rw [Build.counts_length]
    exact hone
  rw [labels_ofParts, labelsOf_eq_counts .topClause hleaf, labels_of_topLimit hcount hlimit]
  exact .refl []

theorem limitClause_puts (dialect : Dialect) :
    (limitClause dialect).Puts context enter (fun _ => []) (fun limit => { query with limit })
      query := by
  refine .of_clause Build.limit some (by simp) (fun _ => rfl) fun parts hparts limit hlimit => ?_
  have hnamed : (Form.optional [isKeyword .OFFSET] (.seq (.keyword .OFFSET) rowCount)).Each enter
      fun tree => tree.isLeaf := Each.optional (.seq leaf_token leaf_token)
  have hoffset : (offset dialect).Each enter fun tree => tree.isLeaf := by
    unfold offset
    split
    · exact Each.ifAt (.seq leaf_token leaf_token) hnamed
    · exact hnamed
  have hleaf := Each.seq leaf_token (.seq leaf_token hoffset) parts hparts
  rw [labels_ofParts, labelsOf_eq_counts .limitClause hleaf, labels_of_limit hlimit]
  exact .refl []

/-! ### The clauses of a query -/

section

variable (h : Nests enter levels)
include h

theorem selectList_puts :
    selectList.Puts context enter (fun items => items.flatMap Expr.labels)
      (fun items => { query with items }) query := by
  refine .of_clause (fun tree => (tree.children.filter (hasRule .selectItem)).mapM
    context.selectItem) id (by simp) (fun _ => rfl) fun parts hparts items hitems => ?_
  have hpicked := Each.commaList (picked_token (fun _ => rfl) fun _ => rfl)
    (selectItem_picked context h) parts hparts
  rw [labels_ofParts]
  exact sameLabels_of_picked hpicked (forall₂_of_mapM_eq_ok hitems)

/-- A clause that consists of a word and a condition. -/
theorem conditionClause_puts {put : Option Cnf → SelectQuery} {rule : Rule} {k : Keyword}
    (name : String) (hrule : rule ≠ .fromClause)
    (hclause : ∀ parts, context.clause (ofParts rule parts) query =
      context.condition name (ofParts rule parts) >>= fun cnf => pure (put (some cnf))) :
    (Form.node rule (.seq (.keyword k) expression)).Puts context enter labelsOfCondition put
      query := by
  refine .of_clause (context.condition name) some hrule hclause fun parts hparts cnf hcnf => ?_
  simpa [labelsOfCondition] using condition_keeps context h name (fun _ => rfl) hparts cnf hcnf

theorem whereClause_puts :
    (Form.node .whereClause (.seq (.keyword .WHERE) expression)).Puts context enter
      labelsOfCondition (fun condition => { query with condition }) query :=
  conditionClause_puts context h "WHERE" (by simp) fun _ => rfl

theorem havingClause_puts :
    havingClause.Puts context enter labelsOfCondition (fun having => { query with having })
      query :=
  conditionClause_puts context h "HAVING" (by simp) fun _ => rfl

omit h in
/-- A list after two words, of which no more than the picked items have labels. -/
theorem picked_after_words {test : Tree → Bool} {build : Tree → Built α} {item : Form}
    {first second : Keyword} (htest : ∀ lexeme, test (.leaf lexeme) = false)
    (hitem : item.Each enter (Picked test build labelsIn)) :
    (Form.all [.keyword first, .keyword second, .commaList item]).Each enter
      (Picked test build labelsIn) :=
  Each.seq (picked_token (fun _ => rfl) htest) (.seq (picked_token (fun _ => rfl) htest)
    (.commaList (picked_token (fun _ => rfl) htest) hitem))

theorem groupByClause_puts :
    groupByClause.Puts context enter (fun grouping => (grouping.getD []).flatMap Expr.labels)
      (fun grouping => { query with grouping }) query := by
  refine .of_clause context.expressions some (by simp) (fun _ => rfl)
    fun parts hparts grouping hgrouping => ?_
  have hpicked := picked_after_words (fun _ => rfl) (expression_picked context h) parts hparts
  rw [labels_ofParts]
  exact sameLabels_of_picked hpicked (forall₂_of_mapM_eq_ok hgrouping)

theorem orderByClause_puts :
    orderByClause.Puts context enter (fun ordering => ordering.flatMap fun key =>
      key.expression.labels) (fun ordering => { query with ordering }) query := by
  refine .of_clause (fun tree => (tree.children.filter (hasRule .orderItem)).mapM
    context.orderItem) id (by simp) (fun _ => rfl) fun parts hparts ordering hordering => ?_
  have hpicked := picked_after_words (fun _ => rfl) (orderItem_picked context h) parts hparts
  rw [labels_ofParts]
  exact sameLabels_of_picked hpicked (forall₂_of_mapM_eq_ok hordering)

theorem fromClause_puts
    (htables : (Form.deeper .derivedTable).Each enter context.KeepsTable) :
    fromClause.Puts context enter labelsOfItems (fun sources => { query with sources }) query := by
  intro trees hyields next hbuilt
  obtain ⟨parts, hparts, rfl⟩ := hyields.node
  have hpicked := Each.seq (picked_token (fun _ => rfl) fun _ => rfl)
    (.commaList (picked_token (fun _ => rfl) fun _ => rfl) (tableSource_picked context h htables))
    parts hparts
  simp only [ofParts, Context.clauses, context.fromItems_eq_mapM, bind_eq_ok] at hbuilt
  obtain ⟨sources, hsources, hnext⟩ := hbuilt
  refine ⟨sources, (Except.ok.inj hnext).symm, ?_⟩
  rw [labelsOfItems_eq, labelsOf_cons, labelsOf_nil, List.append_nil, labels_ofParts]
  exact sameLabels_of_picked hpicked (forall₂_of_mapM_eq_ok hsources)

/-- **A query has the labels of its tree**, when the tables in parentheses have theirs. -/
theorem select_keeps (dialect : Dialect)
    (htables : (Form.deeper .derivedTable).Each enter context.KeepsTable) :
    (select dialect).Each enter
      (fun tree => tree.KeepsLabels context.select SelectQuery.labels) := by
  refine .ofParts fun parts hparts result hresult => ?_
  obtain ⟨word, _, hword, hparts₁, rfl⟩ := hparts.seq
  obtain ⟨quantifier, _, hquantifier, hparts₂, rfl⟩ := hparts₁.seq
  obtain ⟨top, _, htop, hparts₃, rfl⟩ := hparts₂.seq
  obtain ⟨list, _, hlist, hparts₄, rfl⟩ := hparts₃.seq
  obtain ⟨source, _, hsource, hparts₅, rfl⟩ := hparts₄.seq
  obtain ⟨condition, _, hcondition, hparts₆, rfl⟩ := hparts₅.seq
  obtain ⟨grouping, _, hgrouping, hparts₇, rfl⟩ := hparts₆.seq
  obtain ⟨having, _, hhaving, hparts₈, rfl⟩ := hparts₇.seq
  obtain ⟨ordering, limit, hordering, hlimit, rfl⟩ := hparts₈.seq
  -- after each clause the query is written out again, or the terms double with each of them
  rw [ofParts, Context.select, SelectQuery.empty] at hresult
  obtain ⟨_, keepsWord, hresult⟩ := (Puts.words (Words.token fun _ => rfl)).first hword hresult
  obtain ⟨_, keepsQuantifier, hresult⟩ :=
    (Puts.words (Each.optional (Words.token fun _ => rfl))).first hquantifier hresult
  obtain ⟨_, keepsTop, hresult⟩ :=
    (((topClause_puts context).optional rfl rfl).when rfl rfl).first htop hresult
  dsimp only at hresult
  obtain ⟨_, keepsList, hresult⟩ := (selectList_puts context h).first hlist hresult
  dsimp only at hresult
  obtain ⟨_, keepsSource, hresult⟩ :=
    ((fromClause_puts context h htables).optional rfl rfl).first hsource hresult
  dsimp only at hresult
  obtain ⟨_, keepsCondition, hresult⟩ :=
    ((whereClause_puts context h).optional rfl rfl).first hcondition hresult
  dsimp only at hresult
  obtain ⟨_, keepsGrouping, hresult⟩ :=
    ((groupByClause_puts context h).optional rfl rfl).first hgrouping hresult
  dsimp only at hresult
  obtain ⟨_, keepsHaving, hresult⟩ :=
    ((havingClause_puts context h).optional rfl rfl).first hhaving hresult
  dsimp only at hresult
  obtain ⟨_, keepsOrdering, hresult⟩ :=
    ((orderByClause_puts context h).optional rfl rfl).first hordering hresult
  dsimp only at hresult
  obtain ⟨_, rfl, keepsLimit⟩ :=
    ((limitClause_puts context dialect).optional rfl rfl).when rfl rfl limit hlimit result hresult
  have stored := ((((keepsList.append keepsSource).append keepsCondition).append
    keepsGrouping).append keepsHaving).append keepsOrdering
  rw [labels_ofParts, SelectQuery.labels_eq]
  simp only [labelsOf_append, keepsWord.eq_nil, keepsQuantifier.eq_nil, keepsTop.eq_nil,
    keepsLimit.eq_nil, List.nil_append, List.append_nil, ← List.append_assoc]
  exact stored

end

end Grammar

end SqlFront
