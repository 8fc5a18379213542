import SqlFront.Proofs.QueryLabels

/-!
Statements that read or change rows have the labels of the trees that they are built from, at any
depth, and so do batches of them.

Of the other statements nothing is said here: some of their literals are read as words, and a
placeholder is none.
-/

namespace SqlFront

open SqlFront.Tree Grammar Build

namespace Build.Context

variable (context : Context) {tree : Tree}

/-! ### Rows and assignments -/

/-- Every row of values is built by itself. -/
theorem forall₂_of_valueRows {expected : Option Nat} {number : Nat} {rows : List Tree}
    {values : List (List Expr)} (h : context.valueRows expected number rows = .ok values) :
    List.Forall₂ (fun row result => context.expressions row = .ok result) rows values := by
  induction rows generalizing expected number values with
  | nil =>
    obtain rfl := Except.ok.inj h
    exact .nil
  | cons row rows ih =>
    rw [valueRows, bind_eq_ok] at h
    obtain ⟨first, hfirst, h⟩ := h
    dsimp only at h
    split at h
    · exact absurd h reject_ne_ok
    · simp only [bind_eq_ok, pure_eq_ok] at h
      obtain ⟨more, hmore, rfl⟩ := h
      exact .cons hfirst (ih hmore)

/-- The rows of an `INSERT` are those of its clause; a query in their place is refused. -/
theorem rows_of_insert {query : InsertQuery} (h : context.insert tree = .ok query) :
    Tree.find? .selectStatement tree.children = none ∧
    ∃ clause, Tree.find? .valuesClause tree.children = some clause ∧
      List.Forall₂ (fun row result => context.expressions row = .ok result)
        (clause.children.filter (hasRule .valueRow)) query.rows := by
  simp only [insert] at h
  split at h
  · obtain ⟨_, refused, -⟩ := bind_eq_ok.mp h
    exact absurd refused refuse_ne_ok
  · rename_i hselect
    refine ⟨by simpa using hselect, ?_⟩
    obtain ⟨table, -, h⟩ := bind_eq_ok.mp h
    split at h
    · simp only [bind_eq_ok, pure_eq_ok, required, require_eq_ok] at h
      obtain ⟨_, -, _, rfl, clause, hclause, rows, hrows, rfl⟩ := h
      exact ⟨clause, hclause, context.forall₂_of_valueRows hrows⟩
    · simp only [bind_eq_ok, pure_eq_ok, required, require_eq_ok] at h
      obtain ⟨_, rfl, clause, hclause, rows, hrows, rfl⟩ := h
      exact ⟨clause, hclause, context.forall₂_of_valueRows hrows⟩

/-- The labels of the condition of a statement are those of its last part, where there is one. -/
theorem sameLabels_of_whereClause? {rule : Rule} {before after : List Tree}
    {condition : Option Cnf} (hbefore : ∀ tree ∈ before, tree.hasRule .whereClause = false)
    (hafter : context.KeepsClause .whereClause "WHERE" after)
    (h : context.whereClause? (ofParts rule (before ++ after)) = .ok condition) :
    SameLabels (labelsOfCondition condition) (labelsOf after) := by
  rw [whereClause?, ofParts, children, find?_append_of_not hbefore] at h
  rcases hafter with ⟨rfl, hnone⟩ | ⟨clause, rfl, hclause, hkeeps⟩
  · rw [hnone] at h
    obtain rfl := Except.ok.inj h
    exact .refl []
  · simp only [hclause, bind_eq_ok, pure_eq_ok] at h
    obtain ⟨cnf, hcnf, rfl⟩ := h
    simpa [labelsOfCondition] using hkeeps cnf hcnf

/-! ### Statements that read or change rows -/

/-- Where the tree builds a statement that reads or changes rows, it has the labels of the tree. -/
def KeepsRows (tree : Tree) : Prop :=
  ∀ query, context.statement tree = .ok query → query.handlesRows →
    SameLabels query.labels tree.labels

theorem statement_eq_simpleStatement (h : tree.hasRule .bypassStatement = false) :
    context.statement tree = context.simpleStatement tree :=
  statement.eq_2 context tree (ne_node_of_hasRule h)

theorem keepsRows_of_simple {α : Type} (build : Tree → Built α) (wrap : α → Query)
    (hother : tree.hasRule .bypassStatement = false)
    (hsimple : context.simpleStatement tree = wrap <$> build tree)
    (hkeeps : tree.KeepsLabels build fun result => (wrap result).labels) :
    context.KeepsRows tree := by
  intro query hquery _
  rw [context.statement_eq_simpleStatement hother, hsimple, map_eq_ok] at hquery
  obtain ⟨result, hresult, rfl⟩ := hquery
  exact hkeeps result hresult

end Build.Context

/-- The productions of statements that read or change rows. -/
def Rule.handlesRows : Rule → Bool
  | selectStatement | insertStatement | updateStatement | deleteStatement | bypassStatement => true
  | _ => false

namespace Build.Context

variable (context : Context) {tree : Tree}

/-- No other production builds such a statement. -/
theorem keepsRows_of_other {rule : Rule} (hrule : tree.hasRule rule)
    (hother : rule.handlesRows = false) : context.KeepsRows tree := by
  intro query hquery hrows
  have hbypass : tree.hasRule .bypassStatement = false := by
    rw [hasRule, hasRule_iff.mp hrule]
    cases rule <;> first | rfl | cases hother
  rw [context.statement_eq_simpleStatement hbypass, simpleStatement, hasRule_iff.mp hrule] at hquery
  split at hquery
  -- the first four productions are those of rows
  iterate 4
    rename_i heq
    cases Option.some.inj heq
    cases hother
  all_goals
    first
    | exact absurd hquery reject_ne_ok
    | (obtain ⟨_, -, rfl⟩ := map_eq_ok.mp hquery
       cases hrows)
    | (obtain rfl := Except.ok.inj hquery
       cases hrows)

/-- A statement goes to the database with its labels. -/
theorem keepsRows_of_bypass {word : Lexeme} {inner : Tree} (hword : (leaf word).labels = [])
    (hinner : inner.isLeaf = false) (hkeeps : context.KeepsRows inner) :
    context.KeepsRows (ofParts .bypassStatement [.leaf word, inner]) := by
  intro query hquery hrows
  have hbuilt : context.innerStatement [.leaf word, inner] = some (context.statement inner) := by
    have hleaf : (leaf word).isLeaf := rfl
    rw [innerStatement, if_pos hleaf, innerStatement, if_neg (by simp [hinner])]
  simp only [ofParts, statement, hbuilt, bind_eq_ok, require_eq_ok, Option.some.injEq] at hquery
  obtain ⟨_, rfl, result, hresult, hbypassed⟩ := hquery
  unfold bypassed at hbypassed
  split at hbypassed
  · obtain rfl := Except.ok.inj hbypassed
    rw [labels_ofParts, labelsOf_cons, labelsOf_cons, labelsOf_nil, hword, List.nil_append,
      List.append_nil]
    exact hkeeps result hresult hrows
  · exact absurd hbypassed reject_ne_ok

/-- A batch of statements that read or change rows has the labels of its tree. -/
theorem sameLabels_of_batch {parts : List Tree} {queries : List Query}
    (hparts : ∀ part ∈ parts, part.isLeaf = true ∧ part.labels = [] ∨
      part.isLeaf = false ∧ context.KeepsRows part)
    (hrows : ∀ query ∈ queries, query.handlesRows)
    (h : context.batch (ofParts .batch parts) = .ok queries) :
    SameLabels (queries.flatMap Query.labels) (labelsOf parts) := by
  have hother : ∀ part ∈ parts, (!part.isLeaf) = true ∨ part.labels = [] := by
    intro part hmem
    rcases hparts part hmem with ⟨-, hlabels⟩ | ⟨hleaf, -⟩
    · exact .inr hlabels
    · exact .inl (by simp [hleaf])
  have hkeeps : ∀ part ∈ parts.filter fun part => !part.isLeaf, context.KeepsRows part := by
    intro part hmem
    obtain ⟨hmem, hnode⟩ := List.mem_filter.mp hmem
    exact ((hparts part hmem).resolve_left fun hleaf => by simp [hleaf.1] at hnode).2
  have hbuilt := (List.forall₂_and_left _ _).mpr ⟨hkeeps, forall₂_of_mapM_eq_ok h⟩
  have hstored := (List.forall₂_and_left _ _).mpr ⟨hrows, hbuilt.flip⟩
  rw [← labelsOf_filter hother]
  exact .flatMap (hstored.imp fun query part hquery => hquery.2.1 query hquery.2.2 hquery.1)

end Build.Context

namespace Grammar

open Form

variable {enter : Construct → Reader} {levels : Nat} (context : Context) {trees : List Tree}

/-- What the constructs inside statements keep. -/
structure KeepsInside (enter : Construct → Reader) : Prop where
  tables : (Form.deeper .derivedTable).Each enter context.KeepsTable
  rows : (Form.deeper .valueRow).Each enter
    fun tree => tree.KeepsLabels context.expressions fun values => values.flatMap Expr.labels
  columns : (Form.deeper .columns).Silent enter
  bypassed : (Form.deeper .bypassed).Each enter context.KeepsRows

/-! ### Trees that are not looked for -/

/-- None of the trees that the form yields is of this production. -/
def Form.Avoids (enter : Construct → Reader) (rule : Rule) (form : Form) : Prop :=
  form.Each enter fun tree => tree.hasRule rule = false

namespace Form.Avoids

variable {form : Form} {rule own : Rule}

theorem words (h : form.Words enter) : form.Avoids enter rule :=
  fun trees hyields tree hmem => hasRule_of_isLeaf (h.isLeaf trees hyields tree hmem) rule

theorem node (h : own ≠ rule) : (Form.node own form).Avoids enter rule :=
  .ofParts fun parts _ => by simpa [ofParts, hasRule, rule?] using h

theorem deeper {construct : Construct} (h : Regular enter) (hrule : construct.rule? = some own)
    (hne : own ≠ rule) : (Form.deeper construct).Avoids enter rule := by
  intro trees hyields tree hmem
  obtain ⟨only, rfl, hown, -⟩ := h.makes hrule trees hyields
  obtain rfl := List.mem_singleton.mp hmem
  rw [hasRule, hasRule_iff.mp hown]
  simpa using hne

theorem filter (h : form.Avoids enter rule) (hyields : form.Yields enter trees) :
    trees.filter (hasRule rule) = [] :=
  List.filter_eq_nil_iff.mpr fun tree hmem => by simp [h trees hyields tree hmem]

end Form.Avoids

/-- None of the trees that the form yields is of this production or has labels. -/
def Form.Skips (enter : Construct → Reader) (rule : Rule) (form : Form) : Prop :=
  form.Each enter (Skipped rule)

namespace Form.Skips

variable {form : Form} {rule : Rule}

theorem both (hlabels : form.Silent enter) (hrule : form.Avoids enter rule) :
    form.Skips enter rule :=
  fun trees hyields tree hmem => ⟨hlabels trees hyields tree hmem, hrule trees hyields tree hmem⟩

theorem token {accepts : Token → Bool} {wanted : String}
    (h : ∀ label, accepts (.placeholder label) = false) :
    (Form.token accepts wanted).Skips enter rule :=
  both (.token h) (.words (.token h))

end Form.Skips

section

variable (h : Nests enter levels) (hinside : KeepsInside context enter)
include h hinside

/-! ### Tables in parentheses -/

theorem derivedTableBody_keeps (dialect : Dialect) :
    (derivedTableBody dialect).Each enter context.KeepsTable := by
  refine .ofParts fun parts hparts source hsource => ?_
  obtain ⟨left, _, hleft, hrest, rfl⟩ := hparts.seq
  obtain ⟨inner, _, hinner, hmore, rfl⟩ := hrest.seq
  obtain ⟨right, name, hright, hname, rfl⟩ := hmore.seq
  obtain ⟨query, rfl, hrule, -⟩ := select_makes dialect h.toRegular _ hinner
  have hsilent : labelsOf left = [] := (Silent.token fun _ => rfl).labelsOf hleft
  have hclosed : labelsOf right = [] := (Silent.token fun _ => rfl).labelsOf hright
  have hnamed : labelsOf name = [] := Silent.labelsOf (Each.ifAt alias?_silent .refuse) hname
  have hbuilt : context.innerQuery (left ++ ([query] ++ (right ++ name))) =
      some (context.select query) := by
    obtain ⟨paren, rfl, -⟩ := hleft.token
    have hparen : (leaf paren).hasRule .selectStatement = false := rfl
    simp only [List.singleton_append, Context.innerQuery, hparen, hrule, Bool.false_eq_true,
      if_true, if_false]
  simp only [ofParts, Context.tableSource, hbuilt, bind_eq_ok, require_eq_ok, pure_eq_ok,
    Option.some.injEq] at hsource
  obtain ⟨_, rfl, result, hresult, aliasName, -, rfl⟩ := hsource
  have kept := select_keeps context h dialect hinside.tables _ hinner query (by simp) result hresult
  simpa [hsilent, hclosed, hnamed, TableSource.labels] using kept

/-! ### Changes of rows -/

theorem valueRow_picked :
    (Form.deeper .valueRow).Each enter (Picked (hasRule .valueRow) context.expressions
      fun values => values.flatMap Expr.labels) := by
  intro trees hyields tree hmem
  obtain ⟨row, rfl, hrule, -⟩ := h.makes rfl trees hyields
  obtain rfl := List.mem_singleton.mp hmem
  exact .inl ⟨hrule, hinside.rows _ hyields tree (by simp)⟩

theorem insert_keeps (dialect : Dialect) : (insert dialect).Each enter context.KeepsRows := by
  refine .ofParts fun parts hparts => context.keepsRows_of_simple context.insert .insert rfl rfl ?_
  intro query hquery
  obtain ⟨word, _, hword, hrest, rfl⟩ := hparts.seq
  obtain ⟨into, _, hinto, hmore, rfl⟩ := hrest.seq
  obtain ⟨table, _, htable, hlist, rfl⟩ := hmore.seq
  obtain ⟨columns, last, hcolumns, hlast, rfl⟩ := hlist.seq
  have hbefore : ∀ tree ∈ word ++ (into ++ (table ++ columns)), tree.Skipped .valuesClause := by
    have hcolumn : (Form.deeper .columns).Skips enter .valuesClause :=
      .both hinside.columns (.deeper h.toRegular rfl (by simp))
    simp only [List.forall_mem_append]
    exact ⟨Skips.token (fun _ => rfl) word hword,
      Each.optional (Skips.token fun _ => rfl) into hinto,
      Skips.both tableName_silent (.node (by simp)) table htable,
      Each.optional hcolumn columns hcolumns⟩
  have hparts : word ++ (into ++ (table ++ (columns ++ last))) =
      word ++ (into ++ (table ++ columns)) ++ last := by simp
  rw [labels_ofParts, hparts, labelsOf_append_of_skipped hbefore]
  rw [hparts] at hquery
  obtain ⟨hnone, clause, hfound, hrows⟩ := context.rows_of_insert hquery
  rcases hlast.ifAt with hselect | hvalues
  · -- a query in the place of the rows is refused
    obtain ⟨select, rfl, hrule, -⟩ := select_makes dialect h.toRegular _ hselect
    exact absurd hrule (List.find?_eq_none.mp hnone select (by simp [ofParts, children]))
  · obtain ⟨cells, hcells, rfl⟩ := hvalues.node
    rw [ofParts, children, find?_append_of_not fun tree hmem => (hbefore tree hmem).2] at hfound
    obtain rfl : ofParts .valuesClause cells = clause := Option.some.inj hfound
    have hpicked := Each.seq (picked_token (fun _ => rfl) fun _ => rfl)
      (.commaList (picked_token (fun _ => rfl) fun _ => rfl) (valueRow_picked context h hinside))
      cells hcells
    rw [labelsOf_cons, labelsOf_nil, List.append_nil, labels_ofParts]
    exact sameLabels_of_picked hpicked hrows

omit hinside in
/-- An assignment has the labels of its value. -/
theorem assignment_picked :
    assignment.Each enter (Picked (hasRule .assignment) context.assignment
      fun assignment => assignment.2.labels) := by
  refine picked_node fun parts hparts result hresult => ?_
  obtain ⟨column, _, hcolumn, hrest, rfl⟩ := hparts.seq
  obtain ⟨sign, _, hsign, hvalue, rfl⟩ := hrest.seq
  obtain ⟨value, rfl, -, hkeeps⟩ := expression_keeps context h hvalue
  have hlast : (column ++ (sign ++ [value])).getLast? = some value := by
    rw [← List.append_assoc, List.getLast?_concat]
  simp only [ofParts, children, Context.assignment, hlast, bind_eq_ok, require_eq_ok, pure_eq_ok,
    Option.some.injEq] at hresult
  obtain ⟨name, -, _, rfl, reference, -, e, he, rfl⟩ := hresult
  have hnamed : labelsOf column = [] := columnName_silent.labelsOf hcolumn
  have hassigned : labelsOf sign = [] := (Silent.token fun _ => rfl).labelsOf hsign
  simpa [hnamed, hassigned] using hkeeps e he

omit hinside in
theorem whereClause?_keeps (hyields : whereClause?.Yields enter trees) :
    context.KeepsClause .whereClause "WHERE" trees := by
  rcases hyields.optional with hclause | rfl
  · obtain ⟨parts, hparts, rfl⟩ := hclause.node
    exact .inr ⟨_, rfl, rfl, condition_keeps context h "WHERE" (fun _ => rfl) hparts⟩
  · exact .inl ⟨rfl, rfl⟩

omit hinside in
theorem update_keeps : update.Each enter context.KeepsRows := by
  refine .ofParts fun parts hparts => context.keepsRows_of_simple context.update .update rfl rfl ?_
  intro query hquery
  obtain ⟨word, _, hword, hrest, rfl⟩ := hparts.seq
  obtain ⟨table, _, htable, hmore, rfl⟩ := hrest.seq
  obtain ⟨set, _, hset, hlist, rfl⟩ := hmore.seq
  obtain ⟨assignments, condition, hassignments, hcondition, rfl⟩ := hlist.seq
  have hbefore : ∀ tree ∈ word ++ (table ++ set), tree.Skipped .assignment := by
    simp only [List.forall_mem_append]
    exact ⟨Skips.token (fun _ => rfl) word hword,
      Skips.both aliasedTable_silent (.node (by simp)) table htable,
      Skips.token (fun _ => rfl) set hset⟩
  have hother : ∀ tree ∈ word ++ (table ++ set) ++ assignments,
      tree.hasRule .whereClause = false := by
    have hcomma : (Form.symbol .comma).Avoids enter .whereClause := .words (.token fun _ => rfl)
    simp only [List.forall_mem_append]
    exact ⟨⟨Avoids.words (Words.token fun _ => rfl) word hword, Avoids.node (by simp) table htable,
      Avoids.words (Words.token fun _ => rfl) set hset⟩,
      Each.commaList hcomma (Avoids.node (by simp)) assignments hassignments⟩
  have hparts : word ++ (table ++ (set ++ (assignments ++ condition))) =
      word ++ (table ++ set) ++ assignments ++ condition := by simp
  have hchosen : (word ++ (table ++ set) ++ assignments ++ condition).filter
      (hasRule .assignment) = assignments.filter (hasRule .assignment) := by
    have hclause : whereClause?.Avoids enter .assignment := Each.optional (Avoids.node (by simp))
    rw [List.filter_append, hclause.filter hcondition, List.append_nil,
      filter_append_of_skipped hbefore]
  have hpicked := Each.commaList (picked_token (fun _ => rfl) fun _ => rfl)
    (assignment_picked context h) assignments hassignments
  rw [hparts] at hquery ⊢
  simp only [Context.update, bind_eq_ok, pure_eq_ok] at hquery
  obtain ⟨values, hvalues, target, -, filter, hfilter, rfl⟩ := hquery
  rw [ofParts, children, hchosen] at hvalues
  rw [labels_ofParts, labelsOf_append, labelsOf_append_of_skipped hbefore]
  exact (sameLabels_of_picked hpicked (forall₂_of_mapM_eq_ok hvalues)).append
    (context.sameLabels_of_whereClause? hother (whereClause?_keeps context h hcondition) hfilter)

omit hinside in
theorem delete_keeps : delete.Each enter context.KeepsRows := by
  refine .ofParts fun parts hparts => context.keepsRows_of_simple context.delete .delete rfl rfl ?_
  intro query hquery
  obtain ⟨word, _, hword, hrest, rfl⟩ := hparts.seq
  obtain ⟨source, _, hsource, hmore, rfl⟩ := hrest.seq
  obtain ⟨table, condition, htable, hcondition, rfl⟩ := hmore.seq
  have hbefore : ∀ tree ∈ word ++ (source ++ table), tree.Skipped .whereClause := by
    simp only [List.forall_mem_append]
    exact ⟨Skips.token (fun _ => rfl) word hword,
      Each.optional (Skips.token fun _ => rfl) source hsource,
      Skips.both aliasedTable_silent (.node (by simp)) table htable⟩
  have hparts : word ++ (source ++ (table ++ condition)) =
      word ++ (source ++ table) ++ condition := by simp
  simp only [Context.delete, bind_eq_ok, pure_eq_ok] at hquery
  obtain ⟨target, -, filter, hfilter, rfl⟩ := hquery
  rw [hparts] at hfilter
  rw [labels_ofParts, hparts, labelsOf_append_of_skipped hbefore]
  exact context.sameLabels_of_whereClause? (fun tree hmem => (hbefore tree hmem).2)
    (whereClause?_keeps context h hcondition) hfilter

/-! ### Statements -/

omit hinside h in
/-- A statement of another kind does not read or change rows. -/
theorem other_keeps {rule : Rule} {form : Form} (hrule : rule.handlesRows = false) :
    (Form.node rule form).Each enter context.KeepsRows :=
  .ofParts fun _ _ => context.keepsRows_of_other (hasRule_iff.mpr rfl) hrule

omit hinside h in
/-- A word that no statement follows. -/
theorem refused_keeps {form : Form} {cause : Token → SyntaxCause} :
    (Form.seq form (.refuse cause)).Each enter context.KeepsRows := by
  intro trees hyields
  obtain ⟨_, _, -, hrefused, -⟩ := hyields.seq
  exact hrefused.refuse.elim

theorem bypass_keeps : bypass.Each enter context.KeepsRows := by
  refine .ofParts fun parts hparts => ?_
  obtain ⟨_, inner, hword, hinner, rfl⟩ := hparts.seq
  obtain ⟨word, rfl, -⟩ := hword.token
  obtain ⟨statement, rfl, hstatement⟩ := h.fits .bypassed inner hinner
  have hsilent : (leaf word).labels = [] := Silent.token (fun _ => rfl) _ hword _ (by simp)
  exact context.keepsRows_of_bypass hsilent (isLeaf_of_isStatement hstatement)
    (hinside.bypassed _ hinner statement (by simp))

/-- **A statement that reads or changes rows has the labels of its tree.** -/
theorem statement_keeps (dialect : Dialect) :
    (statement dialect).Each enter context.KeepsRows := by
  have hselect : (select dialect).Each enter context.KeepsRows := by
    intro trees hyields tree hmem
    obtain ⟨parts, -, rfl⟩ := hyields.node
    obtain rfl := List.mem_singleton.mp hmem
    exact context.keepsRows_of_simple context.select .select rfl rfl
      (select_keeps context h dialect hinside.tables _ hyields _ hmem)
  have hshow : showStatement.Each enter context.KeepsRows :=
    .ifAt (other_keeps context rfl) (.ifAt (other_keeps context rfl) (refused_keeps context))
  have hsnapshot {verb : String} {tree schema : Rule} (htree : tree.handlesRows = false)
      (hschema : schema.handlesRows = false) :
      (snapshotCommand verb tree schema).Each enter context.KeepsRows :=
    .ifAt (other_keeps context htree) (.ifAt (other_keeps context hschema) (refused_keeps context))
  have hlicense : licenseCommand.Each enter context.KeepsRows :=
    .ifAt (other_keeps context rfl) (.ifAt (other_keeps context rfl)
      (.ifAt (other_keeps context rfl) (refused_keeps context)))
  have hcreate : create.Each enter context.KeepsRows :=
    .ifAt (other_keeps context rfl) (.ifAt (other_keeps context rfl) (refused_keeps context))
  exact .ifAt hshow <|
    .ifAt (other_keeps context rfl) <|
    .ifAt (other_keeps context rfl) <|
    .ifAt (other_keeps context rfl) <|
    .ifAt (other_keeps context rfl) <|
    .ifAt (other_keeps context rfl) <|
    .ifAt (hsnapshot rfl rfl) <|
    .ifAt (hsnapshot rfl rfl) <|
    .ifAt (bypass_keeps context h hinside) <|
    .ifAt hlicense <|
    .ifAt hselect <|
    .ifAt (insert_keeps context h hinside dialect) <|
    .ifAt (other_keeps context rfl) <|
    .ifAt (update_keeps context h) <|
    .ifAt (delete_keeps context h) <|
    .ifAt hcreate <|
    .ifAt (other_keeps context rfl) <|
    .ifAt (other_keeps context rfl) <|
    .ifAt (other_keeps context rfl) .refuse

end

/-! ### One level deeper -/

omit context in
theorem columnsBody_silent : columnsBody.Silent enter :=
  .node (Each.parenthesized (fun _ => Silent.token fun _ => rfl) columnName_silent)

theorem valueRowBody_keeps (h : Nests enter levels) :
    valueRowBody.Each enter fun tree =>
      tree.KeepsLabels context.expressions fun values => values.flatMap Expr.labels := by
  refine .ofParts fun parts hparts values hvalues => ?_
  have hpicked := Each.parenthesized (fun _ => picked_token (fun _ => rfl) fun _ => rfl)
    (expression_picked context h) parts hparts
  rw [labels_ofParts]
  exact sameLabels_of_picked hpicked (forall₂_of_mapM_eq_ok hvalues)

/-- **At every depth, what stands inside statements keeps its labels.** The induction is on the
levels that are left. -/
theorem keepsInside_enter (dialect : Dialect) (limit left : Nat) :
    KeepsInside context (Grammar.enter (bodies dialect) limit left) := by
  induction left with
  | zero =>
    constructor
    all_goals
      rintro trees ⟨input, rest, hread⟩
      cases hread
  | succ left ih =>
    have hnests := nests_enter dialect limit left
    constructor
    · exact derivedTableBody_keeps context hnests ih dialect
    · exact valueRowBody_keeps context hnests
    · exact columnsBody_silent
    · exact statement_keeps context hnests ih dialect

/-! ### Batches -/

/-- The parts of a batch are semicolons and statements. -/
theorem batch_keeps (dialect : Dialect) (h : Nests enter levels)
    (hinside : KeepsInside context enter) :
    (batch dialect).Each enter fun part => part.isLeaf = true ∧ part.labels = [] ∨
      part.isLeaf = false ∧ context.KeepsRows part := by
  have hsemicolon : (Form.symbol .semicolon).Words enter := Words.token fun _ => rfl
  have hsemicolons : semicolons.Each enter fun part => part.isLeaf = true ∧ part.labels = [] ∨
      part.isLeaf = false ∧ context.KeepsRows part :=
    .whileAt fun trees hyields part hmem => .inl
      ⟨hsemicolon.isLeaf trees hyields part hmem, hsemicolon.silent trees hyields part hmem⟩
  have hstatement : (statement dialect).Each enter fun part =>
      part.isLeaf = true ∧ part.labels = [] ∨
        part.isLeaf = false ∧ context.KeepsRows part := by
    intro trees hyields part hmem
    obtain ⟨tree, rfl, hrule, -⟩ := statement_makes dialect h.toRegular trees hyields
    have hkeeps := statement_keeps context h hinside dialect _ hyields part hmem
    obtain rfl := List.mem_singleton.mp hmem
    exact .inr ⟨isLeaf_of_isStatement hrule, hkeeps⟩
  exact .seq hsemicolons (.whileAt (.seq hstatement (.ifAt hsemicolons .refuse)))

/-- **A batch of statements that read or change rows has the labels of what was read.** -/
theorem sameLabels_of_readForm {dialect : Dialect} {input rest : List Lexeme} {parts : List Tree}
    {queries : List Query}
    (hread : readForm dialect levels (batch dialect) input = .ok (parts, rest))
    (hbuilt : context.batch (ofParts .batch parts) = .ok queries)
    (hrows : ∀ query ∈ queries, query.handlesRows) :
    SameLabels (queries.flatMap Query.labels) (labelsOf parts) := by
  have hnests := nests_enter dialect levels levels
  have hinside := keepsInside_enter context dialect levels levels
  have hkeeps := batch_keeps context dialect hnests hinside parts ⟨input, rest, hread⟩
  exact context.sameLabels_of_batch hkeeps hrows hbuilt

end Grammar

end SqlFront
