import SqlFront.Proofs.ParallelQuery

/-!
Statements of two texts side by side.

What a statement stores besides its expressions comes from tokens and from the texts of words, which
are the same on both sides. So related trees build statements that look alike, where the first one
builds a statement at all.
-/

namespace SqlFront.Parallel

open Build

variable {p : Parallel} {tree tree' : Tree} {trees trees' : List Tree}

/-! ### Statements that change rows -/

theorem table_follows (h : p.Trees tree tree') :
    Follows Eq (p.left.table tree) (p.right.table tree') := by
  refine (h.required .tableName).bind fun name name' hname => ?_
  rw [← p.limits.dialect]
  exact Tree.Matches.table_follows p.keepsToken _ hname

theorem column_follows (h : p.Trees tree tree') :
    Follows Eq (p.left.column tree) (p.right.column tree') := by
  rw [Context.column, Context.column, ← p.limits.dialect]
  exact Tree.Matches.column_follows p.keepsToken _ h

theorem indexColumns_follows (h : List.Forall₂ p.Trees trees trees') :
    Follows Eq (p.left.indexColumns trees) (p.right.indexColumns trees') := by
  induction h with
  | nil => exact .ok rfl
  | @cons tree tree' trees trees' htree _ ih =>
    have hcons {x x' : Built ColumnRef} (direction : SortDirection) (hx : Follows Eq x x') :
        Follows Eq (do return ⟨← x, direction⟩ :: (← p.left.indexColumns trees))
          (do return ⟨← x', direction⟩ :: (← p.right.indexColumns trees')) := by
      refine hx.bind ?_
      rintro column _ rfl
      refine ih.bind ?_
      rintro columns _ rfl
      exact .ok rfl
    rw [Context.indexColumns, Context.indexColumns, ← htree.rule?_eq]
    split
    · exact hcons _ (column_follows htree)
    · rw [← sortDirection_eq htree]
      refine (htree.required .columnName).bind fun name name' hname => ?_
      exact hcons _ (column_follows hname)
    · exact ih

theorem columnList_follows (h : p.Trees tree tree') :
    Follows Eq (p.left.columnList tree) (p.right.columnList tree') := by
  refine (indexColumns_follows h.children).bind ?_
  rintro columns _ rfl
  exact .ok rfl

theorem whereClause?_follows (h : p.Trees tree tree') :
    Follows (p.Alike fun view => Option.map (Cnf.seen view)) (p.left.whereClause? tree)
      (p.right.whereClause? tree') := by
  unfold Context.whereClause?
  rcases rel_cases (Tree.Matches.find? h.children .whereClause) with ⟨hclause, hclause'⟩ |
    ⟨clause, clause', hclause, hclause', hrel⟩
  · rw [hclause, hclause']
    exact .ok rfl
  · rw [hclause, hclause']
    exact (condition_follows _ hrel).bind fun cnf cnf' hcnf => .ok (congrArg some hcnf)

theorem valueRows_follows (expected : Option Nat) (number : Nat)
    (h : List.Forall₂ p.Trees trees trees') :
    Follows (p.Alike fun view => List.map (List.map (Expr.seen view)))
      (p.left.valueRows expected number trees) (p.right.valueRows expected number trees') := by
  induction h generalizing expected number with
  | nil => exact .ok rfl
  | @cons row row' rows rows' hrow _ ih =>
    rw [Context.valueRows, Context.valueRows]
    refine (expressions_follows hrow).bind fun values values' hvalues => ?_
    dsimp only
    rw [← hvalues.length_eq]
    split
    · exact .reject
    · refine (ih _ _).bind fun more more' hmore => .ok ?_
      simp only [Alike, List.map_cons, map_eq_map_of_forall₂ hvalues, hmore]

theorem insert_follows (h : p.Trees tree tree') :
    Follows (p.Alike InsertQuery.seen) (p.left.insert tree) (p.right.insert tree') := by
  have hrest (table : TableRef) (columns : Option (List ColumnRef)) :
      Follows (p.Alike InsertQuery.seen)
        (do
          let clause ← tree.required .valuesClause
          let rows ← p.left.valueRows (columns.map List.length) 1
            (clause.children.filter (Tree.hasRule .valueRow))
          return ⟨table, columns, rows⟩)
        (do
          let clause ← tree'.required .valuesClause
          let rows ← p.right.valueRows (columns.map List.length) 1
            (clause.children.filter (Tree.hasRule .valueRow))
          return ⟨table, columns, rows⟩) := by
    refine (h.required .valuesClause).bind fun clause clause' hclause => ?_
    refine (valueRows_follows _ _ (Tree.Matches.ofRule hclause.children .valueRow)).bind
      fun rows rows' hrows => .ok ?_
    exact congrArg (InsertQuery.mk table columns) hrows
  rw [Context.insert, Context.insert,
    ← Tree.Matches.isSome_find?_eq h.children .selectStatement]
  split
  · exact .refuse
  · refine (table_follows h).bind ?_
    rintro table _ rfl
    rcases rel_cases (Tree.Matches.find? h.children .columnList) with ⟨hlist, hlist'⟩ |
      ⟨list, list', hlist, hlist', hrel⟩
    · rw [hlist, hlist']
      exact hrest table none
    · rw [hlist, hlist']
      refine (columnList_follows hrel).bind ?_
      rintro columns _ rfl
      exact hrest table (some columns)

theorem assignment_follows (h : p.Trees tree tree') :
    Follows (p.Alike fun view => Prod.map id (Expr.seen view)) (p.left.assignment tree)
      (p.right.assignment tree') := by
  refine (h.required .columnName).bind fun name name' hname => ?_
  refine (Follows.require (rel_getLast? h.children)).bind fun value value' hvalue => ?_
  refine (column_follows hname).bind ?_
  rintro column _ rfl
  refine (expression_follows hvalue).bind fun e e' he => .ok ?_
  rw [Alike, Prod.map, Prod.map, he]

theorem update_follows (h : p.Trees tree tree') :
    Follows (p.Alike UpdateQuery.seen) (p.left.update tree) (p.right.update tree') := by
  refine (Follows.mapM (Tree.Matches.ofRule h.children .assignment) fun _ _ h =>
    assignment_follows h).bind fun assignments assignments' hassignments => ?_
  refine (table_follows h).bind ?_
  rintro table _ rfl
  refine (whereClause?_follows h).bind fun condition condition' hcondition => .ok ?_
  simp only [Alike, UpdateQuery.seen, map_eq_map_of_forall₂ hassignments, hcondition]

theorem delete_follows (h : p.Trees tree tree') :
    Follows (p.Alike DeleteQuery.seen) (p.left.delete tree) (p.right.delete tree') := by
  refine (table_follows h).bind ?_
  rintro table _ rfl
  refine (whereClause?_follows h).bind fun condition condition' hcondition => .ok ?_
  simp only [Alike, DeleteQuery.seen, hcondition]

/-! ### Strings and lengths -/

theorem stringValue_follows {lexeme lexeme' : Lexeme} (h : p.Lexemes lexeme lexeme') :
    Follows Eq (p.left.stringValue lexeme) (p.right.stringValue lexeme') := by
  unfold Context.stringValue
  rcases token_cases h.token with hsame | ⟨label, label', hlabel, -⟩
  · rw [← hsame, ← p.limits.effectiveBackslashEscapes, ← p.hexDigits]
    split
    · exact .of_eq rfl
    · exact .reject
  · rw [hlabel]
    exact .reject

theorem stringChild_follows (h : p.Trees tree tree') :
    Follows Eq (p.left.stringChild tree) (p.right.stringChild tree') := by
  have hstring {lexeme lexeme' : Lexeme} (h : p.Lexemes lexeme lexeme') :
      Grammar.isString lexeme.token = Grammar.isString lexeme'.token := by
    rcases token_cases h.token with hsame | ⟨label, label', hlabel, hlabel', -⟩
    · rw [hsame]
    · rw [hlabel, hlabel']
      rfl
  exact (Follows.require (rel_find? (Tree.Matches.leaves h.children) fun _ _ h => hstring h)).bind
    fun _ _ h => stringValue_follows h

theorem lengthValue_follows {lexeme lexeme' : Lexeme} (h : p.Lexemes lexeme lexeme') :
    Follows Eq (p.left.lengthValue lexeme) (p.right.lengthValue lexeme') := by
  unfold Context.lengthValue
  rcases token_cases h.token with hsame | ⟨label, label', hlabel, -⟩
  · rw [← hsame, ← h.text]
    split
    · exact .of_eq rfl
    · exact .of_eq rfl
  · rw [hlabel]
    exact .reject

theorem isArgument_eq {lexeme lexeme' : Lexeme} (h : p.Lexemes lexeme lexeme') :
    Context.isArgument lexeme = Context.isArgument lexeme' := by
  unfold Context.isArgument
  rcases token_cases h.token with hsame | ⟨label, label', hlabel, hlabel', -⟩
  · rw [hsame]
  · rw [hlabel, hlabel']
    rfl

theorem encryptionFlags_follows (h : p.Trees tree tree') :
    Follows Eq (encryptionFlags tree) (encryptionFlags tree') := by
  rw [encryptionFlags, Tree.Matches.names_eq p.keepsToken h.children]
  exact .of_eq rfl

/-! ### Columns of tables -/

/-- What leaves the default value of a column alone keeps columns alike. -/
theorem change_alike (change : ColumnDefinition → ColumnDefinition)
    (hchange : ∀ view column, (change column).seen view = change (column.seen view))
    {column column' : ColumnDefinition} (h : p.Alike ColumnDefinition.seen column column') :
    p.Alike ColumnDefinition.seen (change column) (change column') := by
  rw [Alike, hchange, h, hchange]

theorem name_eq {column column' : ColumnDefinition}
    (h : p.Alike ColumnDefinition.seen column column') : column.name = column'.name :=
  (ColumnDefinition.mk.inj h).1

theorem dataType_eq {column column' : ColumnDefinition}
    (h : p.Alike ColumnDefinition.seen column column') : column.dataType = column'.dataType :=
  (ColumnDefinition.mk.inj h).2.1

section

variable {column column' : ColumnDefinition}
  (hcolumn : p.Alike ColumnDefinition.seen column column')

include hcolumn

theorem setLength_follows (length : Int) :
    Follows (p.Alike ColumnDefinition.seen) (column.setLength length)
      (column'.setLength length) := by
  have hcommutes (view : View) (column : ColumnDefinition) :
      (column.seen view).setLength length =
        ColumnDefinition.seen view <$> column.setLength length := by
    unfold ColumnDefinition.setLength ColumnDefinition.seen
    dsimp only
    split
    · rfl
    · rfl
    · split
      · rfl
      · split
        · rfl
        · rfl
  intro next hnext
  have hboth := hcommutes p.leftView column
  rw [hcolumn, hcommutes, hnext] at hboth
  obtain ⟨next', hnext', hsame⟩ := map_eq_ok.mp hboth
  exact ⟨next', hnext', hsame.symm⟩

theorem typeArguments_follows (h : p.Trees tree tree') :
    Follows (p.Alike ColumnDefinition.seen) (p.left.typeArguments column tree)
      (p.right.typeArguments column' tree') := by
  have hvalues : List.Forall₂ p.Lexemes ((Tree.leaves tree.children).filter Context.isArgument)
      ((Tree.leaves tree'.children).filter Context.isArgument) :=
    rel_filter (Tree.Matches.leaves h.children) fun _ _ h => isArgument_eq h
  have hlength {lexeme lexeme' : Lexeme} (h : p.Lexemes lexeme lexeme') :
      Follows (p.Alike ColumnDefinition.seen)
        (do Built.ofMeaning (column.setLength (← p.left.lengthValue lexeme)))
        (do Built.ofMeaning (column'.setLength (← p.right.lengthValue lexeme'))) := by
    refine (lengthValue_follows h).bind ?_
    rintro n _ rfl
    exact (setLength_follows hcolumn n).mapError
  have hclass : column.dataType.lengthClass = column'.dataType.lengthClass := by
    rw [dataType_eq hcolumn]
  unfold Context.typeArguments
  dsimp only
  rw [← hclass]
  -- the class of the type and the number of the arguments decide, and both sides agree on them
  generalize (Tree.leaves tree.children).filter Context.isArgument = values at hvalues ⊢
  generalize (Tree.leaves tree'.children).filter Context.isArgument = values' at hvalues ⊢
  cases column.dataType.lengthClass with
  | members =>
    refine (Follows.mapM_eq hvalues fun _ _ h => stringValue_follows h).bind ?_
    rintro members _ rfl
    exact .ok (change_alike (fun column => { column with members }) (fun _ _ => rfl) hcolumn)
  | fixed =>
    match hvalues with
    | .nil => exact (setLength_follows hcolumn 0).mapError
    | .cons h .nil => exact hlength h
    | .cons _ (.cons _ _) => exact (setLength_follows hcolumn 0).mapError
  | precision =>
    match hvalues with
    | .nil => exact .reject
    | .cons h .nil => exact hlength h
    | .cons h (.cons hscale .nil) =>
      refine (lengthValue_follows h).bind ?_
      rintro n _ rfl
      refine (setLength_follows hcolumn n).mapError.bind fun column column' hcolumn => ?_
      refine (lengthValue_follows hscale).bind ?_
      rintro m _ rfl
      exact .ok (change_alike (fun column => { column with scale := some m }) (fun _ _ => rfl)
        hcolumn)
    | .cons _ (.cons _ (.cons _ _)) => exact .reject
  | _ =>
    match hvalues with
    | .nil => exact .reject
    | .cons h .nil => exact hlength h
    | .cons _ (.cons _ _) => exact .reject

theorem columnProperty_follows (h : p.Trees tree tree') :
    Follows (p.Alike ColumnDefinition.seen) (p.left.columnProperty column tree)
      (p.right.columnProperty column' tree') := by
  have hchange (change : ColumnDefinition → ColumnDefinition)
      (hsame : ∀ view column, (change column).seen view = change (column.seen view)) :
      Follows (p.Alike ColumnDefinition.seen) (.ok (change column) : Built ColumnDefinition)
        (.ok (change column')) :=
    .ok (change_alike change hsame hcolumn)
  unfold Context.columnProperty
  rw [← h.rule?_eq]
  split
  · exact hchange (fun column => { column with nullable := false }) fun _ _ => rfl
  · exact hchange (fun column => { column with nullable := true }) fun _ _ => rfl
  · exact hchange inPrimaryKey fun _ _ => rfl
  · exact hchange madeUnique fun _ _ => rfl
  · exact hchange (fun column => { column with autoIncrement := true }) fun _ _ => rfl
  · refine (firstExpression_follows h).bind fun e e' he => .ok ?_
    change { column.seen p.leftView with defaultValue := some (e.seen p.leftView) } =
      { column'.seen p.rightView with defaultValue := some (e'.seen p.rightView) }
    rw [hcolumn, he]
  · rcases rel_cases (Tree.Matches.find? h.children .flagList) with ⟨hlist, hlist'⟩ |
      ⟨list, list', hlist, hlist', hrel⟩
    · rw [hlist, hlist']
      exact hchange (fun column => { column with encryption := EncryptionFlags.none.insert .store })
        fun _ _ => rfl
    · rw [hlist, hlist']
      refine (encryptionFlags_follows hrel).bind ?_
      rintro flags _ rfl
      exact hchange (fun column => { column with encryption := flags }) fun _ _ => rfl
  · exact .ok hcolumn

end

theorem columnDefinition_follows (h : p.Trees tree tree') :
    Follows (p.Alike ColumnDefinition.seen) (p.left.columnDefinition tree)
      (p.right.columnDefinition tree') := by
  have hnames := Tree.Matches.names_eq p.keepsToken h.children
  refine (Follows.require_eq (congrArg List.head? hnames)).bind ?_
  rintro name _ rfl
  refine (h.required .dataType).bind fun type type' htype => ?_
  have hwords : (Tree.leaves type.children).map (fun lexeme => p.left.source.slice lexeme.span) =
      (Tree.leaves type'.children).map fun lexeme => p.right.source.slice lexeme.span :=
    map_eq_map_of_forall₂ ((Tree.Matches.leaves htype.children).imp fun _ _ h => h.text)
  have hproperties {column column' : ColumnDefinition}
      (hcolumn : p.Alike ColumnDefinition.seen column column') :
      Follows (p.Alike ColumnDefinition.seen) (tree.children.foldlM p.left.columnProperty column)
        (tree'.children.foldlM p.right.columnProperty column') :=
    .foldlM h.children hcolumn fun _ _ _ _ hcolumn h => columnProperty_follows hcolumn h
  dsimp only
  rw [← hwords, ← p.limits.dialect]
  split
  · exact .refuse
  · rename_i spelled _
    rcases rel_cases (Tree.Matches.find? htype.children .typeArguments) with ⟨hlist, hlist'⟩ |
      ⟨list, list', hlist, hlist', hrel⟩
    · rw [hlist, hlist']
      exact hproperties rfl
    · rw [hlist, hlist']
      exact (typeArguments_follows rfl hrel).bind fun _ _ hcolumn => hproperties hcolumn

/-! ### Tables and indexes -/

theorem changeColumn_follows (change : ColumnDefinition → ColumnDefinition)
    (hchange : ∀ view column, (change column).seen view = change (column.seen view))
    (constraint name : String) {columns columns' : List ColumnDefinition}
    (h : List.Forall₂ (p.Alike ColumnDefinition.seen) columns columns') :
    Follows (List.Forall₂ (p.Alike ColumnDefinition.seen))
      (changeColumn change constraint name columns)
      (changeColumn change constraint name columns') := by
  induction h with
  | nil => exact .reject
  | @cons column column' columns columns' hcolumn hcolumns ih =>
    rw [changeColumn, changeColumn, ← name_eq hcolumn]
    split
    · exact .ok (.cons (change_alike change hchange hcolumn) hcolumns)
    · exact ih.bind fun _ _ hrest => .ok (.cons hcolumn hrest)

theorem changeColumns_follows (change : ColumnDefinition → ColumnDefinition)
    (hchange : ∀ view column, (change column).seen view = change (column.seen view))
    (constraint : String) (names : List String) {columns columns' : List ColumnDefinition}
    (h : List.Forall₂ (p.Alike ColumnDefinition.seen) columns columns') :
    Follows (List.Forall₂ (p.Alike ColumnDefinition.seen))
      (changeColumns change constraint names columns)
      (changeColumns change constraint names columns') := by
  refine .foldlM (List.forall₂_same.mpr fun _ _ => rfl) h ?_
  rintro columns columns' name _ h rfl
  exact changeColumn_follows change hchange constraint name h

theorem keyColumns_follows (h : p.Trees tree tree') :
    Follows Eq (p.left.keyColumns tree) (p.right.keyColumns tree') := by
  refine (h.required .columnList).bind fun list list' hlist => ?_
  refine (columnList_follows hlist).bind ?_
  rintro columns _ rfl
  exact .ok rfl

/-- Elements of tables with columns that look alike. -/
structure Elements (p : Parallel) (elements elements' : TableElements) : Prop where
  columns : List.Forall₂ (p.Alike ColumnDefinition.seen) elements.columns elements'.columns
  primaryKey : elements.primaryKey = elements'.primaryKey
  unique : elements.unique = elements'.unique

theorem tableElement_follows {elements elements' : TableElements}
    (helements : p.Elements elements elements') (h : p.Trees tree tree') :
    Follows p.Elements (p.left.tableElement elements tree)
      (p.right.tableElement elements' tree') := by
  unfold Context.tableElement
  rw [← h.rule?_eq]
  split
  · refine (columnDefinition_follows h).bind fun column column' hcolumn => .ok ?_
    exact { helements with columns := List.rel_append helements.columns (.cons hcolumn .nil) }
  · refine (keyColumns_follows h).bind ?_
    rintro names _ rfl
    exact .ok { helements with primaryKey := congrArg (· ++ names) helements.primaryKey }
  · refine (keyColumns_follows h).bind ?_
    rintro names _ rfl
    split
    · exact .refuse
    · exact .ok { helements with unique := congrArg (· ++ names) helements.unique }
  · exact .ok helements

theorem createTable_follows (h : p.Trees tree tree') :
    Follows (p.Alike CreateTableQuery.seen) (p.left.createTable tree)
      (p.right.createTable tree') := by
  refine (h.required .tableElementList).bind fun list list' hlist => ?_
  refine (Follows.foldlM (T := p.Elements) hlist.children ⟨.nil, rfl, rfl⟩
    fun _ _ _ _ helements h => tableElement_follows helements h).bind
      fun elements elements' helements => ?_
  rw [← helements.primaryKey, ← helements.unique]
  refine (changeColumns_follows inPrimaryKey (fun _ _ => rfl) _ _ helements.columns).bind
    fun keyed keyed' hkeyed => ?_
  refine (changeColumns_follows madeUnique (fun _ _ => rfl) _ _ hkeyed).bind
    fun columns columns' hcolumns => ?_
  refine (table_follows h).bind ?_
  rintro table _ rfl
  refine .ok ?_
  simp only [Alike, CreateTableQuery.seen, map_eq_map_of_forall₂ hcolumns,
    Tree.Matches.hasKeyword_eq p.keepsToken h.children]

theorem alterTable_follows (h : p.Trees tree tree') :
    Follows (p.Alike AlterTableQuery.seen) (p.left.alterTable tree)
      (p.right.alterTable tree') := by
  refine (h.required .alterAction).bind fun action action' haction => ?_
  rcases rel_cases (Tree.Matches.find? haction.children .unsupportedClause) with
    ⟨hclause, hclause'⟩ | ⟨clause, clause', hclause, hclause', -⟩
  · rw [hclause, hclause']
    dsimp only
    rw [← Tree.Matches.hasWord_eq p.keepsToken haction.children, ← p.limits.dialect]
    split
    · exact .refuse
    · refine (haction.required .columnDefinition).bind fun column column' hcolumn => ?_
      refine (table_follows h).bind ?_
      rintro table _ rfl
      refine (columnDefinition_follows hcolumn).bind fun definition definition' hdefinition => ?_
      exact .ok (congrArg (AlterTableQuery.mk table) hdefinition)
  · rw [hclause]
    exact .refuse

theorem dropTable_follows (h : p.Trees tree tree') :
    Follows Eq (p.left.dropTable tree) (p.right.dropTable tree') := by
  refine (table_follows h).bind ?_
  rintro table _ rfl
  rw [Tree.Matches.hasKeyword_eq p.keepsToken h.children]
  exact .ok rfl

theorem createIndex_follows (h : p.Trees tree tree') :
    Follows Eq (p.left.createIndex tree) (p.right.createIndex tree') := by
  have hname : (do
        let name ← Tree.find? .indexName tree.children
        (Tree.names name.children).getLast?) = (do
        let name ← Tree.find? .indexName tree'.children
        (Tree.names name.children).getLast?) := by
    rcases rel_cases (Tree.Matches.find? h.children .indexName) with ⟨hfound, hfound'⟩ |
      ⟨name, name', hfound, hfound', hrel⟩
    · rw [hfound, hfound']
    · rw [hfound, hfound']
      exact congrArg List.getLast? (Tree.Matches.names_eq p.keepsToken hrel.children)
  refine (Follows.require_eq hname).bind ?_
  rintro name _ rfl
  refine (h.required .columnList).bind fun list list' hlist => ?_
  refine (table_follows h).bind ?_
  rintro table _ rfl
  refine (indexColumns_follows hlist.children).bind ?_
  rintro columns _ rfl
  rw [Tree.Matches.hasKeyword_eq p.keepsToken h.children]
  exact .ok rfl

theorem use_follows (h : p.Trees tree tree') :
    Follows Eq (p.left.use tree) (p.right.use tree') := by
  rw [Context.use, Context.use, ← p.limits.allowUseStatements, ← p.limits.dialect]
  split
  · exact .refuse
  · refine (Follows.of_eq rfl).bind fun _ _ _ => ?_
    refine (h.required .databaseName).bind fun name name' hname => ?_
    exact Tree.Matches.lastName_follows p.keepsToken hname

theorem showTables_follows (h : p.Trees tree tree') :
    Follows Eq (Context.showTables tree) (Context.showTables tree') := by
  unfold Context.showTables
  rcases rel_cases (Tree.Matches.find? h.children .databaseName) with ⟨hname, hname'⟩ |
    ⟨name, name', hname, hname', hrel⟩
  · rw [hname, hname']
    exact .ok rfl
  · rw [hname, hname']
    refine (Tree.Matches.lastName_follows p.keepsToken hrel).bind ?_
    rintro text _ rfl
    exact .ok rfl

/-! ### Commands -/

theorem statusCheck_eq (h : p.Trees tree tree') : statusCheck tree = statusCheck tree' :=
  Tree.Matches.isSome_find?_eq h.children .statusFlag

theorem timeUnit_eq (h : List.Forall₂ p.Trees trees trees') : timeUnit trees = timeUnit trees' := by
  unfold timeUnit
  simp only [Tree.Matches.hasWord_eq p.keepsToken h]

theorem stopCondition_follows (h : p.Trees tree tree') :
    Follows Eq (p.left.stopCondition tree) (p.right.stopCondition tree') := by
  unfold Context.stopCondition
  rw [← Tree.Matches.hasWord_eq p.keepsToken h.children, ← timeUnit_eq h.children, ← p.decimals]
  split
  · exact .ok rfl
  · rw [← List.head?_filterMap, ← List.head?_filterMap]
    refine (Follows.require_eq (congrArg List.head? (filterMap_eq_of_forall₂
      (Tree.Matches.leaves h.children) fun lexeme lexeme' h => ?_))).bind ?_
    · rcases token_cases h.token with hsame | ⟨label, label', hlabel, hlabel', -⟩
      · rw [hsame]
      · rw [hlabel, hlabel']
    · rintro text _ rfl
      exact .of_eq rfl

theorem partText?_follows (rule : Rule) (h : p.Trees tree tree') :
    Follows Eq (p.left.partText? rule tree) (p.right.partText? rule tree') := by
  unfold Context.partText?
  rcases rel_cases (Tree.Matches.find? h.children rule) with ⟨hpart, hpart'⟩ |
    ⟨part, part', hpart, hpart', hrel⟩
  · rw [hpart, hpart']
    exact .ok rfl
  · rw [hpart, hpart']
    refine (stringChild_follows hrel).bind ?_
    rintro text _ rfl
    exact .ok rfl

theorem keysCommand_follows (h : p.Trees tree tree') :
    Follows Eq (p.left.keysCommand tree) (p.right.keysCommand tree') := by
  refine (partText?_follows .destination h).bind ?_
  rintro destination _ rfl
  rw [statusCheck_eq h]
  exact .ok rfl

theorem columnCommand_follows (h : p.Trees tree tree') :
    Follows Eq (p.left.columnCommand tree) (p.right.columnCommand tree') := by
  refine (h.required .columnName).bind fun name name' hname => ?_
  refine (column_follows hname).bind ?_
  rintro column _ rfl
  rw [← statusCheck_eq h]
  rcases rel_cases (Tree.Matches.find? h.children .flagList) with ⟨hlist, hlist'⟩ |
    ⟨list, list', hlist, hlist', hrel⟩
  · rw [hlist, hlist']
    exact .ok rfl
  · rw [hlist, hlist']
    refine (encryptionFlags_follows hrel).bind ?_
    rintro flags _ rfl
    exact .ok rfl

theorem seed_follows (h : p.Trees tree tree') :
    Follows (p.Alike Constant.seen) (p.left.seed tree) (p.right.seed tree') := by
  refine (expression_follows h).bind fun e e' he => ?_
  cases e with
  | constant a value =>
    obtain ⟨a', value', rfl, hvalue⟩ := constant_of_alike he
    exact .ok hvalue
  | _ => exact .reject

theorem seeds_follows (h : p.Trees tree tree') :
    Follows (List.Forall₂ (p.Alike Constant.seen)) (p.left.seeds tree) (p.right.seeds tree') := by
  have hlist : Option.Rel p.Trees
      (do
        let seeds ← Tree.find? .seedList tree.children
        Tree.find? .expressionList seeds.children)
      (do
        let seeds ← Tree.find? .seedList tree'.children
        Tree.find? .expressionList seeds.children) := by
    rcases rel_cases (Tree.Matches.find? h.children .seedList) with ⟨hseeds, hseeds'⟩ |
      ⟨seeds, seeds', hseeds, hseeds', hrel⟩
    · rw [hseeds, hseeds']
      exact .none
    · rw [hseeds, hseeds']
      exact Tree.Matches.find? hrel.children .expressionList
  unfold Context.seeds
  dsimp only
  rcases rel_cases hlist with ⟨hfound, hfound'⟩ | ⟨list, list', hfound, hfound', hrel⟩
  · rw [hfound, hfound']
    exact .ok .nil
  · rw [hfound, hfound']
    exact .mapM (Tree.Matches.expressions hrel.children) fun _ _ h => seed_follows h

theorem opetreeCommand_follows (h : p.Trees tree tree') :
    Follows (p.Alike OpetreeCommand.seen) (p.left.opetreeCommand tree)
      (p.right.opetreeCommand tree') := by
  refine (seeds_follows h).bind fun seeds seeds' hseeds => ?_
  have hcommand (stop : Option StopCondition) :
      p.Alike OpetreeCommand.seen ⟨seeds, stop⟩ ⟨seeds', stop⟩ :=
    congrArg (OpetreeCommand.mk · stop) (map_eq_map_of_forall₂ hseeds)
  rcases rel_cases (Tree.Matches.find? h.children .stopClause) with ⟨hclause, hclause'⟩ |
    ⟨clause, clause', hclause, hclause', hrel⟩
  · rw [hclause, hclause']
    exact .ok (hcommand none)
  · rw [hclause, hclause']
    refine (stopCondition_follows hrel).bind ?_
    rintro stop _ rfl
    exact .ok (hcommand (some stop))

/-! ### Statements -/

/-- A statement without a part that can look otherwise. -/
theorem plain_follows {α : Type} {x y : Built α} (h : Follows Eq x y) {make : α → Query}
    (hmake : ∀ view a, (make a).seen view = make a) :
    Follows (p.Alike Query.seen) (make <$> x) (make <$> y) := by
  refine h.map ?_
  rintro a _ rfl
  rw [Alike, hmake, hmake]

theorem simpleStatement_follows (h : p.Trees tree tree') :
    Follows (p.Alike Query.seen) (p.left.simpleStatement tree)
      (p.right.simpleStatement tree') := by
  unfold Context.simpleStatement
  rw [← h.rule?_eq]
  split
  · exact (select_follows tree h).map fun _ _ h => congrArg Query.select h
  · exact (insert_follows h).map fun _ _ h => congrArg Query.insert h
  · exact (update_follows h).map fun _ _ h => congrArg Query.update h
  · exact (delete_follows h).map fun _ _ h => congrArg Query.delete h
  · exact (createTable_follows h).map fun _ _ h => congrArg Query.createTable h
  · exact (alterTable_follows h).map fun _ _ h => congrArg Query.alterTable h
  · exact plain_follows (dropTable_follows h) fun _ _ => rfl
  · exact plain_follows (createIndex_follows h) fun _ _ => rfl
  · exact plain_follows (use_follows h) fun _ _ => rfl
  · exact plain_follows (showTables_follows h) fun _ _ => rfl
  · exact plain_follows (table_follows h) fun _ _ => rfl
  · exact plain_follows (keysCommand_follows h) fun _ _ => rfl
  · exact plain_follows (keysCommand_follows h) fun _ _ => rfl
  · exact plain_follows (columnCommand_follows h) fun _ _ => rfl
  · exact plain_follows (columnCommand_follows h) fun _ _ => rfl
  · exact (opetreeCommand_follows h).map fun _ _ h => congrArg Query.rebuildOpetree h
  · exact (opetreeCommand_follows h).map fun _ _ h => congrArg Query.rebalanceOpetree h
  · exact .ok rfl
  · exact .ok rfl
  · exact .ok rfl
  · exact .ok rfl
  · exact .ok rfl
  · exact .ok rfl
  · exact plain_follows (partText?_follows _ h) fun _ _ => rfl
  · exact .reject

theorem bypassed_follows {query query' : Query} (h : p.Alike Query.seen query query') :
    Follows (p.Alike Query.seen) (Context.bypassed query) (Context.bypassed query') := by
  have hkind : query.isBypassable = query'.isBypassable :=
    h.apply_eq fun _ query => by cases query <;> rfl
  unfold Context.bypassed
  rw [← hkind]
  split
  · exact .ok (congrArg Query.bypass h)
  · exact .reject

mutual

/-- **Related trees build statements that look alike.** -/
theorem statement_follows (tree : Tree) {tree' : Tree} (h : p.Trees tree tree') :
    Follows (p.Alike Query.seen) (p.left.statement tree) (p.right.statement tree') := by
  have hsimple := simpleStatement_follows h
  cases h with
  | leaf _ => exact .reject
  | @node rule span span' children children' hspan hchildren =>
    by_cases hrule : rule = .bypassStatement
    · subst hrule
      rw [Context.statement, Context.statement]
      refine (Follows.require (innerStatement_rel children hchildren)).bind fun _ _ hbuilt => ?_
      exact hbuilt.bind fun _ _ h => bypassed_follows h
    · rw [Context.statement.eq_2 _ _ (Tree.node_ne hrule),
        Context.statement.eq_2 _ _ (Tree.node_ne hrule)]
      exact hsimple
termination_by sizeOf tree

theorem innerStatement_rel (trees : List Tree) {trees' : List Tree}
    (h : List.Forall₂ p.Trees trees trees') :
    Option.Rel (Follows (p.Alike Query.seen)) (p.left.innerStatement trees)
      (p.right.innerStatement trees') := by
  cases h with
  | nil => exact .none
  | @cons tree tree' trees trees' htree htrees =>
    rw [Context.innerStatement, Context.innerStatement, ← htree.isLeaf_eq]
    split
    · exact innerStatement_rel trees htrees
    · exact .some (statement_follows tree htree)
termination_by sizeOf trees

end

end SqlFront.Parallel
