import SqlFront.Build.Statement
import SqlFront.Proofs.QueryRefusal

/-!
Statements of well-formed trees are built, or refused for what they mean or ask for.
-/

namespace SqlFront.Build

open Built Grammar

/-- A part that has to be there is taken from a tree that has it. -/
theorem required_bind {β : Type} {rule : Rule} {tree : Tree} {f : Tree → Built β}
    (h : tree.WellFormed) (hany : tree.children.any (Tree.hasRule rule))
    (hf : ∀ part : Tree, part.WellFormed → part.hasRule rule → (f part).OnlyRefuses) :
    (tree.required rule >>= f).OnlyRefuses := by
  obtain ⟨part, hmem, hrule, heq⟩ := Tree.required_of_any hany
  rw [heq]
  exact hf part (h.child hmem) hrule

namespace Context

variable (context : Context) {tree : Tree}

/-! ### Tables and columns -/

theorem table_onlyRefuses (h : tree.WellFormed)
    (hany : tree.children.any (Tree.hasRule .tableName)) :
    (context.table tree).OnlyRefuses :=
  required_bind h hany fun _ hpart hrule => tableOfTree_onlyRefuses _ hpart hrule

theorem column_onlyRefuses (h : tree.WellFormed) (hrule : tree.hasRule .columnName) :
    (context.column tree).OnlyRefuses :=
  columnOfTree_onlyRefuses _ (h.shape hrule)

theorem indexColumns_onlyRefuses {trees : List Tree} (h : ∀ tree ∈ trees, tree.WellFormed) :
    (context.indexColumns trees).OnlyRefuses := by
  induction trees with
  | nil => exact .ok _
  | cons tree trees ih =>
    obtain ⟨hfirst, hothers⟩ := List.forall_mem_cons.mp h
    rw [indexColumns]
    split
    · rename_i hrule
      have hcolumn : tree.hasRule .columnName := Tree.hasRule_iff.mpr hrule
      exact .bind (context.column_onlyRefuses hfirst hcolumn) fun _ _ =>
        .bind (ih hothers) fun _ _ => .ok _
    · rename_i hrule
      have hcolumn : tree.hasRule .indexColumn := Tree.hasRule_iff.mpr hrule
      exact required_bind hfirst (hfirst.shape hcolumn) fun part hpart hname =>
        .bind (context.column_onlyRefuses hpart hname) fun _ _ =>
        .bind (ih hothers) fun _ _ => .ok _
    · exact ih hothers

theorem columnList_onlyRefuses (h : tree.WellFormed) : (context.columnList tree).OnlyRefuses :=
  .bind (context.indexColumns_onlyRefuses fun _ => h.child) fun _ _ => .ok _

/-! ### Changes of rows -/

theorem whereClause?_onlyRefuses (h : tree.WellFormed) :
    (context.whereClause? tree).OnlyRefuses := by
  unfold whereClause?
  split
  · rename_i clause hfound
    obtain ⟨hclause, hkind⟩ := h.found hfound
    exact .bind (context.condition_onlyRefuses _ hclause (hclause.shape hkind))
      fun _ _ => .ok _
  · exact .ok _

theorem valueRows_onlyRefuses {rows : List Tree} (h : ∀ row ∈ rows, row.WellFormed)
    (expected : Option Nat) (number : Nat) :
    (context.valueRows expected number rows).OnlyRefuses := by
  induction rows generalizing expected number with
  | nil => exact .ok _
  | cons row rows ih =>
    obtain ⟨hfirst, hothers⟩ := List.forall_mem_cons.mp h
    refine .bind (context.expressions_onlyRefuses hfirst) ?_
    intro values _
    dsimp only
    split
    · exact .reject rfl
    · exact .bind (ih hothers _ _) fun _ _ => .ok _

theorem insert_onlyRefuses (h : tree.WellFormed) (hrule : tree.hasRule .insertStatement) :
    (context.insert tree).OnlyRefuses := by
  obtain ⟨htable, hrows⟩ := h.shape hrule
  unfold insert
  by_cases hquery : (Tree.find? .selectStatement tree.children).isSome
  · rw [if_pos hquery]
    exact .refuse_bind
  rw [if_neg hquery]
  refine .bind (context.table_onlyRefuses h htable) ?_
  intro table _
  have hmore : ∀ columns : Option (List ColumnRef), OnlyRefuses (do
      let clause ← tree.required .valuesClause
      let rows ← context.valueRows (columns.map List.length) 1
        (clause.children.filter (Tree.hasRule .valueRow))
      return (⟨table, columns, rows⟩ : InsertQuery)) := by
    intro columns
    have hnone : Tree.find? .selectStatement tree.children = none := by simpa using hquery
    refine required_bind h (Tree.any_of_either hrows (Tree.any_eq_false_of_find? hnone))
      fun clause hclause _ => .bind (context.valueRows_onlyRefuses ?_ _ _) fun _ _ => .ok _
    intro row hrow
    exact hclause.child (List.mem_of_mem_filter hrow)
  dsimp only
  split
  · rename_i list hfound
    obtain ⟨hlist, -⟩ := h.found hfound
    exact .bind (context.columnList_onlyRefuses hlist) fun columns _ => hmore (some columns)
  · exact hmore none

theorem assignment_onlyRefuses (h : tree.WellFormed) (hrule : tree.hasRule .assignment) :
    (context.assignment tree).OnlyRefuses := by
  obtain ⟨hcolumn, before, value, hparts, hvalue⟩ := h.shape hrule
  refine required_bind h hcolumn ?_
  intro name hname hkind
  refine .require_bind ⟨value, by simp [hparts], ?_⟩
  have hformed : value.WellFormed := h.child (by simp [hparts])
  exact .bind (context.column_onlyRefuses hname hkind) fun _ _ =>
    .bind (context.expression_onlyRefuses hformed hvalue) fun _ _ => .ok _

theorem update_onlyRefuses (h : tree.WellFormed) (hrule : tree.hasRule .updateStatement) :
    (context.update tree).OnlyRefuses :=
  .bind (mapM_onlyRefuses h fun _ => context.assignment_onlyRefuses) fun _ _ =>
    .bind (context.table_onlyRefuses h (h.shape hrule)) fun _ _ =>
    .bind (context.whereClause?_onlyRefuses h) fun _ _ => .ok _

theorem delete_onlyRefuses (h : tree.WellFormed) (hrule : tree.hasRule .deleteStatement) :
    (context.delete tree).OnlyRefuses :=
  .bind (context.table_onlyRefuses h (h.shape hrule)) fun _ _ =>
    .bind (context.whereClause?_onlyRefuses h) fun _ _ => .ok _

end Context

/-! ### Columns of new tables -/

theorem changeColumns_onlyRefuses (change : ColumnDefinition → ColumnDefinition)
    (constraint : String) (names : List String) (columns : List ColumnDefinition) :
    (changeColumns change constraint names columns).OnlyRefuses := by
  refine .foldlM (fun name _ columns => ?_) columns
  induction columns with
  | nil => exact .reject rfl
  | cons column columns ih =>
    rw [changeColumn]
    split
    · exact .ok _
    · exact .bind ih fun _ _ => .ok _

theorem encryptionFlags_onlyRefuses (list : Tree) : (encryptionFlags list).OnlyRefuses :=
  .foldlM (fun _ _ _ => .bind (.require rfl _) fun _ _ => .ok _) _

namespace Context

variable (context : Context) {tree : Tree}

theorem stringValue_onlyRefuses (lexeme : Lexeme) : (context.stringValue lexeme).OnlyRefuses := by
  unfold stringValue
  split
  · refine .bind (.ofMeaning (Literal.string_failsOnly _ _ _ _)) ?_
    intro constant _
    split
    · exact .ok _
    · exact .reject rfl
  · exact .reject rfl

theorem lengthValue_onlyRefuses (lexeme : Lexeme) : (context.lengthValue lexeme).OnlyRefuses := by
  unfold lengthValue
  split
  · exact .require rfl _
  · split
    · exact .ok _
    · exact .reject rfl

theorem typeArguments_onlyRefuses (column : ColumnDefinition) (list : Tree) :
    (context.typeArguments column list).OnlyRefuses := by
  have hlength (column : ColumnDefinition) (lexeme : Lexeme) : OnlyRefuses (do
      Built.ofMeaning (column.setLength (← context.lengthValue lexeme))) :=
    .bind (context.lengthValue_onlyRefuses lexeme) fun length _ =>
      .ofMeaning (setLength_failsOnly column length)
  unfold typeArguments
  dsimp only
  split
  · exact .bind (.mapM fun lexeme _ => context.stringValue_onlyRefuses lexeme) fun _ _ => .ok _
  · exact hlength column _
  · refine .bind (context.lengthValue_onlyRefuses _) fun length _ =>
      .bind (.ofMeaning (setLength_failsOnly column length)) fun _ _ =>
      .bind (context.lengthValue_onlyRefuses _) fun _ _ => .ok _
  · exact .ofMeaning (setLength_failsOnly column 0)
  · exact .reject rfl

theorem columnProperty_onlyRefuses (h : tree.WellFormed) (column : ColumnDefinition) :
    (context.columnProperty column tree).OnlyRefuses := by
  unfold columnProperty
  split
  · exact .ok _
  · exact .ok _
  · exact .ok _
  · exact .ok _
  · exact .ok _
  · rename_i hrule
    have hdefault : tree.hasRule .defaultConstraint := Tree.hasRule_iff.mpr hrule
    exact .bind (context.firstExpression_onlyRefuses h (h.shape hdefault)) fun _ _ => .ok _
  · split
    · exact .bind (encryptionFlags_onlyRefuses _) fun _ _ => .ok _
    · exact .ok _
  · exact .ok _

theorem columnDefinition_onlyRefuses (h : tree.WellFormed)
    (hrule : tree.hasRule .columnDefinition) : (context.columnDefinition tree).OnlyRefuses := by
  obtain ⟨hname, htype⟩ := h.shape hrule
  obtain ⟨name, hhead⟩ : ∃ name, (Tree.names tree.children).head? = some name :=
    ⟨_, List.head?_eq_some_head (Tree.names_ne_nil hname)⟩
  refine .require_bind ⟨name, hhead, required_bind h htype fun typeTree _ _ => ?_⟩
  have hproperties (column : ColumnDefinition) :
      OnlyRefuses (tree.children.foldlM context.columnProperty column) :=
    .foldlM (fun part hmem => context.columnProperty_onlyRefuses (h.child hmem)) column
  dsimp only
  split
  · exact .refuse
  · split
    · exact .bind (context.typeArguments_onlyRefuses _ _) fun column _ => hproperties column
    · exact hproperties _

/-! ### Tables and indexes -/

theorem keyColumns_onlyRefuses (h : tree.WellFormed)
    (hany : tree.children.any (Tree.hasRule .columnList)) :
    (context.keyColumns tree).OnlyRefuses :=
  required_bind h hany fun _ hlist _ => .bind (context.columnList_onlyRefuses hlist)
    fun _ _ => .ok _

theorem tableElement_onlyRefuses (h : tree.WellFormed) (elements : TableElements) :
    (context.tableElement elements tree).OnlyRefuses := by
  unfold tableElement
  split
  · rename_i hrule
    have hcolumn : tree.hasRule .columnDefinition := Tree.hasRule_iff.mpr hrule
    exact .bind (context.columnDefinition_onlyRefuses h hcolumn) fun _ _ => .ok _
  · rename_i hrule
    have hkey : tree.hasRule .tablePrimaryKey := Tree.hasRule_iff.mpr hrule
    exact .bind (context.keyColumns_onlyRefuses h (h.shape hkey)) fun _ _ => .ok _
  · rename_i hrule
    have hkey : tree.hasRule .tableUnique := Tree.hasRule_iff.mpr hrule
    refine .bind (context.keyColumns_onlyRefuses h (h.shape hkey)) ?_
    intro names _
    split
    · exact .refuse
    · exact .ok _
  · exact .ok _

theorem createTable_onlyRefuses (h : tree.WellFormed)
    (hrule : tree.hasRule .createTableStatement) : (context.createTable tree).OnlyRefuses := by
  obtain ⟨htable, hlist⟩ := h.shape hrule
  refine required_bind h hlist fun list hformed _ => .bind (.foldlM ?_ _) ?_
  · intro part hmem
    exact context.tableElement_onlyRefuses (hformed.child hmem)
  · intro elements _
    exact .bind (changeColumns_onlyRefuses _ _ _ _) fun _ _ =>
      .bind (changeColumns_onlyRefuses _ _ _ _) fun _ _ =>
      .bind (context.table_onlyRefuses h htable) fun _ _ => .ok _

theorem alterTable_onlyRefuses (h : tree.WellFormed) (hrule : tree.hasRule .alterTableStatement) :
    (context.alterTable tree).OnlyRefuses := by
  obtain ⟨htable, haction⟩ := h.shape hrule
  refine required_bind h haction ?_
  intro action hformed hkind
  have hshape : Rule.alterAction.Shape action.children := hformed.shape hkind
  dsimp only
  split
  · exact .refuse
  · rename_i hunsupported
    split
    · exact .refuse
    · have hnone := Tree.any_eq_false_of_find? hunsupported
      exact required_bind hformed (Tree.any_of_either hshape hnone)
        fun column hcolumn hdefinition =>
        .bind (context.table_onlyRefuses h htable) fun _ _ =>
        .bind (context.columnDefinition_onlyRefuses hcolumn hdefinition) fun _ _ => .ok _

theorem dropTable_onlyRefuses (h : tree.WellFormed) (hrule : tree.hasRule .dropTableStatement) :
    (context.dropTable tree).OnlyRefuses :=
  .bind (context.table_onlyRefuses h (h.shape hrule)) fun _ _ => .ok _

theorem createIndex_onlyRefuses (h : tree.WellFormed)
    (hrule : tree.hasRule .createIndexStatement) : (context.createIndex tree).OnlyRefuses := by
  obtain ⟨hname, htable, hlist⟩ := h.shape hrule
  obtain ⟨part, hmem, hkind, hfound⟩ := Tree.find?_of_any hname
  have hnames := Tree.names_ne_nil ((h.child hmem).shape hkind)
  refine .require_bind ⟨(Tree.names part.children).getLast hnames, ?_, ?_⟩
  · simp [hfound, List.getLast?_eq_some_getLast hnames]
  · exact required_bind h hlist fun list hformed _ =>
      .bind (context.table_onlyRefuses h htable) fun _ _ =>
      .bind (context.indexColumns_onlyRefuses fun _ => hformed.child) fun _ _ => .ok _

/-! ### Databases -/

theorem database_onlyRefuses (h : tree.WellFormed) (hrule : tree.hasRule .databaseName) :
    (database tree).OnlyRefuses := by
  obtain ⟨name, hname⟩ := Tree.lastName_of_any (h.shape hrule)
  rw [database, hname]
  exact .ok _

theorem use_onlyRefuses (h : tree.WellFormed) (hrule : tree.hasRule .useStatement) :
    (context.use tree).OnlyRefuses := by
  have hcheck : context.config.dialect.checkUse.OnlyRefuses := by
    unfold Dialect.checkUse
    split
    · exact .ok _
    · exact .refuse
  have hname : OnlyRefuses (tree.required .databaseName >>= database) :=
    required_bind h (h.shape hrule) fun _ => database_onlyRefuses
  unfold use
  split
  · exact .refuse_bind
  · exact .bind hcheck fun _ _ => hname

theorem showTables_onlyRefuses (h : tree.WellFormed) : (showTables tree).OnlyRefuses := by
  unfold showTables
  split
  · rename_i name hfound
    obtain ⟨hformed, hkind⟩ := h.found hfound
    exact .bind (database_onlyRefuses hformed hkind) fun _ _ => .ok _
  · exact .ok _

/-! ### Commands -/

theorem stringChild_onlyRefuses (h : tree.children.any (Tree.isTokenOf isString)) :
    (context.stringChild tree).OnlyRefuses := by
  have hsome : ((Tree.leaves tree.children).find? fun lexeme => isString lexeme.token).isSome :=
    List.find?_isSome.mpr (Tree.exists_leaf_of_any h)
  exact .bind (.require_of_isSome hsome) fun lexeme _ => context.stringValue_onlyRefuses lexeme

/-- The text of a part that is there when the tree has the part, and that has a string then. -/
theorem partText?_onlyRefuses {rule : Rule} (h : tree.WellFormed)
    (hshape : ∀ parts : List Tree, rule.Shape parts → parts.any (Tree.isTokenOf isString)) :
    (context.partText? rule tree).OnlyRefuses := by
  unfold partText?
  split
  · rename_i part hfound
    obtain ⟨hpart, hkind⟩ := h.found hfound
    have hstring := hshape _ (hpart.shape hkind)
    exact .bind (context.stringChild_onlyRefuses hstring) fun _ _ => .ok _
  · exact .ok _

theorem keysCommand_onlyRefuses (h : tree.WellFormed) : (context.keysCommand tree).OnlyRefuses :=
  .bind (context.partText?_onlyRefuses h fun _ => id) fun _ _ => .ok _

theorem columnCommand_onlyRefuses (h : tree.WellFormed)
    (hany : tree.children.any (Tree.hasRule .columnName)) :
    (context.columnCommand tree).OnlyRefuses := by
  refine required_bind h hany fun part hpart hname =>
    .bind (context.column_onlyRefuses hpart hname) ?_
  intro column _
  dsimp only
  split
  · exact .bind (encryptionFlags_onlyRefuses _) fun _ _ => .ok _
  · exact .ok _

theorem stopCondition_onlyRefuses (h : tree.WellFormed) (hrule : tree.hasRule .stopClause) :
    (context.stopCondition tree).OnlyRefuses := by
  unfold stopCondition
  split
  · exact .ok _
  · rename_i himmediate
    have hword : tree.children.any (Tree.isTokenOf (Token.isWord "IMMEDIATE")) = false := by
      rw [← Tree.any_leaves]
      exact Bool.eq_false_iff.mpr himmediate
    have hnumber := Tree.any_of_either (h.shape hrule) hword
    obtain ⟨⟨token, place⟩, hmem, htoken⟩ := Tree.exists_leaf_of_any hnumber
    refine .bind (.require_of_isSome ?_) fun text _ => ?_
    · refine List.findSome?_isSome_iff.mpr ⟨_, hmem, ?_⟩
      cases token with
      | number text => rfl
      | _ => cases htoken
    · exact .bind (.ofMeaning (Literal.decimalBy_failsOnly _ _)) fun _ _ => .ok _

theorem seeds_onlyRefuses (h : tree.WellFormed) : (context.seeds tree).OnlyRefuses := by
  unfold seeds
  dsimp only
  split
  · rename_i list hfound
    obtain ⟨clause, hclause, hlist⟩ := Option.bind_eq_some_iff.mp hfound
    obtain ⟨hformed, -⟩ := (h.found hclause).1.found hlist
    refine .mapM ?_
    intro seed hseed
    obtain ⟨hmem, hexpression⟩ := List.mem_filter.mp hseed
    refine .bind (context.expression_onlyRefuses (hformed.child hmem) hexpression) ?_
    intro e _
    split
    · exact .ok _
    · exact .reject rfl
  · exact .ok _

theorem opetreeCommand_onlyRefuses (h : tree.WellFormed) :
    (context.opetreeCommand tree).OnlyRefuses := by
  refine .bind (context.seeds_onlyRefuses h) ?_
  intro seeds _
  dsimp only
  split
  · rename_i clause hfound
    obtain ⟨hclause, hkind⟩ := h.found hfound
    exact .bind (context.stopCondition_onlyRefuses hclause hkind) fun _ _ => .ok _
  · exact .ok _

/-! ### Statements -/

theorem simpleStatement_onlyRefuses (h : tree.WellFormed) (hstatement : tree.isStatement)
    (hbypass : tree.hasRule .bypassStatement = false) :
    (context.simpleStatement tree).OnlyRefuses := by
  have shapeOf {rule : Rule} {span : Span} {children : List Tree}
      (h : (Tree.node rule span children).WellFormed) : rule.Shape children :=
    h.shape (beq_self_eq_true (some rule))
  cases tree with
  | leaf lexeme => cases hstatement
  | node rule span children =>
    cases rule with
    | selectStatement => exact .map ((context.serves h).query rfl)
    | insertStatement => exact .map (context.insert_onlyRefuses h rfl)
    | updateStatement => exact .map (context.update_onlyRefuses h rfl)
    | deleteStatement => exact .map (context.delete_onlyRefuses h rfl)
    | createTableStatement => exact .map (context.createTable_onlyRefuses h rfl)
    | alterTableStatement => exact .map (context.alterTable_onlyRefuses h rfl)
    | dropTableStatement => exact .map (context.dropTable_onlyRefuses h rfl)
    | createIndexStatement => exact .map (context.createIndex_onlyRefuses h rfl)
    | useStatement => exact .map (context.use_onlyRefuses h rfl)
    | showTablesStatement => exact .map (showTables_onlyRefuses h)
    | showColumnsStatement => exact .map (context.table_onlyRefuses h (shapeOf h))
    | exportKeysStatement => exact .map (context.keysCommand_onlyRefuses h)
    | updateKeysStatement => exact .map (context.keysCommand_onlyRefuses h)
    | encryptColumnStatement => exact .map (context.columnCommand_onlyRefuses h (shapeOf h))
    | decryptColumnStatement => exact .map (context.columnCommand_onlyRefuses h (shapeOf h))
    | rebuildOpetreeStatement => exact .map (context.opetreeCommand_onlyRefuses h)
    | rebalanceOpetreeStatement => exact .map (context.opetreeCommand_onlyRefuses h)
    | licenseSetKeyStatement => exact .map (context.partText?_onlyRefuses h fun _ => id)
    | bypassStatement => cases hbypass
    | _ => first | exact .ok _ | cases hstatement

theorem bypassed_onlyRefuses (query : Query) : (bypassed query).OnlyRefuses := by
  unfold bypassed
  split
  · exact .ok _
  · exact .reject rfl

/-- **A statement is built or refused**, also inside any number of `BYPASS`. -/
theorem statement_onlyRefuses (h : tree.WellFormed) (hstatement : tree.isStatement) :
    (context.statement tree).OnlyRefuses := by
  induction h with
  | leaf => cases hstatement
  | @node rule span children hspan hshape hchildren ih =>
    have hnode : (Tree.node rule span children).WellFormed := .node hspan hshape hchildren
    by_cases hrule : rule = .bypassStatement
    · subst hrule
      obtain ⟨word, inner, rfl, hinner⟩ := hshape
      have hfound :
          context.innerStatement [.leaf word, inner] = some (context.statement inner) := by
        cases inner with
        | leaf lexeme => cases hinner
        | node rule span children => rfl
      rw [statement]
      refine .require_bind ⟨context.statement inner, hfound, ?_⟩
      exact .bind (ih inner (by simp) hinner) fun query _ => bypassed_onlyRefuses query
    · rw [statement]
      · refine context.simpleStatement_onlyRefuses hnode hstatement ?_
        simpa [Tree.hasRule, Tree.rule?] using hrule
      · intro other parts heq
        cases heq
        exact hrule rfl

theorem batch_onlyRefuses {parts : List Tree} (h : ∀ part ∈ parts, part.WellFormed)
    (hparts : ∀ part ∈ parts, part.isLeaf ∨ part.isStatement) :
    (context.batch (.ofParts .batch parts)).OnlyRefuses := by
  refine .mapM ?_
  intro part hpart
  obtain ⟨hmem, hnode⟩ := List.mem_filter.mp hpart
  rcases hparts part hmem with hleaf | hstatement
  · simp [hleaf] at hnode
  · exact context.statement_onlyRefuses (h part hmem) hstatement

end Context

end SqlFront.Build
