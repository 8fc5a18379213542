import SqlFront.Proofs.KeyColumns

/-!
The keys of a new table, and the columns that their names mean.

A name in a key means the first column that matches it in any case. That is the column of this very
spelling, unless a column in front of it differs in case only.
-/

namespace SqlFront

/-- The kinds of keys of a table that mark the columns they list. -/
inductive KeyKind where
  | primaryKey
  | unique
  deriving DecidableEq

namespace KeyKind

/-- The production of the keys of this kind. -/
def rule : KeyKind → Rule
  | primaryKey => .tablePrimaryKey
  | unique => .tableUnique

/-- The production of the property that marks a column as these keys do. -/
def propertyRule : KeyKind → Rule
  | primaryKey => .primaryKeyConstraint
  | unique => .uniqueConstraint

/-- The kind as messages name it. -/
def text : KeyKind → String
  | primaryKey => "PRIMARY KEY"
  | unique => "UNIQUE"

/-- The column is marked. -/
def marks : KeyKind → ColumnDefinition → Bool
  | primaryKey, column => column.primaryKey
  | unique, column => column.unique

end KeyKind

/-- The elements of the table that a statement creates. -/
def Tree.tableElements? (statement : Tree) : Option Tree :=
  if statement.hasRule .createTableStatement then find? .tableElementList statement.children
  else none

/-- The columns of a new table are named by its definitions, every name in its keys means one of
them, and a column is marked exactly when its definition says so or a name in a key means it. -/
structure MarksKeys (elements : Tree) (table : CreateTableQuery) : Prop where
  declared : table.columns.map ColumnDefinition.name = elements.declaredNames
  meant : ∀ kind : KeyKind, ∀ name ∈ elements.keyNames kind.rule,
    (meantColumn? elements.declaredNames name).isSome
  marked : ∀ (kind : KeyKind) (place : Nat) (column : ColumnDefinition),
    table.columns[place]? = some column →
      ∃ definition, elements.definitions[place]? = some definition ∧
        (kind.marks column ↔ definition.children.any (Tree.hasRule kind.propertyRule) ∨
          elements.lists kind.rule place)
  notNull : ∀ (place : Nat) (column : ColumnDefinition), table.columns[place]? = some column →
    elements.lists .tablePrimaryKey place → column.nullable = false

section Spelled

variable {name : String} {column : ColumnDefinition} {before after : List ColumnDefinition}

/-- A name means the column of its spelling when no column in front of it matches in any case. -/
theorem meantColumn?_of_spelled (hname : column.name = name)
    (hbefore : ∀ earlier ∈ before, sameWord earlier.name name = false) :
    meantColumn? ((before ++ column :: after).map ColumnDefinition.name) name =
      some before.length := by
  induction before with
  | nil => simp [meantColumn?, List.findIdx?_cons, hname]
  | cons first before ih =>
    obtain ⟨hfirst, hothers⟩ := List.forall_mem_cons.mp hbefore
    have hrest := ih hothers
    rw [meantColumn?] at hrest ⊢
    rw [List.cons_append, List.map_cons, List.findIdx?_cons, hfirst, hrest]
    simp

/-- It is also the column that the name is looked up as. -/
theorem column?_of_spelled {table : CreateTableQuery}
    (hcolumns : table.columns = before ++ column :: after) (hname : column.name = name)
    (hbefore : ∀ earlier ∈ before, sameWord earlier.name name = false) :
    table.column? name = some column := by
  have hother : ∀ earlier ∈ before, (earlier.name == name) = false := by
    intro earlier hmem
    have hcase := hbefore earlier hmem
    rw [beq_eq_false_iff_ne]
    rintro rfl
    simp at hcase
  rw [CreateTableQuery.column?, hcolumns, List.find?_append, List.find?_eq_none.mpr]
  · simp [hname]
  · simpa using hother

/-- **A key marks the column that it spells**, and only that one for this name, when no column in
front of it matches the name in any case. -/
theorem MarksKeys.spelled {elements : Tree} {table : CreateTableQuery}
    (h : MarksKeys elements table) {kind : KeyKind} (hlisted : name ∈ elements.keyNames kind.rule)
    (hcolumns : table.columns = before ++ column :: after) (hname : column.name = name)
    (hbefore : ∀ earlier ∈ before, sameWord earlier.name name = false) :
    table.column? name = some column ∧
      meantColumn? elements.declaredNames name = some before.length ∧ kind.marks column ∧
      (kind = .primaryKey → column.nullable = false) := by
  have hmeant : meantColumn? elements.declaredNames name = some before.length := by
    rw [← h.declared, hcolumns]
    exact meantColumn?_of_spelled hname hbefore
  have hlists : elements.lists kind.rule before.length :=
    List.any_eq_true.mpr ⟨name, hlisted, by simp [hmeant]⟩
  have hplace : table.columns[before.length]? = some column := by simp [hcolumns]
  refine ⟨column?_of_spelled hcolumns hname hbefore, hmeant, ?_, ?_⟩
  · obtain ⟨definition, -, hmarked⟩ := h.marked kind _ column hplace
    exact hmarked.mpr (.inr hlists)
  · rintro rfl
    exact h.notNull _ column hplace hlists

end Spelled

namespace Build.Context

open SqlFront.Tree

variable (context : Context)

/-- The column at some place is built from the definition at that place. -/
theorem exists_writes {elements : Tree} {columns : List ColumnDefinition}
    (h : List.Forall₂ context.Writes elements.tableColumns columns) {place : Nat}
    {column : ColumnDefinition} (hcolumn : columns[place]? = some column) :
    ∃ definition, elements.definitions[place]? = some definition ∧
      context.Writes ⟨definition, elements.lists .tablePrimaryKey place,
        elements.lists .tableUnique place⟩ column := by
  rw [List.forall₂_iff_get] at h
  obtain ⟨hlength, h⟩ := h
  obtain ⟨hplace, rfl⟩ := List.getElem?_eq_some_iff.mp hcolumn
  have hdefinition : place < elements.definitions.length := by
    simpa [tableColumns, ← hlength] using hplace
  refine ⟨elements.definitions[place], List.getElem?_eq_getElem hdefinition, ?_⟩
  simpa [tableColumns] using h place (hlength ▸ hplace) hplace

theorem marksKeys_of_createTable {tree : Tree} {table : CreateTableQuery}
    (h : context.createTable tree = .ok table) :
    ∃ elements, find? .tableElementList tree.children = some elements ∧
      MarksKeys elements table := by
  obtain ⟨elements, columns, helements, hcolumns, hmeant, hmarked⟩ := context.createTable_eq_ok h
  have hwrites := context.writes_of_changeAt hcolumns
  rw [← hmarked] at hwrites
  refine ⟨elements, helements, ?_, ?_, ?_, ?_⟩
  · rw [hmarked, map_name_changeAt madeUnique (fun _ => rfl),
      map_name_changeAt inPrimaryKey (fun _ => rfl), context.declaredNames_eq hcolumns]
  · intro kind
    cases kind with
    | primaryKey => exact hmeant .tablePrimaryKey (by simp)
    | unique => exact hmeant .tableUnique (by simp)
  · intro kind place column hplace
    obtain ⟨definition, hdefinition, hwritten⟩ := context.exists_writes hwrites hplace
    obtain ⟨hprimary, hunique, -⟩ := hwritten.marks
    refine ⟨definition, hdefinition, ?_⟩
    cases kind with
    | primaryKey => exact hprimary
    | unique => exact hunique
  · intro place column hplace
    obtain ⟨definition, -, hwritten⟩ := context.exists_writes hwrites hplace
    exact hwritten.marks.2.2

/-- Where the elements of a table can be built, a name in a key that means no column is what the
statement fails for. -/
theorem createTable_of_unknown {tree elements : Tree} {kind : KeyKind} {name : String}
    {built : TableElements} (helements : find? .tableElementList tree.children = some elements)
    (hbuilt : elements.children.foldlM context.tableElement ⟨[], [], []⟩ = .ok built)
    (hlisted : name ∈ elements.keyNames kind.rule)
    (hnone : meantColumn? elements.declaredNames name = none) :
    ∃ other : KeyKind, ∃ unknown ∈ elements.keyNames other.rule,
      meantColumn? elements.declaredNames unknown = none ∧
      context.createTable tree = Built.reject (.unknownKeyColumn other.text unknown) := by
  obtain ⟨columns, hcolumns, hdefined, hkeys, huniques⟩ := context.tableElements_eq_ok hbuilt
  rw [List.nil_append] at hdefined hkeys huniques
  have hnames := context.declaredNames_eq hcolumns
  have hlist : tree.required .tableElementList = .ok elements := require_eq_ok.mpr helements
  by_cases hkey : ∃ unknown ∈ elements.keyNames .tablePrimaryKey,
      meantColumn? elements.declaredNames unknown = none
  · obtain ⟨first, hfirst, hmiss⟩ := hkey
    rw [← hnames] at hmiss
    obtain ⟨unknown, hunknown, hmiss, hfails⟩ :=
      changeColumns_eq_error inPrimaryKey (fun _ => rfl) hfirst hmiss
    refine ⟨.primaryKey, unknown, hunknown, hnames ▸ hmiss, ?_⟩
    refine bind_eq_error.mpr (.inr ⟨elements, hlist, bind_eq_error.mpr (.inr ⟨built, hbuilt, ?_⟩)⟩)
    rw [hdefined, hkeys]
    exact bind_eq_error.mpr (.inl hfails)
  · -- The primary keys are built, so the name stands in a key of the other kind.
    have hkeyed : ∃ keyed, changeColumns inPrimaryKey "PRIMARY KEY" built.primaryKey built.columns =
        .ok keyed ∧ keyed.map ColumnDefinition.name = elements.declaredNames := by
      rw [hdefined, hkeys]
      refine ⟨_, (changeColumns_eq_ok inPrimaryKey (fun _ => rfl) (fun _ => rfl)).mpr ⟨?_, rfl⟩, ?_⟩
      · intro known hmem
        rw [hnames, Option.isSome_iff_ne_none]
        exact fun hmiss => hkey ⟨known, hmem, hmiss⟩
      · rw [map_name_changeAt inPrimaryKey (fun _ => rfl), hnames]
    obtain ⟨keyed, hkeyed, hkept⟩ := hkeyed
    cases kind with
    | primaryKey => exact absurd ⟨name, hlisted, hnone⟩ hkey
    | unique =>
      rw [← hkept] at hnone
      obtain ⟨unknown, hunknown, hmiss, hfails⟩ :=
        changeColumns_eq_error madeUnique (fun _ => rfl) hlisted hnone
      refine ⟨.unique, unknown, hunknown, hkept ▸ hmiss, ?_⟩
      refine bind_eq_error.mpr (.inr ⟨elements, hlist, bind_eq_error.mpr (.inr
        ⟨built, hbuilt, bind_eq_error.mpr (.inr ⟨keyed, hkeyed, ?_⟩)⟩)⟩)
      rw [huniques]
      exact bind_eq_error.mpr (.inl hfails)

theorem createTable_of_tableElements? {statement elements : Tree} {query : Query}
    (helements : statement.tableElements? = some elements)
    (h : context.simpleStatement statement = .ok query) :
    ∃ table, query = .createTable table ∧ MarksKeys elements table := by
  obtain ⟨hrule, hfind⟩ : statement.hasRule .createTableStatement ∧
      find? .tableElementList statement.children = some elements := by
    simpa [tableElements?] using helements
  simp only [simpleStatement, hasRule_iff.mp hrule, map_eq_ok] at h
  obtain ⟨table, htable, rfl⟩ := h
  obtain ⟨same, hsame, hmarks⟩ := context.marksKeys_of_createTable htable
  rw [hfind, Option.some.injEq] at hsame
  exact ⟨table, rfl, hsame ▸ hmarks⟩

theorem tableElements?_of_createTable {statement : Tree} {table : CreateTableQuery}
    (h : context.simpleStatement statement = .ok (.createTable table)) :
    ∃ elements, statement.tableElements? = some elements := by
  unfold simpleStatement at h
  split at h
  case h_5 hrule =>
    obtain ⟨built, hbuilt, -⟩ := map_eq_ok.mp h
    obtain ⟨elements, helements, -⟩ := context.marksKeys_of_createTable hbuilt
    exact ⟨elements, by simp [tableElements?, hasRule, hrule, helements]⟩
  all_goals first
    | exact absurd h reject_ne_ok
    | cases h
    | obtain ⟨_, -, heq⟩ := map_eq_ok.mp h
      cases heq

end Build.Context

namespace Config

open SqlFront.Tree Build

variable {config : Config} {source : Source} {tree : Tree}

/-- A name in the key of a new table that means no column keeps the batch from being built. The
statement fails for such a name unless the elements of its table fail before it, and so does the
batch unless a statement in front of it fails. -/
theorem parseBatch_of_unknown (htree : config.parseTree source = .ok tree)
    {before after : List Tree} {child elements : Tree} {kind : KeyKind} {name : String}
    (hparts : (tree.children.filter fun child => !child.isLeaf) = before ++ child :: after)
    (helements : child.core.tableElements? = some elements)
    (hlisted : name ∈ elements.keyNames kind.rule)
    (hnone : meantColumn? elements.declaredNames name = none) :
    (∀ queries, config.parseBatch source ≠ .ok queries) ∧
      ∀ built, elements.children.foldlM (Context.tableElement { config, source }) ⟨[], [], []⟩ =
          .ok built →
        ∃ other : KeyKind, ∃ unknown ∈ elements.keyNames other.rule,
          meantColumn? elements.declaredNames unknown = none ∧
          Context.statement { config, source } child =
            .error (.semantic (.unknownKeyColumn other.text unknown)) ∧
          ((∀ earlier ∈ before, ∃ query, Context.statement { config, source } earlier = .ok query) →
            config.parseBatch source =
              .error (.plain (.semantic (.unknownKeyColumn other.text unknown)))) := by
  constructor
  · intro queries h
    obtain ⟨same, hsame, hbatch⟩ := bind_eq_ok.mp h
    obtain rfl : tree = same := by rwa [htree, Except.ok.injEq] at hsame
    have hstatements := Context.forall₂_statements _ (mapError_eq_ok.mp hbatch)
    have hmem : child.core ∈ tree.statements := by simp [statements, hparts]
    obtain ⟨query, -, hquery⟩ := exists_of_mem_right hstatements.flip hmem
    obtain ⟨table, -, hmarks⟩ := Context.createTable_of_tableElements? _ helements hquery
    have hmeant := hmarks.meant kind name hlisted
    rw [hnone] at hmeant
    cases hmeant
  · intro built hbuilt
    obtain ⟨hrule, hfind⟩ : child.core.hasRule .createTableStatement ∧
        find? .tableElementList child.core.children = some elements := by
      simpa [tableElements?] using helements
    obtain ⟨other, unknown, hunknown, hmiss, hfails⟩ :=
      Context.createTable_of_unknown _ hfind hbuilt hlisted hnone
    have hsimple : Context.simpleStatement { config, source } child.core =
        .error (.semantic (.unknownKeyColumn other.text unknown)) := by
      rw [Context.simpleStatement, hasRule_iff.mp hrule]
      dsimp only
      rw [hfails]
      rfl
    have hstatement := Context.statement_eq_error _ child hsimple
    refine ⟨other, unknown, hunknown, hmiss, hstatement, fun hbefore => ?_⟩
    refine bind_eq_error.mpr (.inr ⟨tree, htree, mapError_eq_error.mpr ⟨_, ?_, rfl⟩⟩)
    exact Context.batch_eq_error _ hparts hbefore hstatement

/-- **Keys of new tables mark the columns that their names mean.** In an accepted batch, every name
in a key of a new table means a column, the first one that matches it in any case, and a column is
marked exactly when its definition says so or a name means it. So a name marks the column of its
spelling, which is also the one that it is looked up as, unless a column in front of that one
differs in case only. A batch in which a name means no column is not accepted, and where that is the
first thing wrong with it, it fails for such a name. -/
theorem parseBatch_tableKeys (htree : config.parseTree source = .ok tree) :
    (∀ queries, config.parseBatch source = .ok queries →
      List.Forall₂ (fun statement query => ∀ table, query.core = .createTable table →
        ∃ elements, statement.tableElements? = some elements ∧ MarksKeys elements table ∧
          ∀ kind : KeyKind, ∀ name ∈ elements.keyNames kind.rule, ∀ before column after,
            table.columns = before ++ column :: after → column.name = name →
            (∀ earlier ∈ before, sameWord earlier.name name = false) →
            table.column? name = some column ∧
              meantColumn? elements.declaredNames name = some before.length ∧ kind.marks column ∧
              (kind = .primaryKey → column.nullable = false))
      tree.statements queries) ∧
    ∀ before child after elements,
      (tree.children.filter fun child => !child.isLeaf) = before ++ child :: after →
      child.core.tableElements? = some elements →
      ∀ kind : KeyKind, ∀ name ∈ elements.keyNames kind.rule,
        meantColumn? elements.declaredNames name = none →
        (∀ queries, config.parseBatch source ≠ .ok queries) ∧
          ∀ built, elements.children.foldlM (Context.tableElement { config, source }) ⟨[], [], []⟩ =
              .ok built →
            ∃ other : KeyKind, ∃ unknown ∈ elements.keyNames other.rule,
              meantColumn? elements.declaredNames unknown = none ∧
              Context.statement { config, source } child =
                .error (.semantic (.unknownKeyColumn other.text unknown)) ∧
              ((∀ earlier ∈ before,
                  ∃ query, Context.statement { config, source } earlier = .ok query) →
                config.parseBatch source =
                  .error (.plain (.semantic (.unknownKeyColumn other.text unknown)))) := by
  constructor
  · intro queries h
    obtain ⟨same, hsame, hbatch⟩ := bind_eq_ok.mp h
    obtain rfl : tree = same := by rwa [htree, Except.ok.injEq] at hsame
    refine (Context.forall₂_statements _ (mapError_eq_ok.mp hbatch)).imp ?_
    intro statement query hstatement table htable
    rw [htable] at hstatement
    obtain ⟨elements, helements⟩ := Context.tableElements?_of_createTable _ hstatement
    obtain ⟨same, hsame, hmarks⟩ := Context.createTable_of_tableElements? _ helements hstatement
    cases hsame
    refine ⟨elements, helements, hmarks, ?_⟩
    intro kind name hlisted before column after hcolumns hname hbefore
    exact hmarks.spelled hlisted hcolumns hname hbefore
  · intro before child after elements hparts helements kind name hlisted hnone
    exact parseBatch_of_unknown htree hparts helements hlisted hnone

/-- The keys of one table mark the column `B`, which `b` means, and the column `a`. A table without
a column `b` is refused for its key. -/
theorem parseBatch_tableKeys_of_small :
    let config := ofDialect .mysql
    let source := ['C', 'R', 'E', 'A', 'T', 'E', ' ', 'T', 'A', 'B', 'L', 'E', ' ', 't', ' ', '(',
      'a', ' ', 'I', 'N', 'T', ',', ' ', 'B', ' ', 'I', 'N', 'T', ',', ' ', 'P', 'R', 'I', 'M',
      'A', 'R', 'Y', ' ', 'K', 'E', 'Y', ' ', '(', 'b', ')', ',', ' ', 'U', 'N', 'I', 'Q', 'U',
      'E', ' ', '(', 'a', ')', ')']
    let unknown := ['C', 'R', 'E', 'A', 'T', 'E', ' ', 'T', 'A', 'B', 'L', 'E', ' ', 't', ' ', '(',
      'a', ' ', 'I', 'N', 'T', ',', ' ', 'U', 'N', 'I', 'Q', 'U', 'E', ' ', '(', 'b', ')', ')']
    (∃ tree queries, config.parseTree source = .ok tree ∧ config.parseBatch source = .ok queries ∧
      (queries.flatMap Query.columnDefinitions).map
        (fun column => (column.name, column.primaryKey, column.unique)) =
          [("a", false, true), ("B", true, false)] ∧
      List.Forall₂ (fun statement query => ∀ table, query.core = .createTable table →
        ∃ elements, statement.tableElements? = some elements ∧ MarksKeys elements table)
      tree.statements queries) ∧
    ∃ kind : KeyKind, ∃ name, config.parseBatch unknown =
      .error (.plain (.semantic (.unknownKeyColumn kind.text name))) := by
  intro config source unknown
  constructor
  · have marks : ∀ tree queries, config.parseTree source = .ok tree →
        config.parseBatch source = .ok queries →
        List.Forall₂ (fun statement query => ∀ table, query.core = .createTable table →
          ∃ elements, statement.tableElements? = some elements ∧ MarksKeys elements table)
        tree.statements queries := by
      intro tree queries htree h
      refine ((parseBatch_tableKeys htree).1 queries h).imp fun statement query hkeys table => ?_
      exact fun htable => (hkeys table htable).imp fun elements ⟨hfound, hmarks, _⟩ =>
        ⟨hfound, hmarks⟩
    dsimp only [config, source] at marks ⊢
    exact ⟨_, _, rfl, rfl, rfl, marks _ _ rfl rfl⟩
  · have refused {config : Config} {source : Source} {tree child elements : Tree}
        {name : String} {built : Build.TableElements}
        (htree : config.parseTree source = .ok tree)
        (hparts : (tree.children.filter fun child => !child.isLeaf) = [child])
        (helements : child.core.tableElements? = some elements)
        (hnames : elements.keyNames .tableUnique = [name])
        (hnone : meantColumn? elements.declaredNames name = none)
        (hbuilt : elements.children.foldlM (Context.tableElement { config, source }) ⟨[], [], []⟩ =
          .ok built) :
        ∃ kind : KeyKind, ∃ name, config.parseBatch source =
          .error (.plain (.semantic (.unknownKeyColumn kind.text name))) := by
      have unmatched := (parseBatch_tableKeys htree).2 [] child [] elements hparts helements .unique
        name (by simp [KeyKind.rule, hnames]) hnone
      obtain ⟨kind, missing, -, -, -, fails⟩ := unmatched.2 built hbuilt
      exact ⟨kind, missing, fails (by simp)⟩
    dsimp only [config, unknown]
    exact refused rfl rfl rfl rfl rfl rfl

/-- A name in a key does not always mean the only column of its spelling: in a table with the
columns `"Id"` and `id`, the key `id` is the column `"Id"`. -/
theorem parseBatch_marks_other_case :
    let config := ofDialect .postgres
    let source := ['C', 'R', 'E', 'A', 'T', 'E', ' ', 'T', 'A', 'B', 'L', 'E', ' ', 't', ' ', '(',
      '"', 'I', 'd', '"', ' ', 'I', 'N', 'T', ',', ' ', 'i', 'd', ' ', 'I', 'N', 'T', ',', ' ',
      'P', 'R', 'I', 'M', 'A', 'R', 'Y', ' ', 'K', 'E', 'Y', ' ', '(', 'i', 'd', ')', ')']
    ¬ ∀ tree queries, config.parseTree source = .ok tree → config.parseBatch source = .ok queries →
      List.Forall₂ (fun statement query => ∀ elements table,
        statement.tableElements? = some elements → query.core = .createTable table →
        ∀ name ∈ elements.keyNames .tablePrimaryKey, ∀ column,
          (table.columns.filter fun column => column.name == name) = [column] → column.primaryKey)
      tree.statements queries := by
  intro config source marks
  have unmarked : ∃ tree statement elements query table column,
      config.parseTree source = .ok tree ∧ tree.statements = [statement] ∧
      statement.tableElements? = some elements ∧ elements.keyNames .tablePrimaryKey = ["id"] ∧
      config.parseBatch source = .ok [query] ∧ query.core = .createTable table ∧
      (table.columns.filter fun column => column.name == "id") = [column] ∧
      column.primaryKey = false := by
    dsimp only [config, source]
    exact ⟨_, _, _, _, _, _, rfl, rfl, rfl, rfl, rfl, rfl, rfl, rfl⟩
  obtain ⟨tree, statement, elements, query, table, column, htree, hstatement, helements, hnames,
    parsed, created, only, unkeyed⟩ := unmarked
  have marked := marks tree [query] htree parsed
  rw [hstatement] at marked
  have key := (List.forall₂_cons.mp marked).1 elements table helements created "id"
    (by simp [hnames]) column only
  rw [unkeyed] at key
  cases key

end Config

end SqlFront
