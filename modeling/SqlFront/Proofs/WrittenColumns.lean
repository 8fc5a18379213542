import SqlFront.Proofs.StatementCores

/-!
The columns that a statement stores, and how each of them is written: the definition that it was
built from, and the keys of the table that it is listed in.

A key of a table lists names. Each name means the first column that matches it in any case, and it
changes that column only.
-/

namespace SqlFront

/-! ### Names of columns in the text -/

/-- The place of the column that a name in a key means: the first one of this name, in any case. -/
def meantColumn? (columns : List String) (name : String) : Option Nat :=
  columns.findIdx? fun column => sameWord column name

namespace Tree

/-- The column that an item of a list names. -/
def itemName? (item : Tree) : Option String :=
  match item.rule? with
  | some .columnName => (names item.children).getLast?
  | some .indexColumn => do
      let name ← find? .columnName item.children
      (names name.children).getLast?
  | _ => none

/-- The columns that a key of a table lists. -/
def listedNames (key : Tree) : List String :=
  match find? .columnList key.children with
  | some list => list.children.filterMap itemName?
  | none => []

/-- The columns that the keys of this kind list, key by key. -/
def keyNames (rule : Rule) (elements : Tree) : List String :=
  (elements.children.filter (hasRule rule)).flatMap listedNames

/-- The definitions of the columns of a new table. -/
def definitions (elements : Tree) : List Tree :=
  elements.children.filter (hasRule .columnDefinition)

/-- The column that a definition names. -/
def declaredName? (definition : Tree) : Option String :=
  (names definition.children).head?

/-- The arguments of the type in a definition. -/
def typeArguments? (definition : Tree) : Option Tree := do
  let typeTree ← find? .dataType definition.children
  find? .typeArguments typeTree.children

/-- The names of the columns of a new table. -/
def declaredNames (elements : Tree) : List String :=
  elements.definitions.filterMap declaredName?

/-- A key of this kind lists the column at this place. -/
def lists (rule : Rule) (elements : Tree) (place : Nat) : Bool :=
  (elements.keyNames rule).any fun name => meantColumn? elements.declaredNames name == some place

end Tree

/-- A column as a statement writes it. -/
structure WrittenColumn where
  definition : Tree
  /-- A primary key of the table lists the column. -/
  inTableKey : Bool
  /-- A key of the table that has no value twice lists the column. -/
  inTableUnique : Bool

/-- What the keys of the table make of the column that the definition builds. -/
def WrittenColumn.mark (written : WrittenColumn) (column : ColumnDefinition) : ColumnDefinition :=
  let column := if written.inTableKey then Build.inPrimaryKey column else column
  if written.inTableUnique then Build.madeUnique column else column

namespace WrittenColumn

variable (written : WrittenColumn) (column : ColumnDefinition)

@[simp]
theorem name_mark : (written.mark column).name = column.name := by
  unfold mark
  cases written.inTableKey <;> cases written.inTableUnique <;> rfl

@[simp]
theorem primaryKey_mark :
    (written.mark column).primaryKey = (column.primaryKey || written.inTableKey) := by
  unfold mark
  cases written.inTableKey <;> cases written.inTableUnique <;>
    simp [Build.inPrimaryKey, Build.madeUnique]

@[simp]
theorem nullable_mark :
    (written.mark column).nullable = (column.nullable && !written.inTableKey) := by
  unfold mark
  cases written.inTableKey <;> cases written.inTableUnique <;>
    simp [Build.inPrimaryKey, Build.madeUnique]

@[simp]
theorem unique_mark :
    (written.mark column).unique = (column.unique || written.inTableUnique) := by
  unfold mark
  cases written.inTableKey <;> cases written.inTableUnique <;>
    simp [Build.inPrimaryKey, Build.madeUnique]

end WrittenColumn

namespace Tree

/-- The columns of a new table as they are written. -/
def tableColumns (elements : Tree) : List WrittenColumn :=
  elements.definitions.mapIdx fun place definition =>
    ⟨definition, elements.lists .tablePrimaryKey place, elements.lists .tableUnique place⟩

/-- The columns of a statement as they are written. -/
def writtenColumns (statement : Tree) : List WrittenColumn :=
  match statement.rule? with
  | some .createTableStatement =>
      ((find? .tableElementList statement.children).map tableColumns).getD []
  | some .alterTableStatement =>
      let definition? := do
        let action ← find? .alterAction statement.children
        find? .columnDefinition action.children
      definition?.toList.map fun definition => ⟨definition, false, false⟩
  | _ => []

end Tree

/-- The columns that a statement stores. -/
def Query.columnDefinitions : Query → List ColumnDefinition
  | createTable query => query.columns
  | alterTable query => [query.column]
  | bypass query => columnDefinitions query
  | _ => []

theorem Query.columnDefinitions_core (query : Query) :
    query.core.columnDefinitions = query.columnDefinitions := by
  induction query with
  | bypass query ih => exact ih
  | _ => rfl

namespace Build

/-! ### Columns that a key changes -/

section Changes

variable {change : ColumnDefinition → ColumnDefinition} {constraint : String}

/-- A name changes the column that it means. -/
theorem changeColumn_eq (name : String) (columns : List ColumnDefinition) :
    changeColumn change constraint name columns =
      match meantColumn? (columns.map ColumnDefinition.name) name with
      | some place => .ok (columns.modify place change)
      | none => Built.reject (.unknownKeyColumn constraint name) := by
  induction columns with
  | nil => rfl
  | cons column columns ih =>
    rw [changeColumn, ih]
    simp only [meantColumn?, List.map_cons, List.findIdx?_cons]
    split
    · rfl
    · cases List.findIdx? (fun column => sameWord column name)
        (columns.map ColumnDefinition.name) with
      | none => rfl
      | some place => rfl

/-- The columns at these places are changed. -/
def changeAt (change : ColumnDefinition → ColumnDefinition) (changed : Nat → Bool)
    (columns : List ColumnDefinition) : List ColumnDefinition :=
  columns.mapIdx fun place column => if changed place then change column else column

theorem modify_eq_changeAt (place : Nat) (columns : List ColumnDefinition) :
    columns.modify place change = changeAt change (fun i => some place == some i) columns := by
  refine List.ext_getElem? fun i => ?_
  simp only [changeAt, List.getElem?_mapIdx, List.getElem?_modify]
  cases columns[i]? with
  | none => rfl
  | some column => by_cases h : place = i <;> simp [h]

@[simp]
theorem changeAt_false (columns : List ColumnDefinition) :
    changeAt change (fun _ => false) columns = columns := by
  refine List.ext_getElem? fun i => ?_
  cases h : columns[i]? <;> simp [changeAt, h]

variable (change) (hname : ∀ column, (change column).name = column.name)
  (hagain : ∀ column, change (change column) = change column)

include hname in
@[simp]
theorem map_name_changeAt (changed : Nat → Bool) (columns : List ColumnDefinition) :
    (changeAt change changed columns).map ColumnDefinition.name =
      columns.map ColumnDefinition.name := by
  refine List.ext_getElem? fun i => ?_
  simp only [changeAt, List.getElem?_map, List.getElem?_mapIdx]
  cases columns[i]? with
  | none => rfl
  | some column => by_cases h : changed i <;> simp [h, hname]

include hagain in
theorem changeAt_changeAt (first second : Nat → Bool) (columns : List ColumnDefinition) :
    changeAt change second (changeAt change first columns) =
      changeAt change (fun i => first i || second i) columns := by
  refine List.ext_getElem? fun i => ?_
  simp only [changeAt, List.getElem?_mapIdx]
  cases columns[i]? with
  | none => rfl
  | some column =>
    by_cases hfirst : first i <;> by_cases hsecond : second i <;> simp [hfirst, hsecond, hagain]

include hname hagain in
/-- **The names of a key change the columns that they mean**, all of them at once, and each of them
has to mean one. -/
theorem changeColumns_eq_ok {names : List String} {columns changed : List ColumnDefinition} :
    changeColumns change constraint names columns = .ok changed ↔
      (∀ name ∈ names, (meantColumn? (columns.map ColumnDefinition.name) name).isSome) ∧
        changeAt change (fun place => names.any fun name =>
          meantColumn? (columns.map ColumnDefinition.name) name == some place) columns =
          changed := by
  rw [changeColumns]
  induction names generalizing columns with
  | nil => simp
  | cons name names ih =>
    rw [List.foldlM_cons, bind_eq_ok, changeColumn_eq]
    cases hmeant : meantColumn? (columns.map ColumnDefinition.name) name with
    | none => simp [hmeant]
    | some place =>
      simp only [Except.ok.injEq, exists_eq_left', ih, modify_eq_changeAt,
        map_name_changeAt change hname, changeAt_changeAt change hagain, List.forall_mem_cons,
        hmeant, Option.isSome_some, true_and, List.any_cons]

include hname in
/-- A key fails for the first of its names that means no column. -/
theorem changeColumns_eq_error {names : List String} {columns : List ColumnDefinition}
    {name : String} (hmem : name ∈ names)
    (hnone : meantColumn? (columns.map ColumnDefinition.name) name = none) :
    ∃ unknown ∈ names, meantColumn? (columns.map ColumnDefinition.name) unknown = none ∧
      changeColumns change constraint names columns =
        Built.reject (.unknownKeyColumn constraint unknown) := by
  rw [changeColumns]
  induction names generalizing columns with
  | nil => cases hmem
  | cons first names ih =>
    rw [List.foldlM_cons, changeColumn_eq]
    cases hmeant : meantColumn? (columns.map ColumnDefinition.name) first with
    | none => exact ⟨first, by simp, hmeant, rfl⟩
    | some place =>
      have hrest : name ∈ names := by
        rcases List.mem_cons.mp hmem with rfl | hrest
        · rw [hnone] at hmeant
          cases hmeant
        · exact hrest
      have hkept : (columns.modify place change).map ColumnDefinition.name =
          columns.map ColumnDefinition.name := by
        rw [modify_eq_changeAt, map_name_changeAt change hname]
      obtain ⟨unknown, hunknown, hmiss, hfails⟩ := ih hrest (hkept ▸ hnone)
      rw [hkept] at hmiss
      exact ⟨unknown, by simp [hunknown], hmiss, hfails⟩

end Changes

namespace Context

open SqlFront.Tree

variable (context : Context)

/-! ### Definitions of columns -/

/-- Two columns of the same name and type, with the same arguments of the type. -/
structure SameType (column next : ColumnDefinition) : Prop where
  name : next.name = column.name
  dataType : next.dataType = column.dataType
  length : next.length = column.length
  scale : next.scale = column.scale
  members : next.members = column.members

theorem SameType.refl (column : ColumnDefinition) : SameType column column :=
  ⟨rfl, rfl, rfl, rfl, rfl⟩

theorem SameType.trans {column next last : ColumnDefinition} (h : SameType column next)
    (hnext : SameType next last) : SameType column last :=
  ⟨hnext.name.trans h.name, hnext.dataType.trans h.dataType, hnext.length.trans h.length,
    hnext.scale.trans h.scale, hnext.members.trans h.members⟩

/-- A property leaves the type of a column as it is. -/
theorem sameType_of_columnProperty {tree : Tree} {column next : ColumnDefinition}
    (h : context.columnProperty column tree = .ok next) : SameType column next := by
  unfold columnProperty at h
  split at h
  case h_6 =>
    simp only [bind_eq_ok, pure_eq_ok] at h
    obtain ⟨e, -, rfl⟩ := h
    exact ⟨rfl, rfl, rfl, rfl, rfl⟩
  case h_7 =>
    split at h
    · simp only [bind_eq_ok, pure_eq_ok] at h
      obtain ⟨flags, -, rfl⟩ := h
      exact ⟨rfl, rfl, rfl, rfl, rfl⟩
    · cases h
      exact ⟨rfl, rfl, rfl, rfl, rfl⟩
  all_goals
    cases h
    exact ⟨rfl, rfl, rfl, rfl, rfl⟩

theorem sameType_of_columnProperties {properties : List Tree} {column next : ColumnDefinition}
    (h : properties.foldlM context.columnProperty column = .ok next) : SameType column next :=
  keep_of_foldlM_eq_ok (motive := SameType column)
    (fun _ _ _ _ hstep hkept => hkept.trans (context.sameType_of_columnProperty hstep)) h
    (.refl column)

/-- Two columns with the same name, type and properties; the arguments of the type may differ. -/
structure SameProperties (column next : ColumnDefinition) : Prop where
  name : next.name = column.name
  dataType : next.dataType = column.dataType
  nullable : next.nullable = column.nullable
  primaryKey : next.primaryKey = column.primaryKey
  unique : next.unique = column.unique

theorem setLength_eq_ok {column next : ColumnDefinition} {length : Int}
    (h : column.setLength length = .ok next) :
    next = { column with length := some length } ∧
      (column.dataType.lengthClass = .variable ∧ (0 ≤ length ∨ length = maxLength) ∨
        column.dataType.lengthClass = .precision ∧ 0 ≤ length) := by
  unfold ColumnDefinition.setLength at h
  split at h
  · cases h
  · cases h
  · rename_i hfixed hmembers
    split at h
    · cases h
    · rename_i hprecision
      split at h
      · cases h
      · rename_i hnegative
        cases h
        refine ⟨rfl, ?_⟩
        have hlength : 0 ≤ length ∨ length = maxLength := by
          by_cases hmax : length = maxLength
          · exact .inr hmax
          · exact .inl (Int.not_lt.mp fun hlt => hnegative ⟨hlt, hmax⟩)
        rcases hclass : column.dataType.lengthClass
        · exact absurd hclass hfixed
        · exact .inl ⟨rfl, hlength⟩
        · exact .inr ⟨rfl, hlength.resolve_right fun hmax => hprecision ⟨hclass, hmax⟩⟩
        · exact absurd hclass hmembers

/-- The arguments of a type leave the name, the type and the properties of a column as they are. -/
theorem sameProperties_of_typeArguments {list : Tree} {column next : ColumnDefinition}
    (h : context.typeArguments column list = .ok next) : SameProperties column next := by
  unfold typeArguments at h
  dsimp only at h
  split at h
  · simp only [bind_eq_ok, pure_eq_ok] at h
    obtain ⟨members, -, rfl⟩ := h
    exact ⟨rfl, rfl, rfl, rfl, rfl⟩
  · obtain ⟨length, -, h⟩ := bind_eq_ok.mp h
    obtain ⟨rfl, -⟩ := setLength_eq_ok (mapError_eq_ok.mp h)
    exact ⟨rfl, rfl, rfl, rfl, rfl⟩
  · simp only [bind_eq_ok, pure_eq_ok] at h
    obtain ⟨length, -, precise, hprecise, scale, -, rfl⟩ := h
    obtain ⟨rfl, -⟩ := setLength_eq_ok (mapError_eq_ok.mp hprecise)
    exact ⟨rfl, rfl, rfl, rfl, rfl⟩
  · obtain ⟨rfl, -⟩ := setLength_eq_ok (mapError_eq_ok.mp h)
    exact ⟨rfl, rfl, rfl, rfl, rfl⟩
  · exact absurd h reject_ne_ok

/-- A column of which only the name and the type are built. -/
def bareColumn (name : String) (spelled : TypeName) : ColumnDefinition :=
  { ColumnDefinition.ofType name spelled.dataType with autoIncrement := spelled.counting }

/-- A column is built from its name and its type, then the arguments of the type, where there are
any, and then its properties. -/
theorem columnDefinition_eq_ok {definition : Tree} {column : ColumnDefinition}
    (h : context.columnDefinition definition = .ok column) :
    ∃ name spelled typed, definition.declaredName? = some name ∧
      (definition.typeArguments? = none ∧ typed = bareColumn name spelled ∨
        ∃ list, definition.typeArguments? = some list ∧
          context.typeArguments (bareColumn name spelled) list = .ok typed) ∧
      definition.children.foldlM context.columnProperty typed = .ok column := by
  simp only [columnDefinition, bind_eq_ok, require_eq_ok] at h
  obtain ⟨name, hname, typeTree, htype, h⟩ := h
  have htype := require_eq_ok.mp htype
  split at h
  · exact absurd h refuse_ne_ok
  · rename_i spelled hspelled
    split at h
    · rename_i list hlist
      obtain ⟨typed, htyped, h⟩ := bind_eq_ok.mp h
      refine ⟨name, spelled, typed, hname, .inr ⟨list, ?_, htyped⟩, h⟩
      simp [typeArguments?, htype, hlist]
    · rename_i hlist
      obtain ⟨_, ⟨⟩, h⟩ := bind_eq_ok.mp h
      refine ⟨name, spelled, _, hname, .inl ⟨?_, rfl⟩, h⟩
      simp [typeArguments?, htype, hlist]

theorem declaredName?_of_columnDefinition {definition : Tree} {column : ColumnDefinition}
    (h : context.columnDefinition definition = .ok column) :
    definition.declaredName? = some column.name := by
  obtain ⟨name, spelled, typed, hname, htyped, hproperties⟩ := context.columnDefinition_eq_ok h
  rw [hname, (context.sameType_of_columnProperties hproperties).name]
  rcases htyped with ⟨-, rfl⟩ | ⟨list, -, htyped⟩
  · rfl
  · rw [(context.sameProperties_of_typeArguments htyped).name]
    rfl

/-! ### New tables -/

/-- A column in a list is called by the last of its names. -/
theorem name_of_column {tree : Tree} {column : ColumnRef} (h : context.column tree = .ok column) :
    (names tree.children).getLast? = some column.name := by
  simp only [Context.column, ColumnRef.ofTree, bind_eq_ok] at h
  obtain ⟨name, hname, h⟩ := h
  rw [require_eq_ok.mp hname]
  split at h
  · cases h
    rfl
  · simp only [bind_eq_ok, pure_eq_ok] at h
    obtain ⟨table, -, rfl⟩ := h
    rfl

theorem itemNames_of_indexColumns {trees : List Tree} {columns : List IndexColumn}
    (h : context.indexColumns trees = .ok columns) :
    trees.filterMap itemName? = columns.map fun item => item.column.name := by
  induction trees generalizing columns with
  | nil =>
    cases h
    rfl
  | cons tree trees ih =>
    rw [indexColumns] at h
    split at h
    · rename_i hrule
      simp only [bind_eq_ok, pure_eq_ok] at h
      obtain ⟨column, hcolumn, more, hmore, rfl⟩ := h
      simp [itemName?, hrule, context.name_of_column hcolumn, ih hmore]
    · rename_i hrule
      simp only [bind_eq_ok, pure_eq_ok] at h
      obtain ⟨name, hname, column, hcolumn, more, hmore, rfl⟩ := h
      simp [itemName?, hrule, require_eq_ok.mp hname, context.name_of_column hcolumn, ih hmore]
    · rename_i hname hitem
      have hother : itemName? tree = none := by
        unfold itemName?
        split
        · exact absurd ‹_› hname
        · exact absurd ‹_› hitem
        · rfl
      rw [List.filterMap_cons_none hother]
      exact ih h

theorem listedNames_of_keyColumns {key : Tree} {names : List String}
    (h : context.keyColumns key = .ok names) : key.listedNames = names := by
  simp only [keyColumns, columnList, bind_eq_ok, pure_eq_ok] at h
  obtain ⟨list, hlist, _, ⟨columns, hcolumns, rfl⟩, rfl⟩ := h
  rw [listedNames, require_eq_ok.mp hlist, List.map_map]
  exact context.itemNames_of_indexColumns hcolumns

/-- The elements of a table: what its definitions build, and what its keys list. -/
theorem tableElements_eq_ok {trees : List Tree} {start elements : TableElements}
    (h : trees.foldlM context.tableElement start = .ok elements) :
    ∃ columns,
      List.Forall₂ (fun definition column => context.columnDefinition definition = .ok column)
        (trees.filter (hasRule .columnDefinition)) columns ∧
      elements.columns = start.columns ++ columns ∧
      elements.primaryKey =
        start.primaryKey ++ (trees.filter (hasRule .tablePrimaryKey)).flatMap listedNames ∧
      elements.unique =
        start.unique ++ (trees.filter (hasRule .tableUnique)).flatMap listedNames := by
  induction trees generalizing start with
  | nil =>
    obtain rfl : start = elements := by simpa using h
    exact ⟨[], .nil, by simp⟩
  | cons tree trees ih =>
    rw [List.foldlM_cons, bind_eq_ok] at h
    obtain ⟨next, hnext, h⟩ := h
    obtain ⟨columns, hcolumns, hdefined, hkeyed, hunique⟩ := ih h
    unfold tableElement at hnext
    split at hnext
    · rename_i hrule
      simp only [bind_eq_ok, pure_eq_ok] at hnext
      obtain ⟨column, hcolumn, rfl⟩ := hnext
      refine ⟨column :: columns, ?_, ?_⟩
      · simpa [hasRule, hrule] using ⟨hcolumn, hcolumns⟩
      · simp [hasRule, hrule, hdefined, hkeyed, hunique]
    · rename_i hrule
      simp only [bind_eq_ok, pure_eq_ok] at hnext
      obtain ⟨names, hnames, rfl⟩ := hnext
      refine ⟨columns, by simpa [hasRule, hrule] using hcolumns, ?_⟩
      simp [hasRule, hrule, hdefined, hkeyed, hunique, context.listedNames_of_keyColumns hnames]
    · rename_i hrule
      obtain ⟨names, hnames, hnext⟩ := bind_eq_ok.mp hnext
      split at hnext
      · exact absurd hnext refuse_ne_ok
      · cases hnext
        refine ⟨columns, by simpa [hasRule, hrule] using hcolumns, ?_⟩
        simp [hasRule, hrule, hdefined, hkeyed, hunique, context.listedNames_of_keyColumns hnames]
    · rename_i hcolumn hkey hdistinct
      have other {rule : Rule} (h : tree.rule? ≠ some rule) : tree.hasRule rule = false := by
        simpa [hasRule] using h
      cases hnext
      refine ⟨columns, by simpa [other hcolumn] using hcolumns, ?_⟩
      simp [other hkey, other hdistinct, hdefined, hkeyed, hunique]

/-- The definitions in a table give its columns their names. -/
theorem declaredNames_eq {elements : Tree} {columns : List ColumnDefinition}
    (h : List.Forall₂ (fun definition column => context.columnDefinition definition = .ok column)
      elements.definitions columns) :
    columns.map ColumnDefinition.name = elements.declaredNames := by
  rw [declaredNames]
  generalize elements.definitions = definitions at h
  induction h with
  | nil => rfl
  | cons first _ ih =>
    have hfirst := context.declaredName?_of_columnDefinition first
    rw [List.map_cons, ih, List.filterMap_cons_some hfirst]

/-- **A new table has the columns that its definitions build**, and its keys change those that
their names mean. Every name in a key means a column. -/
theorem createTable_eq_ok {tree : Tree} {query : CreateTableQuery}
    (h : context.createTable tree = .ok query) :
    ∃ elements columns, find? .tableElementList tree.children = some elements ∧
      List.Forall₂ (fun definition column => context.columnDefinition definition = .ok column)
        elements.definitions columns ∧
      (∀ rule ∈ [Rule.tablePrimaryKey, .tableUnique], ∀ name ∈ elements.keyNames rule,
        (meantColumn? elements.declaredNames name).isSome) ∧
      query.columns = changeAt madeUnique (elements.lists .tableUnique)
        (changeAt inPrimaryKey (elements.lists .tablePrimaryKey) columns) := by
  simp only [createTable, bind_eq_ok, pure_eq_ok] at h
  obtain ⟨list, hlist, elements, helements, keyed, hkeyed, marked, hmarked, table, -, rfl⟩ := h
  obtain ⟨columns, hcolumns, hdefined, hkeys, huniques⟩ := context.tableElements_eq_ok helements
  have hnames := context.declaredNames_eq hcolumns
  rw [List.nil_append] at hdefined hkeys huniques
  rw [hdefined, hkeys] at hkeyed
  rw [changeColumns_eq_ok inPrimaryKey (fun _ => rfl) (fun _ => rfl)] at hkeyed
  obtain ⟨hkeyNames, rfl⟩ := hkeyed
  rw [huniques] at hmarked
  rw [changeColumns_eq_ok madeUnique (fun _ => rfl) (fun _ => rfl)] at hmarked
  obtain ⟨huniqueNames, rfl⟩ := hmarked
  rw [map_name_changeAt inPrimaryKey (fun _ => rfl), hnames] at huniqueNames
  rw [hnames] at hkeyNames
  refine ⟨list, columns, require_eq_ok.mp hlist, hcolumns, ?_, ?_⟩
  · simpa using ⟨hkeyNames, huniqueNames⟩
  · rw [map_name_changeAt inPrimaryKey (fun _ => rfl), hnames]
    rfl

/-- A column is what its definition builds, with what the keys of the table make of it. -/
def Writes (written : WrittenColumn) (column : ColumnDefinition) : Prop :=
  ∃ built, context.columnDefinition written.definition = .ok built ∧ written.mark built = column

theorem writes_of_changeAt {elements : Tree} {columns : List ColumnDefinition}
    (h : List.Forall₂ (fun definition column => context.columnDefinition definition = .ok column)
      elements.definitions columns) :
    List.Forall₂ context.Writes elements.tableColumns
      (changeAt madeUnique (elements.lists .tableUnique)
        (changeAt inPrimaryKey (elements.lists .tablePrimaryKey) columns)) := by
  rw [List.forall₂_iff_get] at h ⊢
  obtain ⟨hlength, h⟩ := h
  refine ⟨by simpa [tableColumns, changeAt] using hlength, fun i hleft hright => ?_⟩
  simp only [tableColumns, changeAt, List.length_mapIdx] at hleft hright
  refine ⟨columns[i], ?_, ?_⟩
  · simpa [tableColumns] using h i hleft hright
  · simp [tableColumns, changeAt, WrittenColumn.mark]

/-- A column is called as its definition says. -/
theorem Writes.declaredName {written : WrittenColumn} {column : ColumnDefinition}
    (h : context.Writes written column) :
    written.definition.declaredName? = some column.name := by
  obtain ⟨built, hbuilt, rfl⟩ := h
  rw [context.declaredName?_of_columnDefinition hbuilt, written.name_mark]

/-- A statement stores the columns that it is written with. -/
theorem writes_of_simpleStatement {tree : Tree} {query : Query}
    (h : context.simpleStatement tree = .ok query) :
    List.Forall₂ context.Writes tree.writtenColumns query.columnDefinitions := by
  unfold simpleStatement at h
  split at h
  case h_5 hrule =>
    obtain ⟨table, htable, rfl⟩ := map_eq_ok.mp h
    obtain ⟨elements, columns, helements, hcolumns, -, hmarked⟩ := context.createTable_eq_ok htable
    simpa [writtenColumns, hrule, helements, Query.columnDefinitions, hmarked] using
      context.writes_of_changeAt hcolumns
  case h_6 hrule =>
    obtain ⟨table, htable, rfl⟩ := map_eq_ok.mp h
    obtain ⟨action, haction, htable⟩ := bind_eq_ok.mp htable
    dsimp only at htable
    split at htable
    · exact absurd htable refuse_ne_ok
    · split at htable
      · exact absurd htable refuse_ne_ok
      · simp only [bind_eq_ok, pure_eq_ok] at htable
        obtain ⟨definition, hdefinition, name, -, column, hcolumn, rfl⟩ := htable
        have hwritten : tree.writtenColumns = [⟨definition, false, false⟩] := by
          simp [writtenColumns, hrule, require_eq_ok.mp haction, require_eq_ok.mp hdefinition]
        rw [hwritten]
        exact .cons ⟨column, hcolumn, rfl⟩ .nil
  all_goals
    have hnone : tree.writtenColumns = [] := by
      unfold writtenColumns
      split <;> simp_all
    rw [hnone]
    first
      | exact absurd h reject_ne_ok
      | cases h
        exact .nil
      | obtain ⟨_, -, rfl⟩ := map_eq_ok.mp h
        exact .nil

end Context

end Build

/-- **The columns that a batch stores are those that its statements are written with**, in order,
under `BYPASS` as elsewhere. -/
theorem Config.writes_of_parseBatch {config : Config} {source : Source} {queries : List Query}
    (h : config.parseBatch source = .ok queries) :
    ∃ tree, config.parseTree source = .ok tree ∧
      List.Forall₂ (fun statement query =>
        List.Forall₂ (Build.Context.Writes { config, source }) statement.writtenColumns
          query.columnDefinitions) tree.statements queries := by
  obtain ⟨tree, htree, hbatch⟩ := bind_eq_ok.mp h
  refine ⟨tree, htree, ?_⟩
  refine (Build.Context.forall₂_statements _ (mapError_eq_ok.mp hbatch)).imp ?_
  intro statement query hstatement
  rw [← query.columnDefinitions_core]
  exact Build.Context.writes_of_simpleStatement _ hstatement

end SqlFront
