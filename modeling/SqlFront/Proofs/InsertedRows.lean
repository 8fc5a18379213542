import SqlFront.Proofs.ParseTree
import SqlFront.Proofs.WrittenRows

/-!
Rows of values as they are stored: what an `INSERT` keeps of what is written in it.

Every row is stored, with every value in it, and all rows have one width, which is that of the
columns where columns are named. A row of another width is refused by its number. The rows in front
of it have the width that it should have, so the number is that of the first row that differs.
-/

namespace SqlFront

open Build SqlFront.Tree

namespace WrittenInsert

variable (context : Context) (written : WrittenInsert)

/-- The table, the columns and all values of an `INSERT` can be built. -/
structure Builds : Prop where
  table : ∃ table, TableRef.ofTree context.config.dialect written.table = .ok table
  columns : ∀ columns, written.columns = some columns → ∀ column ∈ columns,
    ∃ reference, context.column column = .ok reference
  values : ∀ row ∈ written.rows, ∀ value ∈ row, ∃ e, context.expression value = .ok e

/-- A query stores an `INSERT` completely, and its rows have one width, which is not zero. -/
structure Stores (query : InsertQuery) : Prop where
  table : TableRef.ofTree context.config.dialect written.table = .ok query.table
  columns : Option.Rel (List.Forall₂ fun column reference => context.column column = .ok reference)
    written.columns query.columns
  rows : List.Forall₂ (List.Forall₂ fun value e => context.expression value = .ok e)
    written.rows query.rows
  some_rows : query.rows ≠ []
  rectangular : ∃ width, 1 ≤ width ∧ (∀ row ∈ query.rows, row.length = width) ∧
    ∀ columns, query.columns = some columns → columns.length = width

variable {context written} {statement : Tree}

/-! ### The parts that are looked for -/

theorem Inserts.isInsert (h : written.Inserts statement) :
    statement.hasRule .insertStatement := by
  cases h
  exact hasRule_iff.mpr rfl

theorem ListsColumns.eq_nil_or {columns : Option (List Tree)} {list : List Tree}
    (h : ListsColumns columns list) :
    list = [] ∨ ∃ only, list = [only] ∧ only.hasRule .columnList := by
  cases h with
  | unnamed => exact .inl rfl
  | named hlists _ => exact .inr ⟨_, rfl, hlists.hasRule⟩

theorem filter_of_listsRow {rows : List (List Tree)} {trees parts : List Tree}
    (hrows : List.Forall₂ ListsRow rows trees) (hparts : Separated trees parts) :
    parts.filter (hasRule .valueRow) = trees := by
  refine hparts.filter (fun row hmem => ?_) fun _ => rfl
  obtain ⟨values, -, hvalues⟩ := exists_of_mem_right hrows hmem
  exact hvalues.1.hasRule

/-- There is a row, and no row is empty. -/
theorem Inserts.exists_row (h : written.Inserts statement) :
    ∃ row rows, written.rows = row :: rows ∧ row ≠ [] := by
  obtain ⟨table, columns, rows⟩ := written
  cases h with
  | values _ _ _ _ _ hparts hrows =>
    cases hrows with
    | nil => exact absurd rfl hparts.ne_nil
    | cons hrow _ => exact ⟨_, _, rfl, hrow.1.ne_nil⟩

/-- Each part is the only one of its production in the statement, and no query stands in it. -/
theorem Inserts.parts (h : written.Inserts statement) :
    find? .selectStatement statement.children = none ∧
    find? .tableName statement.children = some written.table ∧
    ListsColumns written.columns (find? .columnList statement.children).toList ∧
    ∃ clause, find? .valuesClause statement.children = some clause ∧
      List.Forall₂ ListsRow written.rows (clause.children.filter (hasRule .valueRow)) := by
  obtain ⟨table, columns, rows⟩ := written
  cases h with
  | @values _ _ _ mark into list trees parts _ hinto htable hcolumns _ hparts hrows =>
    obtain ⟨_, _, rfl⟩ := eq_node_of_hasRule htable
    have hclause : List.Forall₂ ListsRow rows
        ((leaf mark :: parts).filter (hasRule .valueRow)) := by
      rwa [List.filter_cons_of_neg (by simp [hasRule, rule?]), filter_of_listsRow hrows hparts]
    rcases hcolumns.eq_nil_or with rfl | ⟨only, rfl, hlist⟩
    · rcases hinto with rfl | ⟨word, rfl, -⟩ <;>
        exact ⟨rfl, rfl, hcolumns, _, rfl, hclause⟩
    · obtain ⟨_, _, rfl⟩ := eq_node_of_hasRule hlist
      rcases hinto with rfl | ⟨word, rfl, -⟩ <;>
        exact ⟨rfl, rfl, hcolumns, _, rfl, hclause⟩

end WrittenInsert

namespace Build.Context

open WrittenInsert

variable (context : Context) {written : WrittenInsert} {statement : Tree}

/-! ### Lists that are built -/

theorem expressions_of_listsRow {values : List Tree} {row : Tree} (h : ListsRow values row) :
    context.expressions row = values.mapM context.expression := by
  rw [expressions, h.1.filter h.2 fun _ => rfl]

/-- Where no directions stand among some trees, the columns are built one by one. -/
theorem indexColumns_eq {trees : List Tree}
    (h : ∀ tree ∈ trees, tree.hasRule .indexColumn = false) :
    List.map IndexColumn.column <$> context.indexColumns trees =
      (trees.filter (hasRule .columnName)).mapM context.column := by
  induction trees with
  | nil => rfl
  | cons tree trees ih =>
    obtain ⟨hfirst, hothers⟩ := List.forall_mem_cons.mp h
    rw [indexColumns]
    split
    · rename_i hrule
      rw [List.filter_cons_of_pos (hasRule_iff.mpr hrule), List.mapM_cons, ← ih hothers]
      cases context.column tree with
      | error => rfl
      | ok column => cases context.indexColumns trees <;> rfl
    · rename_i hrule
      rw [hasRule_iff.mpr hrule] at hfirst
      cases hfirst
    · rename_i hname _
      rw [List.filter_cons_of_neg (by simpa [hasRule] using hname), ih hothers]

theorem columnList_of_lists {list : Tree} {columns : List Tree}
    (h : list.Lists .columnList columns)
    (hcolumns : ∀ column ∈ columns, column.hasRule .columnName) :
    context.columnList list = columns.mapM context.column := by
  have hplain : ∀ tree ∈ list.children, tree.hasRule .indexColumn = false := by
    intro tree hmem
    rcases h.mem hmem with hmem | hleaf
    · rw [hasRule, hasRule_iff.mp (hcolumns tree hmem)]
      rfl
    · exact hasRule_of_isLeaf hleaf _
  have hbuilt := context.indexColumns_eq hplain
  rw [h.filter hcolumns fun _ => rfl] at hbuilt
  rw [columnList, ← hbuilt]
  rfl

/-- The columns of an `INSERT`, where any are named. -/
def columns? (columns : Option (List Tree)) : Built (Option (List ColumnRef)) :=
  match columns with
  | some columns => some <$> columns.mapM context.column
  | none => .ok none

/-- An `INSERT` is built from what is written in it: the table, then the columns, then the rows. -/
theorem insert_eq (h : written.Inserts statement) :
    ∃ rows, List.Forall₂ ListsRow written.rows rows ∧ context.insert statement = (do
      let table ← TableRef.ofTree context.config.dialect written.table
      let columns ← context.columns? written.columns
      return ⟨table, columns, ← context.valueRows (columns.map List.length) 1 rows⟩) := by
  obtain ⟨hselect, htable, hcolumns, clause, hclause, hrows⟩ := h.parts
  refine ⟨_, hrows, ?_⟩
  have hnamed : context.table statement = TableRef.ofTree context.config.dialect written.table := by
    rw [table, required, htable]
    rfl
  have hrequired : required .valuesClause statement = .ok clause := require_eq_ok.mpr hclause
  simp only [insert, hselect, hnamed, hrequired, Option.isSome_none, Bool.false_eq_true, if_false]
  generalize find? .columnList statement.children = found at hcolumns ⊢
  generalize written.columns = columns at hcolumns ⊢
  congr 1
  funext table
  cases found with
  | none =>
    cases hcolumns
    rfl
  | some list =>
    cases hcolumns with
    | named hlists hall =>
      dsimp only
      rw [columns?, context.columnList_of_lists hlists hall]
      cases List.mapM context.column _ <;> rfl

theorem columns_of_columns? {columns : Option (List Tree)} {references : Option (List ColumnRef)}
    (h : context.columns? columns = .ok references) :
    Option.Rel (List.Forall₂ fun column reference => context.column column = .ok reference)
      columns references := by
  cases columns with
  | none =>
    obtain rfl := Except.ok.inj h
    exact .none
  | some columns =>
    obtain ⟨built, hbuilt, rfl⟩ := map_eq_ok.mp h
    exact .some (forall₂_of_mapM_eq_ok hbuilt)

/-! ### Rows that are built -/

/-- Rows that are built have all their values, and one width. -/
theorem rows_of_valueRows {rows : List (List Tree)} {trees : List Tree}
    (hrows : List.Forall₂ ListsRow rows trees) {expected : Option Nat} {number : Nat}
    {values : List (List Expr)} (h : context.valueRows expected number trees = .ok values) :
    List.Forall₂ (List.Forall₂ fun value e => context.expression value = .ok e) rows values ∧
      ∃ width, (∀ known, expected = some known → known = width) ∧
        ∀ row ∈ values, row.length = width := by
  induction hrows generalizing expected number values with
  | nil =>
    obtain rfl := Except.ok.inj h
    exact ⟨.nil, expected.getD 0, by rintro known rfl; rfl, by simp⟩
  | @cons row tree rows trees hrow _ ih =>
    rw [valueRows, context.expressions_of_listsRow hrow, bind_eq_ok] at h
    obtain ⟨first, hfirst, h⟩ := h
    dsimp only at h
    split at h
    · exact absurd h reject_ne_ok
    · rename_i hwidth
      simp only [bind_eq_ok, pure_eq_ok] at h
      obtain ⟨more, hmore, rfl⟩ := h
      obtain ⟨hbuilt, width, hexpected, hall⟩ := ih hmore
      obtain rfl : expected.getD first.length = width := hexpected _ rfl
      refine ⟨.cons (forall₂_of_mapM_eq_ok hfirst) hbuilt, expected.getD first.length, ?_,
        List.forall_mem_cons.mpr ⟨by simpa using hwidth, hall⟩⟩
      rintro known rfl
      rfl

/-- Items that can be built one by one can be built together. -/
theorem exists_mapM_eq_ok {α β : Type} {build : α → Built β} {items : List α}
    (h : ∀ item ∈ items, ∃ result, build item = .ok result) :
    ∃ results, items.mapM build = .ok results ∧ results.length = items.length := by
  induction items with
  | nil => exact ⟨[], rfl, rfl⟩
  | cons item items ih =>
    obtain ⟨⟨first, hfirst⟩, hitems⟩ := List.forall_mem_cons.mp h
    obtain ⟨others, hothers, hlength⟩ := ih hitems
    refine ⟨first :: others, ?_, by simp [hlength]⟩
    rw [List.mapM_cons, hfirst, hothers]
    rfl

/-- The first row fixes the width, where nothing else does. -/
theorem valueRows_none {row : Tree} {rows : List Tree} {values : List Expr}
    (h : context.expressions row = .ok values) (number : Nat) :
    context.valueRows none number (row :: rows) =
      context.valueRows (some values.length) number (row :: rows) := by
  simp only [valueRows, h]
  rfl

theorem valueRows_fits {row : Tree} {values : List Expr} (h : context.expressions row = .ok values)
    {width : Nat} (hwidth : values.length = width) (number : Nat) (rows : List Tree) :
    context.valueRows (some width) number (row :: rows) =
      (values :: ·) <$> context.valueRows (some width) (number + 1) rows := by
  rw [valueRows, h]
  simp only [bind, Except.bind, Option.getD_some, hwidth, ne_eq, not_true_eq_false, if_false]
  cases context.valueRows (some width) (number + 1) rows <;> rfl

theorem valueRows_differs {row : Tree} {values : List Expr}
    (h : context.expressions row = .ok values) {width : Nat} (hwidth : values.length ≠ width)
    (number : Nat) (rows : List Tree) :
    context.valueRows (some width) number (row :: rows) =
      Built.reject (.rowWidth number values.length width) := by
  rw [valueRows, h]
  exact if_pos hwidth

/-- The first row of another width is refused, by its number. -/
theorem valueRows_of_width {front back : List (List Tree)} {row : List Tree} {width : Nat}
    (hvalues : ∀ other ∈ front ++ [row], ∀ value ∈ other, ∃ e, context.expression value = .ok e)
    (hfront : ∀ earlier ∈ front, earlier.length = width) (hrow : row.length ≠ width)
    {trees : List Tree} (hrows : List.Forall₂ ListsRow (front ++ row :: back) trees)
    (number : Nat) :
    context.valueRows (some width) number trees =
      Built.reject (.rowWidth (number + front.length) row.length width) := by
  induction front generalizing number trees with
  | nil =>
    obtain ⟨tree, trees, htree, -, rfl⟩ := List.forall₂_cons_left_iff.mp hrows
    obtain ⟨values, hbuilt, hlength⟩ := exists_mapM_eq_ok (hvalues row (by simp))
    rw [← context.expressions_of_listsRow htree] at hbuilt
    rw [← hlength] at hrow ⊢
    exact context.valueRows_differs hbuilt hrow number trees
  | cons first front ih =>
    obtain ⟨tree, trees, htree, htrees, rfl⟩ := List.forall₂_cons_left_iff.mp hrows
    obtain ⟨hwidth, hothers⟩ := List.forall_mem_cons.mp hfront
    obtain ⟨hfirst, hmore⟩ := List.forall_mem_cons.mp hvalues
    obtain ⟨values, hbuilt, hlength⟩ := exists_mapM_eq_ok hfirst
    rw [← context.expressions_of_listsRow htree] at hbuilt
    rw [context.valueRows_fits hbuilt (hlength.trans hwidth), ih hmore hothers htrees]
    rw [List.length_cons, Nat.add_right_comm, Nat.add_assoc]
    rfl

/-! ### Statements that are built -/

/-- **An `INSERT` that is built is stored completely**, in rows of one width. -/
theorem stores_of_insert {query : InsertQuery} (hwritten : written.Inserts statement)
    (h : context.insert statement = .ok query) : written.Stores context query := by
  obtain ⟨trees, hrows, heq⟩ := context.insert_eq hwritten
  simp only [heq, bind_eq_ok, pure_eq_ok] at h
  obtain ⟨table, htable, columns, hcolumns, values, hvalues, rfl⟩ := h
  obtain ⟨hbuilt, width, hexpected, hall⟩ := context.rows_of_valueRows hrows hvalues
  obtain ⟨row, rows, hwrittenRows, hrow⟩ := hwritten.exists_row
  rw [hwrittenRows] at hbuilt
  obtain ⟨first, others, hfirst, -, rfl⟩ := List.forall₂_cons_left_iff.mp hbuilt
  refine ⟨htable, context.columns_of_columns? hcolumns, hwrittenRows ▸ hbuilt, by simp, width, ?_,
    hall, ?_⟩
  · rw [← hall first (by simp), ← hfirst.length_eq]
    exact List.length_pos_iff.mpr hrow
  · rintro columns rfl
    exact hexpected _ rfl

theorem exists_columns? (hbuilds : written.Builds context) :
    ∃ references, context.columns? written.columns = .ok references ∧
      references.map List.length = written.columns.map List.length := by
  have hcolumns := hbuilds.columns
  generalize written.columns = columns at hcolumns
  cases columns with
  | none => exact ⟨none, rfl, rfl⟩
  | some columns =>
    obtain ⟨references, hbuilt, hlength⟩ := exists_mapM_eq_ok (hcolumns columns rfl)
    exact ⟨some references, map_eq_ok.mpr ⟨references, hbuilt, rfl⟩, congrArg some hlength⟩

/-- An `INSERT` that could be built but for the width of a row is refused for the first such row. -/
theorem insert_of_width (hwritten : written.Inserts statement) (hbuilds : written.Builds context)
    {front back : List (List Tree)} {row : List Tree} (hrows : written.rows = front ++ row :: back)
    (hfront : ∀ earlier ∈ front, earlier.length = written.width)
    (hrow : row.length ≠ written.width) :
    context.insert statement =
      Built.reject (.rowWidth (front.length + 1) row.length written.width) := by
  obtain ⟨trees, htrees, heq⟩ := context.insert_eq hwritten
  obtain ⟨table, htable⟩ := hbuilds.table
  obtain ⟨references, hreferences, hlength⟩ := context.exists_columns? hbuilds
  have hvalues : ∀ other ∈ front ++ [row], ∀ value ∈ other,
      ∃ e, context.expression value = .ok e := by
    intro other hmem
    refine hbuilds.values other ?_
    rw [hrows]
    simp only [List.mem_append, List.mem_cons, List.not_mem_nil, or_false] at hmem ⊢
    exact hmem.imp_right .inl
  have hrefused := context.valueRows_of_width hvalues hfront hrow (hrows ▸ htrees) 1
  rw [Nat.add_comm] at hrefused
  rw [heq]
  refine bind_eq_error.mpr (.inr ⟨table, htable, bind_eq_error.mpr (.inr
    ⟨references, hreferences, bind_eq_error.mpr (.inl ?_)⟩)⟩)
  rw [hlength]
  cases hcolumns : written.columns with
  | some columns =>
    have hwidth : columns.length = written.width := by rw [width, hcolumns]
    rw [Option.map_some, hwidth, hrefused]
    rfl
  | none =>
    -- The width is that of the first row, so the first row is not the one that differs.
    cases front with
    | nil => exact absurd (by simp [width, hcolumns, hrows]) hrow
    | cons first front =>
      obtain ⟨tree, others, htree, -, rfl⟩ := List.forall₂_cons_left_iff.mp (hrows ▸ htrees)
      obtain ⟨values, hbuilt, hvalues⟩ := exists_mapM_eq_ok (hvalues first (by simp))
      rw [← context.expressions_of_listsRow htree] at hbuilt
      rw [Option.map_none, context.valueRows_none hbuilt, hvalues, hfront first (by simp), hrefused]
      rfl

/-- Where some row has another width, there is a first one. -/
theorem exists_first_row (h : ∃ row ∈ written.rows, row.length ≠ written.width) :
    ∃ front row back, written.rows = front ++ row :: back ∧
      (∀ earlier ∈ front, earlier.length = written.width) ∧ row.length ≠ written.width := by
  obtain ⟨row, hfound⟩ : ∃ row, written.rows.find? (·.length != written.width) = some row := by
    rw [← Option.isSome_iff_exists, List.find?_isSome]
    simpa using h
  obtain ⟨hrow, front, back, hrows, hfront⟩ := List.find?_eq_some_iff_append.mp hfound
  exact ⟨front, row, back, hrows, by simpa using hfront, by simpa using hrow⟩

theorem insert_of_simpleStatement {insert : InsertQuery}
    (h : context.simpleStatement statement = .ok (.insert insert)) :
    statement.hasRule .insertStatement ∧ context.insert statement = .ok insert := by
  unfold simpleStatement at h
  split at h
  case h_2 hrule =>
    obtain ⟨built, hbuilt, heq⟩ := map_eq_ok.mp h
    cases heq
    exact ⟨hasRule_iff.mpr hrule, hbuilt⟩
  all_goals first
    | exact absurd h reject_ne_ok
    | cases h
    | obtain ⟨_, -, heq⟩ := map_eq_ok.mp h
      cases heq

end Build.Context

namespace Config

open Build WrittenInsert

variable {config : Config} {source : Source} {tree : Tree}

/-- Every `INSERT` of a batch that has no query in it has rows as they are written. -/
theorem hasRows_of_parseTree (h : config.parseTree source = .ok tree) :
    ∀ child ∈ tree.children, child.isLeaf = false → Grammar.HasRows child := by
  obtain ⟨lexemes, parts, rest, -, hread, rfl⟩ := parseTree_eq_ok h
  have hregular := Grammar.regular_enter config.dialect config.maxNestingDepth
    config.maxNestingDepth
  have hinside := Grammar.listsInside_enter config.dialect config.maxNestingDepth
    config.maxNestingDepth
  have hsemicolons : Grammar.semicolons.Each
      (Grammar.enter (Grammar.bodies config.dialect) config.maxNestingDepth config.maxNestingDepth)
      fun part => part.isLeaf = false → Grammar.HasRows part := by
    intro trees hyields part hmem hnode
    rw [Grammar.isLeaf_of_semicolons hyields part hmem] at hnode
    cases hnode
  have hstatement := Grammar.statement_hasRows hinside config.dialect hregular
  exact Grammar.Form.Each.seq hsemicolons (.whileAt (.seq
    (fun trees hyields part hmem _ => hstatement trees hyields part hmem)
    (.ifAt hsemicolons .refuse))) parts ⟨lexemes, rest, hread⟩

/-- **Rows of values are complete and rectangular.** An `INSERT` without a query in it is written as
a table, perhaps columns, and rows of values. Where it is accepted, all of this is stored, with one
row for each row and one expression for each value, and the rows have one width, which is that of
the columns where columns are named. Where a row is wider or narrower than that, or than the first
row, and everything else can be built, the statement is refused for the first such row, and its
batch for this or for a statement in front of it. -/
theorem parseBatch_insertedRows (htree : config.parseTree source = .ok tree) :
    (∀ statement ∈ tree.statements, statement.hasRule .insertStatement →
      find? .selectStatement statement.children = none →
      ∃ written : WrittenInsert, written.Inserts statement) ∧
    (∀ queries, config.parseBatch source = .ok queries →
      List.Forall₂ (fun statement query =>
        (statement.hasRule .insertStatement → ∃ insert, query.core = .insert insert) ∧
        ∀ insert, query.core = .insert insert →
          ∃ written : WrittenInsert, written.Inserts statement ∧
            written.Stores { config, source } insert)
      tree.statements queries) ∧
    ∀ before child after, (tree.children.filter fun child => !child.isLeaf) =
        before ++ child :: after →
      ∀ written : WrittenInsert, written.Inserts child.core → written.Builds { config, source } →
        (∃ row ∈ written.rows, row.length ≠ written.width) →
        ∃ front row back, written.rows = front ++ row :: back ∧
          (∀ earlier ∈ front, earlier.length = written.width) ∧ row.length ≠ written.width ∧
          Context.statement { config, source } child =
            .error (.semantic (.rowWidth (front.length + 1) row.length written.width)) ∧
          (∀ queries, config.parseBatch source ≠ .ok queries) ∧
          ((∀ earlier ∈ before,
              ∃ query, Context.statement { config, source } earlier = .ok query) →
            config.parseBatch source = .error (.plain
              (.semantic (.rowWidth (front.length + 1) row.length written.width)))) := by
  have hwritten : ∀ statement ∈ tree.statements, statement.hasRule .insertStatement →
      find? .selectStatement statement.children = none →
      ∃ written : WrittenInsert, written.Inserts statement := by
    intro statement hmem
    obtain ⟨child, hchild, rfl⟩ := List.mem_map.mp hmem
    obtain ⟨hpart, hnode⟩ := List.mem_filter.mp hchild
    exact hasRows_of_parseTree htree child hpart (by simpa using hnode)
  have hbuilt : ∀ queries, config.parseBatch source = .ok queries →
      List.Forall₂ (fun statement query =>
        Context.simpleStatement { config, source } statement = .ok query.core)
      tree.statements queries := by
    intro queries h
    obtain ⟨same, hsame, hbatch⟩ := bind_eq_ok.mp h
    obtain rfl : tree = same := by rwa [htree, Except.ok.injEq] at hsame
    exact Context.forall₂_statements _ (mapError_eq_ok.mp hbatch)
  refine ⟨hwritten, fun queries h => ?_, ?_⟩
  · refine ((List.forall₂_and_left _ _).mpr ⟨fun _ => id, hbuilt queries h⟩).imp ?_
    rintro statement query ⟨hmem, hquery⟩
    refine ⟨fun hrule => ?_, fun insert hinsert => ?_⟩
    · rw [Context.simpleStatement, hasRule_iff.mp hrule] at hquery
      obtain ⟨insert, -, hinsert⟩ := map_eq_ok.mp hquery
      exact ⟨insert, hinsert.symm⟩
    · rw [hinsert] at hquery
      obtain ⟨hrule, hstored⟩ := Context.insert_of_simpleStatement _ hquery
      obtain ⟨written, hinserts⟩ := hwritten statement hmem hrule
        (Context.rows_of_insert _ hstored).1
      exact ⟨written, hinserts, Context.stores_of_insert _ hinserts hstored⟩
  · intro before child after hparts written hinserts hbuilds hwidths
    obtain ⟨front, row, back, hrows, hfront, hrow⟩ := Context.exists_first_row hwidths
    have hrefused := Context.insert_of_width _ hinserts hbuilds hrows hfront hrow
    have hsimple : Context.simpleStatement { config, source } child.core =
        .error (.semantic (.rowWidth (front.length + 1) row.length written.width)) := by
      rw [Context.simpleStatement, hasRule_iff.mp hinserts.isInsert]
      dsimp only
      rw [hrefused]
      rfl
    have hstatement := Context.statement_eq_error _ child hsimple
    refine ⟨front, row, back, hrows, hfront, hrow, hstatement, fun queries h => ?_,
      fun hbefore => ?_⟩
    · have hmem : child.core ∈ tree.statements := by simp [statements, hparts]
      obtain ⟨query, -, hquery⟩ := exists_of_mem_right (hbuilt queries h).flip hmem
      rw [hsimple] at hquery
      cases hquery
    · refine bind_eq_error.mpr (.inr ⟨tree, htree, mapError_eq_error.mpr ⟨_, ?_, rfl⟩⟩)
      exact Context.batch_eq_error _ hparts hbefore hstatement

/-- `INSERT t (a) VALUES (1), (2)` stores two rows of one value. In `INSERT t VALUES (1), (2, 3)`
the second row is refused for its width. -/
theorem parseBatch_insertedRows_of_two :
    let config := ofDialect .mysql
    let source := ['I', 'N', 'S', 'E', 'R', 'T', ' ', 't', ' ', '(', 'a', ')', ' ', 'V', 'A', 'L',
      'U', 'E', 'S', ' ', '(', '1', ')', ',', ' ', '(', '2', ')']
    let uneven := ['I', 'N', 'S', 'E', 'R', 'T', ' ', 't', ' ', 'V', 'A', 'L', 'U', 'E', 'S', ' ',
      '(', '1', ')', ',', ' ', '(', '2', ',', ' ', '3', ')']
    (∃ tree statement query insert, config.parseTree source = .ok tree ∧
      tree.statements = [statement] ∧ config.parseBatch source = .ok [query] ∧
      query.core = .insert insert ∧ insert.rows.map List.length = [1, 1] ∧
      ∃ written : WrittenInsert, written.Inserts statement ∧
        written.Stores { config, source } insert) ∧
    config.parseBatch uneven = .error (.plain (.semantic (.rowWidth 2 2 1))) := by
  intro config source uneven
  constructor
  · have stores : ∀ tree queries, config.parseTree source = .ok tree →
        config.parseBatch source = .ok queries → List.Forall₂ (fun statement query =>
          ∀ insert, query.core = .insert insert → ∃ written : WrittenInsert,
            written.Inserts statement ∧ written.Stores { config, source } insert)
        tree.statements queries := by
      intro tree queries htree h
      exact ((parseBatch_insertedRows htree).2.1 queries h).imp fun _ _ stored => stored.2
    have kept : ∃ tree statement query insert, config.parseTree source = .ok tree ∧
        tree.statements = [statement] ∧ config.parseBatch source = .ok [query] ∧
        query.core = .insert insert ∧ insert.rows.map List.length = [1, 1] := by
      dsimp only [config, source]
      exact ⟨_, _, _, _, rfl, rfl, rfl, rfl, rfl⟩
    obtain ⟨tree, statement, query, insert, htree, hstatement, parsed, hinsert, hwidths⟩ := kept
    have stored := stores tree [query] htree parsed
    rw [hstatement] at stored
    exact ⟨tree, statement, query, insert, htree, hstatement, parsed, hinsert, hwidths,
      (List.forall₂_cons.mp stored).1 insert hinsert⟩
  · have refused {tree child table a b c : Tree} (htree : config.parseTree uneven = .ok tree)
        (hparts : (tree.children.filter fun child => !child.isLeaf) = [child])
        (hinserts : Inserts ⟨table, none, [[a], [b, c]]⟩ child.core)
        (hbuilds : Builds { config, source := uneven } ⟨table, none, [[a], [b, c]]⟩) :
        config.parseBatch uneven = .error (.plain (.semantic (.rowWidth 2 2 1))) := by
      obtain ⟨front, row, back, hrows, hfront, hrow, -, -, fails⟩ :=
        (parseBatch_insertedRows htree).2.2 [] child [] hparts _ hinserts hbuilds
          ⟨[b, c], by simp, by simp [width]⟩
      have second : front = [[a]] ∧ row = [b, c] := by
        match front, hrows with
        | [], hrows => cases hrows; exact absurd rfl hrow
        | [_], hrows => cases hrows; exact ⟨rfl, rfl⟩
        | _ :: _ :: _, hrows => simp at hrows
      obtain ⟨rfl, rfl⟩ := second
      exact fails (by simp)
    have values : ∃ tree child table a b c, config.parseTree uneven = .ok tree ∧
        (tree.children.filter fun child => !child.isLeaf) = [child] ∧
        Inserts ⟨table, none, [[a], [b, c]]⟩ child.core ∧
        Builds { config, source := uneven } ⟨table, none, [[a], [b, c]]⟩ := by
      dsimp only [config, uneven]
      refine ⟨_, _, _, _, _, _, rfl, rfl, @Inserts.values _ _ _ _ _ [] [] [_, _] [_, .leaf _, _] rfl
        (.inl rfl) rfl .unnamed rfl (.more _ rfl (.last _))
        (.cons ⟨@Lists.enclosed _ _ _ _ _ [_] rfl (.last _) rfl, ?_⟩
          (.cons ⟨@Lists.enclosed _ _ _ _ _ [_, .leaf _, _] rfl (.more _ rfl (.last _)) rfl, ?_⟩
            .nil)), ⟨_, rfl⟩, ?_, ?_⟩
      · exact List.forall_mem_singleton.mpr rfl
      · exact List.forall_mem_cons.mpr ⟨rfl, List.forall_mem_singleton.mpr rfl⟩
      · rintro _ ⟨⟩
      · refine List.forall_mem_cons.mpr ⟨List.forall_mem_singleton.mpr ⟨_, rfl⟩,
          List.forall_mem_singleton.mpr (List.forall_mem_cons.mpr
            ⟨⟨_, rfl⟩, List.forall_mem_singleton.mpr ⟨_, rfl⟩⟩)⟩
    obtain ⟨tree, child, table, a, b, c, htree, hparts, hinserts, hbuilds⟩ := values
    exact refused htree hparts hinserts hbuilds

end Config

end SqlFront
