import SqlFront.Proofs.WrittenColumns

/-!
Which columns a batch stores as columns of a primary key, and which of these may be null.

The properties of a column are applied in the order in which they are written, and the keys of the
table after them. `PRIMARY KEY` makes a column refuse nulls, and a `NULL` behind it takes that back;
a key of the table has the last word.
-/

namespace SqlFront

namespace Tree

/-- The property makes a column refuse nulls. -/
def refusesNull (property : Tree) : Bool :=
  property.hasRule .notNullConstraint || property.hasRule .primaryKeyConstraint

/-- The properties of a column name `NULL`, and no property behind it refuses nulls again. -/
def RestoresNull (properties : List Tree) : Prop :=
  ∃ before null after, properties = before ++ null :: after ∧ null.hasRule .nullConstraint ∧
    ∀ property ∈ after, property.refusesNull = false

theorem not_restoresNull_nil : ¬ RestoresNull [] := by
  rintro ⟨before, null, after, h, -, -⟩
  cases before <;> cases h

theorem restoresNull_cons {property : Tree} {properties : List Tree} :
    RestoresNull (property :: properties) ↔ RestoresNull properties ∨
      property.hasRule .nullConstraint ∧ ∀ other ∈ properties, other.refusesNull = false := by
  constructor
  · rintro ⟨before, null, after, h, hnull, hafter⟩
    cases before with
    | nil =>
      cases h
      exact .inr ⟨hnull, hafter⟩
    | cons first before =>
      cases h
      exact .inl ⟨before, null, after, rfl, hnull, hafter⟩
  · rintro (⟨before, null, after, rfl, hnull, hafter⟩ | ⟨hnull, hothers⟩)
    · exact ⟨property :: before, null, after, rfl, hnull, hafter⟩
    · exact ⟨[], property, properties, rfl, hnull, hothers⟩

end Tree

/-- When a column belongs to a primary key, and when it may be null then: its properties or a key of
the table put it there, and only its own properties can allow nulls again. -/
structure WrittenColumn.KeyFlags (written : WrittenColumn) (column : ColumnDefinition) : Prop where
  declared : written.definition.declaredName? = some column.name
  primaryKey : column.primaryKey ↔
    written.definition.children.any (Tree.hasRule .primaryKeyConstraint) ∨ written.inTableKey
  nullable : column.primaryKey → (column.nullable ↔
    written.inTableKey = false ∧ Tree.RestoresNull written.definition.children)

namespace Build.Context

open SqlFront.Tree

variable (context : Context)

/-- One property sets the flag it is for, and of the null properties the last one counts. -/
theorem flags_of_columnProperty {property : Tree} {column next : ColumnDefinition}
    (h : context.columnProperty column property = .ok next) :
    next.primaryKey = (column.primaryKey || property.hasRule .primaryKeyConstraint) ∧
      next.unique = (column.unique || property.hasRule .uniqueConstraint) ∧
      (next.nullable ↔ property.hasRule .nullConstraint ∨
        column.nullable ∧ property.refusesNull = false) := by
  have other {rule : Rule} (h : property.rule? ≠ some rule) : property.hasRule rule = false := by
    simpa [hasRule] using h
  unfold columnProperty at h
  split at h
  case h_6 hrule =>
    simp only [bind_eq_ok, pure_eq_ok] at h
    obtain ⟨e, -, rfl⟩ := h
    simp [refusesNull, hasRule, hrule]
  case h_7 hrule =>
    split at h
    · simp only [bind_eq_ok, pure_eq_ok] at h
      obtain ⟨flags, -, rfl⟩ := h
      simp [refusesNull, hasRule, hrule]
    · cases h
      simp [refusesNull, hasRule, hrule]
  case h_8 hnotNull hnull hprimary hunique _ _ _ =>
    cases h
    simp [refusesNull, other hnotNull, other hnull, other hprimary, other hunique]
  all_goals
    rename_i hrule
    cases h
    simp [refusesNull, hasRule, hrule, inPrimaryKey, madeUnique]

/-- The properties of a column set the flags that they name. The column may be null when the last
word on it is `NULL`, or when it might be before and no property refuses nulls. -/
theorem flags_of_columnProperties {properties : List Tree} {column next : ColumnDefinition}
    (h : properties.foldlM context.columnProperty column = .ok next) :
    next.primaryKey = (column.primaryKey || properties.any (hasRule .primaryKeyConstraint)) ∧
      next.unique = (column.unique || properties.any (hasRule .uniqueConstraint)) ∧
      (next.nullable ↔ RestoresNull properties ∨
        column.nullable ∧ ∀ property ∈ properties, property.refusesNull = false) := by
  induction properties generalizing column with
  | nil =>
    obtain rfl : column = next := by simpa using h
    simp [not_restoresNull_nil]
  | cons property properties ih =>
    rw [List.foldlM_cons, bind_eq_ok] at h
    obtain ⟨middle, hfirst, h⟩ := h
    obtain ⟨hprimary, hunique, hnullable⟩ := context.flags_of_columnProperty hfirst
    obtain ⟨ihprimary, ihunique, ihnullable⟩ := ih h
    refine ⟨?_, ?_, ?_⟩
    · rw [ihprimary, hprimary, List.any_cons, Bool.or_assoc]
    · rw [ihunique, hunique, List.any_cons, Bool.or_assoc]
    · rw [ihnullable, hnullable, restoresNull_cons, List.forall_mem_cons, or_and_right, or_assoc,
        and_assoc]

/-- The flags of a column are those that its properties name. -/
theorem flags_of_columnDefinition {definition : Tree} {column : ColumnDefinition}
    (h : context.columnDefinition definition = .ok column) :
    column.primaryKey = definition.children.any (hasRule .primaryKeyConstraint) ∧
      column.unique = definition.children.any (hasRule .uniqueConstraint) ∧
      (column.nullable ↔ RestoresNull definition.children ∨
        ∀ property ∈ definition.children, property.refusesNull = false) := by
  obtain ⟨name, spelled, typed, -, htyped, hproperties⟩ := context.columnDefinition_eq_ok h
  have plain : typed.primaryKey = false ∧ typed.unique = false ∧ typed.nullable = true := by
    rcases htyped with ⟨-, rfl⟩ | ⟨list, -, htyped⟩
    · exact ⟨rfl, rfl, rfl⟩
    · have hsame := context.sameProperties_of_typeArguments htyped
      exact ⟨hsame.primaryKey, hsame.unique, hsame.nullable⟩
  obtain ⟨hprimary, hunique, hnullable⟩ := plain
  have flags := context.flags_of_columnProperties hproperties
  rw [hprimary, hunique, hnullable, Bool.false_or, Bool.false_or] at flags
  simpa using flags

/-- A column is marked when its properties say so or a key of the table lists it. -/
theorem Writes.marks {written : WrittenColumn} {column : ColumnDefinition}
    (h : context.Writes written column) :
    (column.primaryKey ↔ written.definition.children.any (hasRule .primaryKeyConstraint) ∨
      written.inTableKey) ∧
    (column.unique ↔ written.definition.children.any (hasRule .uniqueConstraint) ∨
      written.inTableUnique) ∧
    (written.inTableKey → column.nullable = false) := by
  obtain ⟨built, hbuilt, rfl⟩ := h
  obtain ⟨hprimary, hunique, -⟩ := context.flags_of_columnDefinition hbuilt
  refine ⟨?_, ?_, ?_⟩
  · rw [written.primaryKey_mark, hprimary, Bool.or_eq_true]
  · rw [written.unique_mark, hunique, Bool.or_eq_true]
  · intro hlisted
    simp [hlisted]

theorem Writes.keyFlags {written : WrittenColumn} {column : ColumnDefinition}
    (h : context.Writes written column) : written.KeyFlags column := by
  obtain ⟨hprimary, -, hlast⟩ := h.marks
  refine ⟨h.declaredName, hprimary, fun hkey => ?_⟩
  cases hlisted : written.inTableKey with
  | true => simp [hlast hlisted]
  | false =>
    obtain ⟨property, hmem, hproperty⟩ : ∃ property ∈ written.definition.children,
        property.hasRule .primaryKeyConstraint := by
      simpa [hlisted] using hprimary.mp hkey
    have hrefuses : ¬ ∀ property ∈ written.definition.children, property.refusesNull = false := by
      intro hnone
      have hkept := hnone property hmem
      simp [refusesNull, hproperty] at hkept
    obtain ⟨built, hbuilt, rfl⟩ := h
    obtain ⟨-, -, hnullable⟩ := context.flags_of_columnDefinition hbuilt
    simp [hlisted, hnullable, hrefuses]

end Build.Context

namespace Config

/-- **Which columns are in a primary key, and which of these may be null.** A stored column belongs
to a primary key exactly when its definition says so or a key of its table lists it. Then it refuses
nulls, except where its definition names `NULL` behind the last property that refuses them and no
key of the table lists it. -/
theorem parseBatch_keyColumns {config : Config} {source : Source} {queries : List Query}
    (h : config.parseBatch source = .ok queries) :
    ∃ tree, config.parseTree source = .ok tree ∧
      List.Forall₂ (fun statement query =>
        List.Forall₂ WrittenColumn.KeyFlags statement.writtenColumns query.columnDefinitions)
      tree.statements queries := by
  obtain ⟨tree, htree, hwrites⟩ := writes_of_parseBatch h
  refine ⟨tree, htree, hwrites.imp fun statement query hcolumns => ?_⟩
  exact hcolumns.imp fun written column hwritten => hwritten.keyFlags

/-- Two columns are in a primary key: `a`, with a `NULL` behind it, may be null, and `b`, which a
key of the table lists, may not. -/
theorem parseBatch_keyColumns_of_null :
    let config := ofDialect .mysql
    let source := ['C', 'R', 'E', 'A', 'T', 'E', ' ', 'T', 'A', 'B', 'L', 'E', ' ', 't', ' ', '(',
      'a', ' ', 'I', 'N', 'T', ' ', 'P', 'R', 'I', 'M', 'A', 'R', 'Y', ' ', 'K', 'E', 'Y', ' ',
      'N', 'U', 'L', 'L', ',', ' ', 'b', ' ', 'I', 'N', 'T', ',', ' ', 'P', 'R', 'I', 'M', 'A',
      'R', 'Y', ' ', 'K', 'E', 'Y', ' ', '(', 'b', ')', ')']
    ∃ queries, config.parseBatch source = .ok queries ∧
      (queries.flatMap Query.columnDefinitions).map
        (fun column => (column.name, column.primaryKey, column.nullable)) =
          [("a", true, true), ("b", true, false)] ∧
      ∃ tree, config.parseTree source = .ok tree ∧
        List.Forall₂ (fun statement query =>
          List.Forall₂ WrittenColumn.KeyFlags statement.writtenColumns query.columnDefinitions)
        tree.statements queries :=
  ⟨_, rfl, rfl, parseBatch_keyColumns rfl⟩

/-- Not every column of a primary key refuses nulls: that of `CREATE TABLE t (a INT PRIMARY KEY
NULL)` may be null. -/
theorem parseBatch_keeps_nullable_key :
    let config := ofDialect .mysql
    let source := ['C', 'R', 'E', 'A', 'T', 'E', ' ', 'T', 'A', 'B', 'L', 'E', ' ', 't', ' ', '(',
      'a', ' ', 'I', 'N', 'T', ' ', 'P', 'R', 'I', 'M', 'A', 'R', 'Y', ' ', 'K', 'E', 'Y', ' ',
      'N', 'U', 'L', 'L', ')']
    ¬ ∀ queries, config.parseBatch source = .ok queries →
      ∀ query ∈ queries, ∀ column ∈ query.columnDefinitions,
        column.primaryKey → column.nullable = false := by
  intro config source refuses
  have kept : ∃ query column, config.parseBatch source = .ok [query] ∧
      query.columnDefinitions = [column] ∧ (column.primaryKey, column.nullable) = (true, true) := by
    dsimp only [config, source]
    exact ⟨_, _, rfl, rfl, rfl⟩
  obtain ⟨query, column, parsed, stored, flags⟩ := kept
  obtain ⟨key, nullable⟩ := Prod.mk.inj flags
  have none := refuses [query] parsed query (by simp) column (by simp [stored]) key
  rw [nullable] at none
  cases none

end Config

end SqlFront
