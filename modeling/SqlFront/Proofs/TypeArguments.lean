import SqlFront.Proofs.WrittenColumns
import SqlFront.Proofs.WrittenNumbers

/-!
What the arguments of a type make of a column. The class of the type says which arguments it takes:
none, a length or `MAX`, a precision and perhaps a scale, or member strings.

A precision is checked as a length is. A scale is not checked again: it is what its token stands
for, so `MAX` in its place is stored as a scale.
-/

namespace SqlFront

/-- Only a minus sign makes the integer of a text negative. -/
theorem int64?_nonneg {text : List Char} {n : Int} (hsign : text.head? ≠ some '-')
    (h : int64? text = some n) : 0 ≤ n := by
  unfold int64? at h
  split at h
  · exact absurd rfl hsign
  all_goals
    obtain ⟨value, hvalue, h⟩ := Option.bind_eq_some_iff.mp h
    obtain ⟨whole, hwhole, rfl⟩ := Option.map_eq_some_iff.mp hvalue
    obtain ⟨digits, -, hdigits⟩ := Option.bind_eq_some_iff.mp hwhole
    cases hdigits
    dsimp only at h
    split at h
    · cases h
      exact Int.natCast_nonneg digits
    · cases h

namespace Tree

/-- The arguments of the type in a definition. -/
def typeArgumentTokens (definition : Tree) : List Lexeme :=
  match definition.typeArguments? with
  | some list => (leaves list.children).filter Build.Context.isArgument
  | none => []

/-- The number tokens in a tree are written without a sign. -/
def HasWrittenNumbers (tree : Tree) : Prop :=
  ∀ lexeme ∈ tree.terminals, ∀ text, lexeme.token = .number text →
    ∃ number : WrittenNumber, text.toList = number.text

end Tree

/-- A column has the arguments that its type takes. The scale alone may stand for `MAX`, where that
is the second argument. -/
structure WrittenColumn.ObeysType (written : WrittenColumn) (column : ColumnDefinition) : Prop where
  fixed : column.dataType.lengthClass = .fixed →
    column.length = none ∧ column.scale = none ∧ column.members = []
  members : column.members ≠ [] → column.dataType = .enum ∨ column.dataType = .set
  enumeration : column.dataType = .enum ∨ column.dataType = .set →
    column.length = none ∧ column.scale = none
  length : ∀ n, column.length = some n →
    0 ≤ n ∨ n = maxLength ∧ column.dataType.lengthClass = .variable
  scale : ∀ n, column.scale = some n →
    (column.dataType = .decimal ∨ column.dataType = .numeric) ∧ column.length.isSome ∧
    ∃ precision scale, written.definition.typeArgumentTokens = [precision, scale] ∧
      (scale.token.isWord "MAX" = false ∧ 0 ≤ n ∨ scale.token.isWord "MAX" ∧ n = maxLength)

/-- What a column has from its type is all that is asked. -/
theorem WrittenColumn.ObeysType.congr {written : WrittenColumn} {column next : ColumnDefinition}
    (h : written.ObeysType column) (hsame : Build.Context.SameType column next) :
    written.ObeysType next := by
  obtain ⟨-, hdataType, hlength, hscale, hmembers⟩ := hsame
  constructor
  · rw [hdataType, hlength, hscale, hmembers]
    exact h.fixed
  · rw [hdataType, hmembers]
    exact h.members
  · rw [hdataType, hlength, hscale]
    exact h.enumeration
  · rw [hdataType, hlength]
    exact h.length
  · rw [hdataType, hlength, hscale]
    exact h.scale

theorem DataType.lengthClass_eq_members {dataType : DataType} :
    dataType.lengthClass = .members ↔ dataType = .enum ∨ dataType = .set := by
  cases dataType <;> simp [lengthClass]

theorem DataType.lengthClass_eq_precision {dataType : DataType} :
    dataType.lengthClass = .precision ↔ dataType = .decimal ∨ dataType = .numeric := by
  cases dataType <;> simp [lengthClass]

namespace Build.Context

open SqlFront.Tree

variable (context : Context)

/-- A length is a number without a sign, or `MAX`. -/
theorem lengthValue_eq_ok {lexeme : Lexeme} {n : Int} (h : context.lengthValue lexeme = .ok n)
    (hnumber : ∀ text, lexeme.token = .number text →
      ∃ number : WrittenNumber, text.toList = number.text) :
    lexeme.token.isWord "MAX" = false ∧ 0 ≤ n ∨ lexeme.token.isWord "MAX" ∧ n = maxLength := by
  unfold lengthValue at h
  split at h
  · rename_i text htoken
    obtain ⟨number, htext⟩ := hnumber text htoken
    obtain ⟨c, rest, hfirst, hc⟩ := number.exists_text
    rw [require_eq_ok] at h
    refine .inl ⟨by rw [htoken]; rfl, int64?_nonneg ?_ h⟩
    simpa [htext, hfirst] using hc
  · split at h
    · cases h
      exact .inr ⟨‹_›, rfl⟩
    · exact absurd h reject_ne_ok

/-- **The arguments of a type are checked by its class**, the scale only as far as its token
goes. -/
theorem typeArguments_eq_ok {list : Tree} {column next : ColumnDefinition}
    (h : context.typeArguments column list = .ok next) :
    let arguments := (leaves list.children).filter isArgument
    (column.dataType.lengthClass = .members ∧ ∃ members, next = { column with members }) ∨
    (∃ lexeme length, arguments = [lexeme] ∧ context.lengthValue lexeme = .ok length ∧
      next = { column with length := some length } ∧
      (column.dataType.lengthClass = .variable ∧ (0 ≤ length ∨ length = maxLength) ∨
        column.dataType.lengthClass = .precision ∧ 0 ≤ length)) ∨
    column.dataType.lengthClass = .precision ∧ ∃ precision length lexeme scale,
      arguments = [precision, lexeme] ∧ 0 ≤ length ∧ context.lengthValue lexeme = .ok scale ∧
      next = { column with length := some length, scale := some scale } := by
  intro arguments
  unfold typeArguments at h
  dsimp only at h
  split at h
  · rename_i hclass
    simp only [bind_eq_ok, pure_eq_ok] at h
    obtain ⟨members, -, rfl⟩ := h
    exact .inl ⟨hclass, members, rfl⟩
  · rename_i lexeme hvalues _
    obtain ⟨length, hlength, h⟩ := bind_eq_ok.mp h
    obtain ⟨rfl, hclass⟩ := setLength_eq_ok (mapError_eq_ok.mp h)
    exact .inr (.inl ⟨lexeme, length, hvalues, hlength, rfl, hclass⟩)
  · rename_i precision lexeme hclass hvalues
    simp only [bind_eq_ok, pure_eq_ok] at h
    obtain ⟨length, hlength, precise, hprecise, scale, hscale, rfl⟩ := h
    obtain ⟨rfl, hchecked⟩ := setLength_eq_ok (mapError_eq_ok.mp hprecise)
    have hnonneg : 0 ≤ length := by
      rcases hchecked with ⟨hother, -⟩ | ⟨-, hnonneg⟩
      · rw [hclass] at hother
        cases hother
      · exact hnonneg
    exact .inr (.inr ⟨hclass, precision, length, lexeme, scale, hvalues, hnonneg, hscale, rfl⟩)
  · rename_i hclass _
    obtain ⟨-, hchecked⟩ := setLength_eq_ok (mapError_eq_ok.mp h)
    rw [hclass] at hchecked
    rcases hchecked with ⟨⟨⟩, -⟩ | ⟨⟨⟩, -⟩
  · exact absurd h reject_ne_ok

theorem mem_terminals_of_typeArgumentTokens {definition : Tree} {lexeme : Lexeme}
    (h : lexeme ∈ definition.typeArgumentTokens) : lexeme ∈ definition.terminals := by
  rw [typeArgumentTokens] at h
  split at h
  · rename_i list hlist
    simp only [typeArguments?, Option.bind_eq_bind, Option.bind_eq_some_iff] at hlist
    obtain ⟨typeTree, htype, hlist⟩ := hlist
    obtain ⟨child, hchild, hlexeme⟩ := List.mem_filterMap.mp (List.mem_of_mem_filter h)
    have hinside : child.Inside definition :=
      (Inside.of_mem hchild).trans <|
        (Inside.of_mem (List.mem_of_find?_eq_some hlist)).trans
          (.of_mem (List.mem_of_find?_eq_some htype))
    cases child with
    | leaf other =>
      cases hlexeme
      exact hinside.terminals_infix.subset (by simp [terminals])
    | node rule span children => cases hlexeme
  · cases h

/-- A column without arguments of its type obeys it. -/
theorem obeysType_bareColumn (written : WrittenColumn) (name : String) (spelled : TypeName) :
    written.ObeysType (bareColumn name spelled) where
  fixed _ := ⟨rfl, rfl, rfl⟩
  members h := absurd rfl h
  enumeration _ := ⟨rfl, rfl⟩
  length _ h := by cases h
  scale _ h := by cases h

theorem obeysType_of_typeArguments {written : WrittenColumn} {list : Tree} {name : String}
    {spelled : TypeName} {column : ColumnDefinition}
    (hlist : written.definition.typeArguments? = some list)
    (hnumbers : written.definition.HasWrittenNumbers)
    (h : context.typeArguments (bareColumn name spelled) list = .ok column) :
    written.ObeysType column := by
  have harguments : written.definition.typeArgumentTokens =
      (leaves list.children).filter isArgument := by
    rw [typeArgumentTokens, hlist]
  rcases context.typeArguments_eq_ok h with ⟨hmembers, members, rfl⟩ |
    ⟨lexeme, length, -, -, rfl, hlength⟩ |
    ⟨hprecision, precision, length, lexeme, scale, hvalues, hlength, hscale, rfl⟩
  · constructor
    case fixed =>
      intro hfixed
      cases hmembers.symm.trans hfixed
    case members => exact fun _ => DataType.lengthClass_eq_members.mp hmembers
    case enumeration => exact fun _ => ⟨rfl, rfl⟩
    case length => rintro _ ⟨⟩
    case scale => rintro _ ⟨⟩
  · constructor
    case fixed =>
      intro hfixed
      rcases hlength with ⟨hclass, -⟩ | ⟨hclass, -⟩ <;> cases hclass.symm.trans hfixed
    case members => exact fun hmembers => absurd rfl hmembers
    case enumeration =>
      intro henumeration
      have hmembers := DataType.lengthClass_eq_members.mpr henumeration
      rcases hlength with ⟨hclass, -⟩ | ⟨hclass, -⟩ <;> cases hclass.symm.trans hmembers
    case length =>
      rintro _ ⟨⟩
      rcases hlength with ⟨hclass, hnonneg | hmax⟩ | ⟨-, hnonneg⟩
      · exact .inl hnonneg
      · exact .inr ⟨hmax, hclass⟩
      · exact .inl hnonneg
    case scale => rintro _ ⟨⟩
  · rw [hvalues] at harguments
    have hargument : lexeme ∈ written.definition.typeArgumentTokens := by simp [harguments]
    have hnumber := hnumbers lexeme (mem_terminals_of_typeArgumentTokens hargument)
    constructor
    case fixed =>
      intro hfixed
      cases hprecision.symm.trans hfixed
    case members => exact fun hmembers => absurd rfl hmembers
    case enumeration =>
      intro henumeration
      cases hprecision.symm.trans (DataType.lengthClass_eq_members.mpr henumeration)
    case length =>
      rintro _ ⟨⟩
      exact .inl hlength
    case scale =>
      rintro _ ⟨⟩
      exact ⟨DataType.lengthClass_eq_precision.mp hprecision, rfl, precision, lexeme, harguments,
        context.lengthValue_eq_ok hscale hnumber⟩

/-- A definition gives a column the arguments that its type takes. -/
theorem Writes.obeysType {written : WrittenColumn} {column : ColumnDefinition}
    (h : context.Writes written column) (hnumbers : written.definition.HasWrittenNumbers) :
    written.ObeysType column := by
  obtain ⟨built, hbuilt, rfl⟩ := h
  obtain ⟨name, spelled, typed, -, htyped, hproperties⟩ := context.columnDefinition_eq_ok hbuilt
  have hmarked : SameType built (written.mark built) := by
    unfold WrittenColumn.mark
    cases written.inTableKey <;> cases written.inTableUnique <;> exact ⟨rfl, rfl, rfl, rfl, rfl⟩
  refine .congr ?_ ((context.sameType_of_columnProperties hproperties).trans hmarked)
  rcases htyped with ⟨-, rfl⟩ | ⟨list, hlist, htyped⟩
  · exact obeysType_bareColumn written name spelled
  · exact context.obeysType_of_typeArguments hlist hnumbers htyped

/-- The columns of a statement are defined inside it. -/
theorem definition_inside {statement : Tree} {written : WrittenColumn}
    (h : written ∈ statement.writtenColumns) : written.definition.Inside statement := by
  unfold writtenColumns at h
  split at h
  · cases hlist : find? .tableElementList statement.children with
    | none => simp [hlist] at h
    | some elements =>
      simp only [hlist, Option.map_some, Option.getD_some, tableColumns, List.mem_mapIdx] at h
      obtain ⟨place, hplace, rfl⟩ := h
      have hmem : elements.definitions[place] ∈ elements.children :=
        List.mem_of_mem_filter (List.getElem_mem hplace)
      exact (Inside.of_mem hmem).trans (.of_mem (List.mem_of_find?_eq_some hlist))
  · simp only [Option.bind_eq_bind, List.mem_map, Option.mem_toList,
      Option.bind_eq_some_iff] at h
    obtain ⟨definition, ⟨action, haction, hdefinition⟩, rfl⟩ := h
    exact (Inside.of_mem (List.mem_of_find?_eq_some hdefinition)).trans
      (.of_mem (List.mem_of_find?_eq_some haction))
  · cases h

end Build.Context

namespace Config

open SqlFront.Tree

variable {config : Config} {source : Source}

/-- The lexer writes numbers without a sign, so all numbers in a parse tree are written so. -/
theorem hasWrittenNumbers_of_inside {tree inner : Tree} (h : config.parseTree source = .ok tree)
    (hinside : inner.Inside tree) : inner.HasWrittenNumbers := by
  intro lexeme hmem text htoken
  obtain ⟨⟨stop, htokens⟩, -⟩ := parseTree_lossless h
  have hall : lexeme ∈ tree.terminals := hinside.terminals_infix.subset hmem
  exact exists_writtenNumber htokens (List.mem_append_left _ hall) htoken

/-- **Stored columns obey their types.** A type of fixed width has no arguments. Only enumerations
have members, and they have no length. A length is not negative, or it is `MAX` for a type of
variable length. Only `DECIMAL` and `NUMERIC` have a scale, next to a precision; it is not negative,
except that a `MAX` written in its place is stored as the length that stands for it. -/
theorem parseBatch_typeArguments {queries : List Query}
    (h : config.parseBatch source = .ok queries) :
    ∃ tree, config.parseTree source = .ok tree ∧
      List.Forall₂ (fun statement query =>
        List.Forall₂ WrittenColumn.ObeysType statement.writtenColumns query.columnDefinitions)
      tree.statements queries := by
  obtain ⟨tree, htree, hwrites⟩ := writes_of_parseBatch h
  refine ⟨tree, htree, ?_⟩
  refine ((List.forall₂_and_left _ _).mpr ⟨fun _ hmem => hmem, hwrites⟩).imp ?_
  rintro statement query ⟨hstatement, hcolumns⟩
  refine ((List.forall₂_and_left _ _).mpr ⟨fun _ hmem => hmem, hcolumns⟩).imp ?_
  rintro written column ⟨hwritten, hwrites⟩
  have hinside := Build.Context.definition_inside hwritten
  have hnumbers := hasWrittenNumbers_of_inside htree
    (hinside.trans (inside_of_mem_statements hstatement))
  exact hwrites.obeysType _ hnumbers

/-- Three columns with the arguments of their types: `MAX` is a length of `VARCHAR`, and it is
stored as the scale of `DECIMAL`. -/
theorem parseBatch_typeArguments_of_max :
    let config := ofDialect .mysql
    let source := ['C', 'R', 'E', 'A', 'T', 'E', ' ', 'T', 'A', 'B', 'L', 'E', ' ', 't', ' ', '(',
      'a', ' ', 'D', 'E', 'C', 'I', 'M', 'A', 'L', '(', '5', ',', ' ', 'M', 'A', 'X', ')', ',',
      ' ', 'b', ' ', 'V', 'A', 'R', 'C', 'H', 'A', 'R', '(', 'M', 'A', 'X', ')', ',', ' ', 'c',
      ' ', 'I', 'N', 'T', ')']
    ∃ queries, config.parseBatch source = .ok queries ∧
      (queries.flatMap Query.columnDefinitions).map
        (fun column => (column.name, column.length, column.scale)) =
          [("a", some 5, some (-1)), ("b", some (-1), none), ("c", none, none)] ∧
      ∃ tree, config.parseTree source = .ok tree ∧
        List.Forall₂ (fun statement query =>
          List.Forall₂ WrittenColumn.ObeysType statement.writtenColumns query.columnDefinitions)
        tree.statements queries :=
  ⟨_, rfl, rfl, parseBatch_typeArguments rfl⟩

/-- Not every stored scale is a number of digits: that of `DECIMAL(5, MAX)` is the length that
stands for `MAX`. -/
theorem parseBatch_stores_maximal_scale :
    let config := ofDialect .mysql
    let source := ['C', 'R', 'E', 'A', 'T', 'E', ' ', 'T', 'A', 'B', 'L', 'E', ' ', 't', ' ', '(',
      'a', ' ', 'D', 'E', 'C', 'I', 'M', 'A', 'L', '(', '5', ',', ' ', 'M', 'A', 'X', ')', ')']
    ¬ ∀ queries, config.parseBatch source = .ok queries →
      ∀ query ∈ queries, ∀ column ∈ query.columnDefinitions,
        ∀ scale, column.scale = some scale → 0 ≤ scale := by
  intro config source nonnegative
  have kept : ∃ query column, config.parseBatch source = .ok [query] ∧
      query.columnDefinitions = [column] ∧ column.scale = some maxLength := by
    dsimp only [config, source]
    exact ⟨_, _, rfl, rfl, rfl⟩
  obtain ⟨query, column, parsed, stored, scale⟩ := kept
  have small := nonnegative [query] parsed query (by simp) column (by simp [stored]) _ scale
  exact absurd small (by decide)

end Config

end SqlFront
