import SqlFront.Proofs.CursorReading
import SqlFront.Proofs.PlainForms

/-!
The grammar of every dialect makes progress.

Each construct starts with a token of its own, so that no other construct is entered before a token
is taken. What yields a tree takes a token; of the one production that might be empty, the rest of
a statement that is not supported, the token before it is looked at.
-/

namespace SqlFront.Grammar

/-! ### Forms made of others -/

namespace Form

theorem Consumes.advances {form : Form} (h : form.Consumes) : form.Advances := by
  intro t
  induction form with
  | empty | whileAt | deeper => exact h.elim
  | token | refuse => trivial
  | seq first second ihfirst ihsecond => exact h.imp ihfirst ihsecond
  | ifAt look yes no ihyes ihno => exact ⟨fun _ => ihyes h.1, ihno h.2⟩
  | extend first rule rest ihfirst ihrest => exact h.imp ihfirst (And.imp_left ihrest)

/-- What does not look beyond a statement stops at the end of the text. -/
theorem Plain.moves {form : Form} (h : form.Plain) : form.Moves := by
  induction form with
  | empty | refuse | deeper => trivial
  | token => exact h.2
  | seq first second ihfirst ihsecond => exact ⟨ihfirst h.1, ihsecond h.2⟩
  | ifAt look yes no ihyes ihno => exact ⟨ihyes h.2.1, ihno h.2.2⟩
  | whileAt look body ih => exact ⟨h.2.1.advances, ih h.2.2⟩
  | extend first rule rest ihfirst ihrest => exact ⟨ihfirst h.2.1, ihrest h.2.2⟩

section

variable {look : Lookahead} {rule : Token → Token → Option Rule} {accepts : Token → Bool}
  {wanted : String} {form first second : Form} {t : Token}

@[simp]
theorem advancesAt_token : (Form.token accepts wanted).AdvancesAt t := trivial

@[simp]
theorem advancesAt_refuse (cause : Token → SyntaxCause) : (Form.refuse cause).AdvancesAt t :=
  trivial

@[simp]
theorem advancesAt_deeper (construct : Construct) : (Form.deeper construct).AdvancesAt t := trivial

@[simp]
theorem advancesAt_seq :
    (Form.seq first second).AdvancesAt t ↔ first.AdvancesAt t ∨ second.AdvancesAt t :=
  .rfl

@[simp]
theorem advancesAt_ifAt : (Form.ifAt look first second).AdvancesAt t ↔
    ((∀ test ∈ look.head?, test t) → first.AdvancesAt t) ∧ second.AdvancesAt t :=
  .rfl

@[simp]
theorem advancesAt_node (rule : Rule) : (Form.node rule form).AdvancesAt t ↔ form.AdvancesAt t := by
  simp [node, AdvancesAt]

/-- A form that may be extended takes what it takes without that. -/
theorem advancesAt_extend (h : first.AdvancesAt t) : (Form.extend first rule second).AdvancesAt t :=
  .inl h

@[simp]
theorem fruitfulAt_empty : Form.empty.FruitfulAt t := trivial

@[simp]
theorem fruitfulAt_token : (Form.token accepts wanted).FruitfulAt t := trivial

@[simp]
theorem fruitfulAt_refuse (cause : Token → SyntaxCause) : (Form.refuse cause).FruitfulAt t :=
  trivial

@[simp]
theorem fruitfulAt_deeper (construct : Construct) : (Form.deeper construct).FruitfulAt t := trivial

@[simp]
theorem fruitfulAt_seq : (Form.seq first second).FruitfulAt t ↔
    first.FruitfulAt t ∧ ∀ t, second.FruitfulAt t :=
  .rfl

@[simp]
theorem fruitfulAt_ifAt : (Form.ifAt look first second).FruitfulAt t ↔
    ((∀ test ∈ look.head?, test t) → first.FruitfulAt t) ∧ second.FruitfulAt t :=
  .rfl

@[simp]
theorem fruitfulAt_whileAt : (Form.whileAt look form).FruitfulAt t ↔ ∀ t, form.FruitfulAt t := .rfl

@[simp]
theorem fruitfulAt_extend : (Form.extend first rule second).FruitfulAt t ↔
    first.FruitfulAt t ∧ (∀ t, second.FruitfulAt t) ∧ (first.AdvancesAt t ∨ second.AdvancesAt t) :=
  .rfl

@[simp]
theorem fruitfulAt_node (rule : Rule) : (Form.node rule form).FruitfulAt t ↔
    (∀ t, form.FruitfulAt t) ∧ form.AdvancesAt t := by
  simp [node, AdvancesAt]

@[simp]
theorem opens_refuse (cause : Token → SyntaxCause) : ¬ (Form.refuse cause).Opens := id

/-- What comes behind a token is not entered before a token is taken. -/
@[simp]
theorem opens_seq_token : ¬ (Form.seq (.token accepts wanted) second).Opens := by
  simp [Opens, Advances]

@[simp]
theorem opens_ifAt : (Form.ifAt look first second).Opens ↔ first.Opens ∨ second.Opens := .rfl

@[simp]
theorem opens_node (rule : Rule) : (Form.node rule form).Opens ↔ form.Opens := by
  have hempty : ¬ Form.empty.Advances := (· .eof)
  simp [node, Opens, hempty]

@[simp]
theorem advancesAt_commaList (h : form.AdvancesAt t) : (commaList form).AdvancesAt t := .inl h

@[simp]
theorem fruitfulAt_commaList (h : ∀ t, form.FruitfulAt t) : (commaList form).FruitfulAt t := by
  simp [commaList, symbol, h]

@[simp]
theorem advancesAt_parenthesized : (parenthesized form).AdvancesAt t := .inl trivial

@[simp]
theorem fruitfulAt_parenthesized (h : ∀ t, form.FruitfulAt t) :
    (parenthesized form).FruitfulAt t := by
  simp [parenthesized, all, symbol, h]

end

end Form

/-! ### Expressions -/

@[simp]
theorem columnName_advances (t : Token) : columnName.AdvancesAt t := by
  simp [columnName, Form.name]

@[simp]
theorem columnName_fruitful (t : Token) : columnName.FruitfulAt t := by
  simp [columnName, dotName, Form.name, Form.symbol]

@[simp]
theorem primary_advances (t : Token) : primary.AdvancesAt t := by
  simp [primary, columnOrAll, Form.name, Form.unexpected, Form.advancesAt_extend]

@[simp]
theorem primary_fruitful (t : Token) : primary.FruitfulAt t := by
  simp [primary, columnOrAll, dotName, Form.name, Form.symbol, Form.optional, Form.unexpected]

@[simp]
theorem unary_advances (t : Token) : unary.AdvancesAt t := by simp [unary]

@[simp]
theorem unary_fruitful (t : Token) : unary.FruitfulAt t := by simp [unary]

@[simp]
theorem product_advances (t : Token) : product.AdvancesAt t :=
  Form.advancesAt_extend (unary_advances t)

@[simp]
theorem product_fruitful (t : Token) : product.FruitfulAt t := by simp [product, deepChain]

@[simp]
theorem sum_advances (t : Token) : sum.AdvancesAt t := Form.advancesAt_extend (product_advances t)

@[simp]
theorem sum_fruitful (t : Token) : sum.FruitfulAt t := by simp [sum, deepChain]

theorem predicateTail_fruitful (t : Token) : predicateTail.FruitfulAt t := by
  simp [predicateTail, Form.all, Form.keyword, Form.optional]

theorem comparison_advances (t : Token) : comparison.AdvancesAt t :=
  Form.advancesAt_extend (sum_advances t)

theorem bitwise_advances (t : Token) : bitwise.AdvancesAt t :=
  Form.advancesAt_extend (comparison_advances t)

@[simp]
theorem negatable_advances (t : Token) : negatable.AdvancesAt t := by
  simp [negatable, bitwise_advances]

@[simp]
theorem negatable_fruitful (t : Token) : negatable.FruitfulAt t := by
  simp [negatable, bitwise, flatChain, comparison, predicateTail_fruitful, Form.advancesAt_extend]

theorem conjunction_advances (t : Token) : conjunction.AdvancesAt t :=
  Form.advancesAt_extend (negatable_advances t)

@[simp]
theorem expression_advances (t : Token) : expression.AdvancesAt t :=
  Form.advancesAt_extend (conjunction_advances t)

@[simp]
theorem expression_fruitful (t : Token) : expression.FruitfulAt t := by
  simp [expression, conjunction, flatChain, Form.advancesAt_extend]

/-! ### Queries -/

theorem alias?_fruitful (t : Token) : alias?.FruitfulAt t := by
  simp [alias?, Form.keyword, Form.name, Form.optional]

@[simp]
theorem aliasedTable_fruitful (t : Token) : aliasedTable.FruitfulAt t := by
  simp [aliasedTable, tableParts, dotName, alias?_fruitful, Form.name, Form.symbol, Form.optional]

@[simp]
theorem tableName_fruitful (t : Token) : tableName.FruitfulAt t := by
  simp [tableName, tableParts, dotName, Form.name, Form.symbol, Form.optional]

theorem tablePrimary_advances (t : Token) : tablePrimary.AdvancesAt t := by
  simp [tablePrimary, aliasedTable, tableParts, Form.name]

theorem tablePrimary_fruitful (t : Token) : tablePrimary.FruitfulAt t := by simp [tablePrimary]

theorem join_fruitful (t : Token) : join.FruitfulAt t := by
  simp [join, joinSide, tablePrimary, Form.all, Form.keyword, Form.optional]

theorem fromClause_fruitful (t : Token) : fromClause.FruitfulAt t := by
  simp [fromClause, tableSource, tablePrimary_advances, tablePrimary_fruitful, join_fruitful,
    Form.keyword]

@[simp]
theorem whereClause?_fruitful (t : Token) : whereClause?.FruitfulAt t := by
  simp [whereClause?, Form.keyword, Form.optional]

theorem selectList_fruitful (t : Token) : selectList.FruitfulAt t := by
  simp [selectList, selectItem, alias?_fruitful, Form.symbol]

theorem topClause_fruitful (t : Token) : topClause.FruitfulAt t := by
  simp [topClause, rowCount, Form.all, Form.word, Form.symbol, Form.optional]

theorem limitClause_fruitful (dialect : Dialect) (t : Token) :
    (limitClause dialect).FruitfulAt t := by
  simp only [limitClause, offset]
  split <;> simp [rowCount, Form.all, Form.keyword, Form.symbol, Form.optional]

theorem when_fruitful {available : Bool} {form : Form} {t : Token} (h : form.FruitfulAt t) :
    (when available form).FruitfulAt t := by
  cases available
  · trivial
  · exact h

@[simp]
theorem select_advances (dialect : Dialect) (t : Token) : (select dialect).AdvancesAt t := by
  simp [select, Form.all, Form.keyword]

@[simp]
theorem select_fruitful (dialect : Dialect) (t : Token) : (select dialect).FruitfulAt t := by
  simp [select, selectList_fruitful, fromClause_fruitful, topClause_fruitful, limitClause_fruitful,
    when_fruitful, groupByClause, havingClause, orderByClause, direction, Form.all, Form.keyword,
    Form.optional]

/-! ### Statements -/

theorem insert_fruitful (dialect : Dialect) (t : Token) : (insert dialect).FruitfulAt t := by
  simp [insert, valuesClause, Form.all, Form.keyword, Form.optional]

theorem update_fruitful (t : Token) : update.FruitfulAt t := by
  simp [update, assignment, Form.all, Form.keyword, Form.symbol]

theorem delete_fruitful (t : Token) : delete.FruitfulAt t := by
  simp [delete, Form.all, Form.keyword, Form.optional]

theorem dataType_fruitful (t : Token) : dataType.FruitfulAt t := by
  simp [dataType, timeZone?, Form.all, Form.word, Form.optional]

theorem columnProperty_fruitful (t : Token) : columnProperty.FruitfulAt t := by
  simp [columnProperty, Form.keyword, Form.word, Form.optional]

@[simp]
theorem columnDefinition_fruitful (t : Token) : columnDefinition.FruitfulAt t := by
  simp [columnDefinition, dataType_fruitful, columnProperty_fruitful, Form.all, Form.name,
    Form.word, Form.optional]

theorem tableElement_fruitful (t : Token) : tableElement.FruitfulAt t := by
  simp [tableElement, ifKey, constraintName?, Form.all, Form.keyword, Form.word, Form.name,
    Form.optional, Form.unexpected]

theorem create_fruitful (t : Token) : create.FruitfulAt t := by
  simp [create, createTable, createIndex, Form.all, Form.keyword, Form.name, Form.optional,
    Form.unexpected]

/-- What is not supported starts with a token that does not end the statement. -/
theorem restOfStatement_advances {t : Token}
    (h : isKeyword .DROP t = true ∨ isWordOf ["ADD", "RENAME"] t = true) :
    restOfStatement.AdvancesAt t := by
  refine ⟨⟨_, rfl, ?_⟩, trivial⟩
  cases t with
  | symbol | eof => simp [isKeyword, isWordOf, Token.isWord] at h
  | _ => rfl

theorem alterAction_advances (t : Token) : alterAction.AdvancesAt t := by
  simpa [alterAction, Form.all, Form.word, Form.keyword, Form.unexpected] using
    restOfStatement_advances

theorem alterAction_fruitful (t : Token) : alterAction.FruitfulAt t := by
  have hrest (t : Token) : restOfStatement.FruitfulAt t := by simp [restOfStatement]
  simpa [alterAction, hrest, Form.all, Form.word, Form.keyword, Form.optional,
    Form.unexpected] using restOfStatement_advances

theorem alterTable_fruitful (t : Token) : alterTable.FruitfulAt t := by
  simp [alterTable, alterAction_fruitful, alterAction_advances, Form.all, Form.keyword]

theorem showStatement_fruitful (t : Token) : showStatement.FruitfulAt t := by
  simp [showStatement, fromOrIn, databaseName, Form.all, Form.word, Form.name, Form.optional,
    Form.unexpected]

theorem dropTable_fruitful (t : Token) : dropTable.FruitfulAt t := by
  simp [dropTable, Form.all, Form.keyword, Form.optional]

theorem use_fruitful (t : Token) : use.FruitfulAt t := by
  simp [use, databaseName, Form.keyword, Form.name]

/-! ### Commands -/

theorem keysCommand_fruitful {rule : Rule} {verb : Form} (hfruitful : ∀ t, verb.FruitfulAt t)
    (hadvances : ∀ t, verb.AdvancesAt t) (t : Token) : (keysCommand rule verb).FruitfulAt t := by
  simp [keysCommand, status?, hfruitful, hadvances, Form.all, Form.word, Form.optional]

theorem columnCommand_fruitful (rule : Rule) (verb : String) (t : Token) :
    (columnCommand rule verb).FruitfulAt t := by
  simp [columnCommand, status?, Form.all, Form.word, Form.keyword, Form.optional]

theorem treeCommand_fruitful (rule : Rule) (verb : String) (t : Token) :
    (treeCommand rule verb).FruitfulAt t := by
  simp [treeCommand, stopClause, Form.all, Form.word, Form.optional]

theorem snapshotCommand_fruitful (verb : String) (tree schema : Rule) (t : Token) :
    (snapshotCommand verb tree schema).FruitfulAt t := by
  simp [snapshotCommand, Form.word, Form.unexpected]

theorem licenseCommand_fruitful (t : Token) : licenseCommand.FruitfulAt t := by
  simp [licenseCommand, Form.all, Form.word, Form.keyword, Form.optional, Form.unexpected]

/-! ### Whole statements and batches -/

theorem statement_fruitful (dialect : Dialect) (t : Token) : (statement dialect).FruitfulAt t := by
  simp [statement, startsKeyUpdate, bypass, insert_fruitful, update_fruitful, delete_fruitful,
    create_fruitful, alterTable_fruitful, showStatement_fruitful, dropTable_fruitful, use_fruitful,
    keysCommand_fruitful, columnCommand_fruitful, treeCommand_fruitful, snapshotCommand_fruitful,
    licenseCommand_fruitful, Form.word, Form.keyword, Form.unexpected]

/-- A statement starts with a word of its own. -/
theorem statement_starts (dialect : Dialect) :
    (statement dialect).Advances ∧ ¬ (statement dialect).Opens := by
  simp [Form.Advances, statement, showStatement, keysCommand, columnCommand, treeCommand,
    snapshotCommand, bypass, licenseCommand, select, insert, update, delete, create, createTable,
    createIndex, alterTable, dropTable, use, Form.all, Form.word, Form.keyword, Form.unexpected]

theorem semicolons_moves : semicolons.Moves := ⟨fun _ => trivial, rfl⟩

/-- A batch stops at the end of the text, and reads a statement in each round. -/
theorem batch_moves (dialect : Dialect) : (batch dialect).Moves :=
  ⟨semicolons_moves, fun t => .inl ((statement_starts dialect).1 t),
    (statement_plain dialect).moves, semicolons_moves, trivial⟩

theorem batch_fruitful (dialect : Dialect) : (batch dialect).Fruitful := by
  simp [Form.Fruitful, batch, semicolons, statement_fruitful, Form.symbol, Form.unexpected]

/-! ### Constructs -/

/-- A construct starts with a token of its own: a parenthesis, an operator or a word. -/
theorem bodies_starts (dialect : Dialect) (construct : Construct) :
    (bodies dialect construct).Advances ∧ ¬ (bodies dialect construct).Opens := by
  cases construct with
  | bypassed => exact statement_starts dialect
  | _ =>
    simp [Form.Advances, bodies, negationBody, signedBody, sumTailBody, productTailBody,
      deepChainTail, parenBody, subqueryBody, derivedTableBody, membersBody, valueRowBody,
      seedsBody, columnsBody, keyColumnsBody, tableElementsBody, typeArgumentsBody,
      countingArgumentsBody, flagsBody, argumentsBody, Form.all, Form.keyword, Form.symbol,
      Form.parenthesized]

theorem bodies_fruitful (dialect : Dialect) (construct : Construct) :
    (bodies dialect construct).Fruitful := by
  cases construct with
  | bypassed => exact statement_fruitful dialect
  | _ =>
    simp [Form.Fruitful, bodies, negationBody, signedBody, sumTailBody, productTailBody,
      deepChainTail, parenBody, subqueryBody, derivedTableBody, alias?_fruitful, membersBody,
      valueRowBody, seedsBody, columnsBody, keyColumnsBody, direction, tableElementsBody,
      tableElement_fruitful, typeArgumentsBody, countingArgumentsBody, flagsBody, argumentsBody,
      Form.all, Form.keyword, Form.symbol, Form.name, Form.optional]

end SqlFront.Grammar
