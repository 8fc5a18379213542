import SqlFront.Proofs.Simulation

/-!
Every statement is read without a look beyond its end.

The tests of the grammar are plain one by one, and so are the forms that are made of them. The one
test that looks for a semicolon belongs to batches, not to statements.
-/

namespace SqlFront.Grammar

/-! ### Tests -/

namespace PlainTest

variable {first second : Token → Bool}

/-- A test that neither the end of a statement nor a placeholder passes. -/
theorem of_false {test : Token → Bool} (hlabel : ∀ label, test (.placeholder label) = false)
    (hsemicolon : test (.symbol .semicolon) = false) (heof : test .eof = false) :
    PlainTest test := by
  intro token
  unfold Token.role
  split
  · rw [hlabel, hlabel]
  · rw [heof, hsemicolon]
  · rfl

@[simp]
theorem or (hfirst : PlainTest first) (hsecond : PlainTest second) :
    PlainTest fun token => first token || second token := by
  intro token
  exact congrArg₂ _ (hfirst token) (hsecond token)

@[simp]
theorem not (hfirst : PlainTest first) : PlainTest fun token => !first token := by
  intro token
  exact congrArg _ (hfirst token)

@[simp]
theorem any {α : Type} {test : α → Token → Bool} (h : ∀ item, PlainTest (test item))
    (items : List α) : PlainTest fun token => items.any (test · token) := by
  intro token
  simp only [h _ token]

@[simp]
theorem keyword (k : Keyword) : PlainTest (isKeyword k) := of_false (fun _ => rfl) rfl rfl

@[simp]
theorem symbol {s : Symbol} (h : s ≠ .semicolon) : PlainTest (isSymbol s) :=
  of_false (fun _ => rfl) (by simpa [isSymbol] using h.symm) rfl

@[simp]
theorem word (text : String) : PlainTest (Token.isWord text) := of_false (fun _ => rfl) rfl rfl

@[simp]
theorem oneOf (keywords : List Keyword) : PlainTest (isOneOf keywords) := any keyword keywords

@[simp]
theorem wordOf (words : List String) : PlainTest (isWordOf words) := any word words

@[simp]
theorem name : PlainTest Token.isName := of_false (fun _ => rfl) rfl rfl

@[simp]
theorem plainName : PlainTest isPlainName := of_false (fun _ => rfl) rfl rfl

@[simp]
theorem number : PlainTest isNumber := of_false (fun _ => rfl) rfl rfl

@[simp]
theorem string : PlainTest isString := of_false (fun _ => rfl) rfl rfl

@[simp]
theorem literal : PlainTest isLiteral := of_false (fun _ => rfl) rfl rfl

@[simp]
theorem sign : PlainTest isSign := of_false (fun _ => rfl) rfl rfl

@[simp]
theorem productSign : PlainTest isProductSign := of_false (fun _ => rfl) rfl rfl

@[simp]
theorem bitwiseSign : PlainTest isBitwiseSign := of_false (fun _ => rfl) rfl rfl

@[simp]
theorem comparisonSign : PlainTest isComparisonSign := of_false (fun _ => rfl) rfl rfl

@[simp]
theorem placeholder : PlainTest isPlaceholder := by
  intro token
  unfold Token.role
  split <;> rfl

@[simp]
theorem ends : PlainTest endsStatement := by
  intro token
  unfold Token.role
  split <;> rfl

end PlainTest

@[simp]
theorem isKeyword_eof (k : Keyword) : isKeyword k .eof = false := rfl

@[simp]
theorem isSymbol_eof (s : Symbol) : isSymbol s .eof = false := rfl

@[simp]
theorem isWord_eof (text : String) : Token.isWord text .eof = false := rfl

@[simp]
theorem isOneOf_eof (keywords : List Keyword) : isOneOf keywords .eof = false := by
  simp [isOneOf]

@[simp]
theorem isWordOf_eof (words : List String) : isWordOf words .eof = false := by
  simp [isWordOf]

@[simp]
theorem isName_eof : Token.isName .eof = false := rfl

@[simp]
theorem isPlainName_eof : isPlainName .eof = false := rfl

@[simp]
theorem isNumber_eof : isNumber .eof = false := rfl

@[simp]
theorem isString_eof : isString .eof = false := rfl

@[simp]
theorem isPlaceholder_eof : isPlaceholder .eof = false := rfl

@[simp]
theorem isLiteral_eof : isLiteral .eof = false := rfl

@[simp]
theorem isSign_eof : isSign .eof = false := rfl

@[simp]
theorem isComparisonSign_eof : isComparisonSign .eof = false := rfl

@[simp]
theorem endsStatement_eof : endsStatement .eof = true := rfl

@[simp]
theorem current_nil : current [] = .eof := rfl

/-! ### Choices of a production -/

namespace PlainRule

@[simp]
theorem always (rule : Rule) : PlainRule fun _ _ => some rule := ⟨fun _ _ => rfl, fun _ => rfl⟩

@[simp]
theorem when {test : Token → Bool} (h : PlainTest test) (rule : Rule) :
    PlainRule (whenAt test rule) where
  role token next := by rw [whenAt, whenAt, h token]
  ends _ := rfl

@[simp]
theorem allColumns : PlainRule fun token _ =>
    some (if isSymbol .dot token then .allColumns else .columnName) where
  role token next := by rw [PlainTest.symbol (by simp) token]
  ends _ := rfl

theorem predicateOf?_role (token : Token) : predicateOf? token.role = predicateOf? token := by
  unfold Token.role
  split <;> rfl

@[simp]
theorem predicate : PlainRule predicateRule where
  role token next := by
    have hnext := predicateOf?_role next
    cases token with
    | symbol sign => cases sign <;> rfl
    | keyword word =>
      cases word with
      | NOT => exact hnext
      | _ => rfl
    | _ => rfl
  ends _ := rfl

end PlainRule

/-! ### Forms made of others -/

section

variable {look : Lookahead} {rule : Token → Token → Option Rule} {accepts : Token → Bool}
  {wanted : String} {form first second : Form}

@[simp]
theorem plain_single (test : Token → Bool) : Lookahead.Plain [test] ↔ PlainTest test := .rfl

@[simp]
theorem plain_cons_cons (test next : Token → Bool) (tests : List (Token → Bool)) :
    Lookahead.Plain (test :: next :: tests) ↔
      (PlainTest test ∧ test .eof = false) ∧ Lookahead.Plain (next :: tests) :=
  .rfl

namespace Form

@[simp]
theorem plain_empty : Form.empty.Plain := trivial

@[simp]
theorem plain_refuse (cause : Token → SyntaxCause) : (Form.refuse cause).Plain := trivial

@[simp]
theorem plain_unexpected : (Form.unexpected wanted).Plain := trivial

@[simp]
theorem plain_deeper (construct : Construct) : (Form.deeper construct).Plain := trivial

@[simp]
theorem plain_token :
    (Form.token accepts wanted).Plain ↔ PlainTest accepts ∧ accepts .eof = false :=
  .rfl

@[simp]
theorem plain_seq : (Form.seq first second).Plain ↔ first.Plain ∧ second.Plain := .rfl

@[simp]
theorem plain_ifAt :
    (Form.ifAt look first second).Plain ↔ look.Plain ∧ first.Plain ∧ second.Plain :=
  .rfl

@[simp]
theorem plain_whileAt : (Form.whileAt look form).Plain ↔
    (look.Plain ∧ look.holds [] = false) ∧ form.Consumes ∧ form.Plain :=
  .rfl

@[simp]
theorem plain_extend : (Form.extend first rule second).Plain ↔
    PlainRule rule ∧ first.Plain ∧ second.Plain :=
  .rfl

@[simp]
theorem plain_optional : (Form.optional look form).Plain ↔ look.Plain ∧ form.Plain := by
  simp [optional]

@[simp]
theorem plain_node (rule : Rule) : (Form.node rule form).Plain ↔ form.Plain := by
  simp [node]

@[simp]
theorem plain_keyword (k : Keyword) : (Form.keyword k).Plain := ⟨PlainTest.keyword k, rfl⟩

@[simp]
theorem plain_symbol {s : Symbol} (h : s ≠ .semicolon) : (Form.symbol s).Plain :=
  ⟨PlainTest.symbol h, rfl⟩

@[simp]
theorem plain_word (text : String) : (Form.word text).Plain := ⟨PlainTest.word text, rfl⟩

@[simp]
theorem plain_name : Form.name.Plain := ⟨PlainTest.name, rfl⟩

@[simp]
theorem consumes_token : (Form.token accepts wanted).Consumes := trivial

@[simp]
theorem consumes_keyword (k : Keyword) : (Form.keyword k).Consumes := trivial

@[simp]
theorem consumes_symbol (s : Symbol) : (Form.symbol s).Consumes := trivial

@[simp]
theorem consumes_word (text : String) : (Form.word text).Consumes := trivial

@[simp]
theorem consumes_seq : (Form.seq first second).Consumes ↔ first.Consumes ∨ second.Consumes := .rfl

@[simp]
theorem consumes_ifAt : (Form.ifAt look first second).Consumes ↔
    first.Consumes ∧ second.Consumes :=
  .rfl

@[simp]
theorem consumes_node (rule : Rule) : (Form.node rule form).Consumes ↔ form.Consumes := by
  simp [node, Consumes]

@[simp]
theorem plain_commaList : (Form.commaList form).Plain ↔ form.Plain := by
  have hcomma : PlainTest (· == .symbol .comma) := PlainTest.symbol (by simp)
  simp [commaList, hcomma]

@[simp]
theorem plain_parenthesized : (Form.parenthesized form).Plain ↔ form.Plain := by
  simp [parenthesized, all]

end Form

end

/-! ### Names -/

@[simp]
theorem dotName_plain : dotName.Plain := by simp [dotName]

@[simp]
theorem alias?_plain : alias?.Plain := by simp [alias?]

@[simp]
theorem tableParts_plain : tableParts.Plain := by simp [tableParts]

@[simp]
theorem tableName_plain : tableName.Plain := by simp [tableName]

@[simp]
theorem aliasedTable_plain : aliasedTable.Plain := by simp [aliasedTable]

@[simp]
theorem columnName_plain : columnName.Plain := by simp [columnName, dotName]

@[simp]
theorem columnOrAll_plain : columnOrAll.Plain := by simp [columnOrAll, dotName, Lookahead.holds]

@[simp]
theorem direction_plain : direction.Plain := by simp [direction]

/-! ### Expressions -/

theorem flatChain_plain {rule : Rule} {isOperator : Token → Bool} {operand : Form}
    (htest : PlainTest isOperator) (heof : isOperator .eof = false) (h : operand.Plain) :
    (flatChain rule isOperator operand).Plain := by
  simp [flatChain, htest, heof, h]

theorem deepChain_plain {rule : Rule} {isOperator : Token → Bool} {operand : Form}
    {tail : Construct} (htest : PlainTest isOperator) (h : operand.Plain) :
    (deepChain rule isOperator operand tail).Plain := by
  simp [deepChain, htest, h]

theorem deepChainTail_plain {isOperator : Token → Bool} {operand : Form} {tail : Construct}
    (htest : PlainTest isOperator) (heof : isOperator .eof = false) (h : operand.Plain) :
    (deepChainTail isOperator operand tail).Plain := by
  simp [deepChainTail, Form.all, htest, heof, h]

@[simp]
theorem primary_plain : primary.Plain := by
  simp [primary]

@[simp]
theorem unary_plain : unary.Plain := by simp [unary]

@[simp]
theorem product_plain : product.Plain := deepChain_plain .productSign unary_plain

@[simp]
theorem sum_plain : sum.Plain := deepChain_plain .sign product_plain

@[simp]
theorem predicateTail_plain : predicateTail.Plain := by
  simp [predicateTail, Form.all]

@[simp]
theorem comparison_plain : comparison.Plain := by simp [comparison]

@[simp]
theorem bitwise_plain : bitwise.Plain := flatChain_plain .bitwiseSign rfl comparison_plain

@[simp]
theorem negatable_plain : negatable.Plain := by simp [negatable]

@[simp]
theorem conjunction_plain : conjunction.Plain := flatChain_plain (.keyword _) rfl negatable_plain

@[simp]
theorem expression_plain : expression.Plain := flatChain_plain (.keyword _) rfl conjunction_plain

@[simp]
theorem argumentsBody_plain : argumentsBody.Plain := by simp [argumentsBody, Form.all]

/-! ### Queries -/

@[simp]
theorem rowCount_plain : rowCount.Plain := by simp [rowCount]

@[simp]
theorem topClause_plain : topClause.Plain := by simp [topClause, Form.all]

@[simp]
theorem selectItem_plain : selectItem.Plain := by simp [selectItem]

@[simp]
theorem tablePrimary_plain : tablePrimary.Plain := by simp [tablePrimary]

@[simp]
theorem joinSide_plain : joinSide.Plain := by simp [joinSide]

@[simp]
theorem join_plain : join.Plain := by simp [join, Form.all]

theorem join_consumes : join.Consumes := by simp [join, Form.all]

@[simp]
theorem tableSource_plain : tableSource.Plain := by
  simp [tableSource, startsJoin, join_consumes]

@[simp]
theorem fromClause_plain : fromClause.Plain := by simp [fromClause]

@[simp]
theorem whereClause?_plain : whereClause?.Plain := by simp [whereClause?]

@[simp]
theorem groupByClause_plain : groupByClause.Plain := by simp [groupByClause, Form.all]

@[simp]
theorem havingClause_plain : havingClause.Plain := by simp [havingClause]

@[simp]
theorem orderByClause_plain : orderByClause.Plain := by simp [orderByClause, Form.all]

@[simp]
theorem when_plain {available : Bool} {form : Form} (h : form.Plain) :
    (when available form).Plain := by
  cases available
  · trivial
  · exact h

@[simp]
theorem limitClause_plain (dialect : Dialect) : (limitClause dialect).Plain := by
  simp only [limitClause, offset]
  split <;> simp [Form.all]

@[simp]
theorem select_plain (dialect : Dialect) : (select dialect).Plain := by
  simp [select, selectList, Form.all]

/-! ### Statements that change rows -/

@[simp]
theorem insert_plain (dialect : Dialect) : (insert dialect).Plain := by
  simp [insert, valuesClause, Form.all]

@[simp]
theorem update_plain : update.Plain := by simp [update, assignment, Form.all]

@[simp]
theorem delete_plain : delete.Plain := by simp [delete, Form.all]

/-! ### Statements that define tables -/

@[simp]
theorem dataType_plain : dataType.Plain := by
  simp [dataType, timeZone?, Form.all]

@[simp]
theorem columnProperty_plain : columnProperty.Plain := by simp [columnProperty]

theorem columnProperty_consumes : columnProperty.Consumes := by simp [columnProperty]

@[simp]
theorem columnDefinition_plain : columnDefinition.Plain := by
  have hstarts : PlainTest startsProperty := .or (.oneOf _) (.wordOf _)
  simp [columnDefinition, Form.all, hstarts, startsProperty, columnProperty_consumes]

@[simp]
theorem constraintName?_plain : constraintName?.Plain := by simp [constraintName?]

@[simp]
theorem ifKey_plain (k : Keyword) {yes no : Form} (hyes : yes.Plain) (hno : no.Plain) :
    (ifKey k yes no).Plain := by
  simp [ifKey, hyes, hno]

@[simp]
theorem tableElement_plain : tableElement.Plain := by simp [tableElement, Form.all]

@[simp]
theorem create_plain : create.Plain := by simp [create, createTable, createIndex, Form.all]

@[simp]
theorem restOfStatement_plain : restOfStatement.Plain := by
  simp [restOfStatement]

@[simp]
theorem alterTable_plain : alterTable.Plain := by simp [alterTable, alterAction, Form.all]

@[simp]
theorem dropTable_plain : dropTable.Plain := by simp [dropTable, Form.all]

@[simp]
theorem databaseName_plain : databaseName.Plain := by simp [databaseName]

@[simp]
theorem use_plain : use.Plain := by simp [use]

@[simp]
theorem showStatement_plain : showStatement.Plain := by simp [showStatement, fromOrIn, Form.all]

/-! ### Commands -/

@[simp]
theorem status?_plain : status?.Plain := by simp [status?]

@[simp]
theorem keysCommand_plain {rule : Rule} {verb : Form} (h : verb.Plain) :
    (keysCommand rule verb).Plain := by
  simp [keysCommand, Form.all, h]

@[simp]
theorem columnCommand_plain (rule : Rule) (verb : String) : (columnCommand rule verb).Plain := by
  simp [columnCommand, Form.all]

@[simp]
theorem stopClause_plain : stopClause.Plain := by simp [stopClause, Form.all]

@[simp]
theorem treeCommand_plain (rule : Rule) (verb : String) : (treeCommand rule verb).Plain := by
  simp [treeCommand, Form.all]

@[simp]
theorem snapshotCommand_plain (verb : String) (tree schema : Rule) :
    (snapshotCommand verb tree schema).Plain := by
  simp [snapshotCommand]

@[simp]
theorem licenseCommand_plain : licenseCommand.Plain := by
  simp [licenseCommand, Form.all]

/-! ### Any statement -/

/-- **No statement is read with a look beyond its end.** -/
theorem statement_plain (dialect : Dialect) : (statement dialect).Plain := by
  simp [statement, startsKeyUpdate, bypass]

theorem bodies_plain (dialect : Dialect) (construct : Construct) :
    (bodies dialect construct).Plain := by
  cases construct with
  | sumTail => exact deepChainTail_plain .sign rfl product_plain
  | productTail => exact deepChainTail_plain .productSign rfl unary_plain
  | bypassed => exact statement_plain dialect
  | _ =>
    simp [bodies, negationBody, signedBody, parenBody, subqueryBody, derivedTableBody, membersBody,
      valueRowBody, seedsBody, columnsBody, keyColumnsBody, tableElementsBody, typeArgumentsBody,
      countingArgumentsBody, flagsBody, Form.all]

/-- **A plain form is read in the same way where more levels are left.** -/
theorem readForm_simulates {P : Lexeme → Lexeme → Prop} (hP : KeepsToken P) {dialect : Dialect}
    {levels levels' : Nat} (hlevels : levels ≤ levels') {form : Form} (h : form.Plain) :
    Simulates P (readForm dialect levels form) (readForm dialect levels' form) :=
  read_simulates hP (enter_keeps _ _ _) (enter_simulates hP (bodies_plain dialect) hlevels) h

end SqlFront.Grammar
