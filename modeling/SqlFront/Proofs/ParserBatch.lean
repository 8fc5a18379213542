import SqlFront.Proofs.Outcome
import SqlFront.Proofs.ParserSchema

/-!
The parser reads commands, changes of rows and whole batches as their forms do, at every level of
nesting.
-/

namespace SqlFront.Grammar

open SqlFront.Parser

variable {level : Level} {enter : Construct → Reader} {input : List Lexeme}

/-! ### Commands -/

theorem read_status? :
    Grammar.status?.read enter input = asTrees Option.toList (Parser.status?.run input) := by
  by_cases hword : (Grammar.current input).isWord "STATUS" = true
  · simp [Grammar.status?, Parser.status?, hword, run_accept_of hword, expectWord,
      run_expect_of hword, asTrees]
  · simp [Grammar.status?, Parser.status?, hword, run_accept_of_not hword, asTrees]

theorem read_destination? :
    (Form.optional [Token.isWord "TO"] (.node .destination
      (.seq (.word "TO") (.token isString "a destination string")))).read enter input =
      asTrees Option.toList (destination?.run input) := by
  by_cases hto : (Grammar.current input).isWord "TO" = true
  · simp [destination?, hto, run_accept_of hto, expectWord, run_expect_of hto,
      read_token isString _ rfl, asTrees]
  · simp [destination?, hto, run_accept_of_not hto, asTrees]

theorem read_keysCommand (rule : Rule) {test : Token → Bool} {wanted : String}
    (heof : test .eof = false) (hverb : test (Grammar.current input) = true) :
    (Grammar.keysCommand rule (.token test wanted)).read enter input =
      asTrees ([·]) ((Parser.keysCommand rule).run input) := by
  simp [-read_optional, Grammar.keysCommand, Parser.keysCommand, read_token test _ heof,
    run_expect_of hverb, read_destination?, read_status?, asTrees]

theorem read_columnCommand (h : level.Matches enter) (rule : Rule) {verb : String}
    (hverb : (Grammar.current input).isWord verb = true) :
    (Grammar.columnCommand rule verb).read enter input =
      asTrees ([·]) ((level.columnCommand rule).run input) := by
  simp [-read_optional, Grammar.columnCommand, Level.columnCommand, expectWord,
    run_expect_of hverb, read_columnName, read_flags? h, read_status?, asTrees]

theorem read_stopClause? :
    (Form.optional [Token.isWord "STOP"] stopClause).read enter input =
      asTrees Option.toList (stopClause?.run input) := by
  by_cases hstop : (Grammar.current input).isWord "STOP" = true
  · obtain ⟨stop, input, rfl⟩ := exists_cons_of_current rfl hstop
    by_cases hnow : (Grammar.current input).isWord "IMMEDIATE" = true
    · simp [stopClause, stopClause?, hstop, run_accept_of hstop, hnow, run_accept_of hnow,
        expectWord, run_expect_of hstop, run_expect_of hnow, asTrees]
    · simp [stopClause, stopClause?, hstop, run_accept_of hstop, hnow, run_accept_of_not hnow,
        expectWord, run_expect_of hstop, read_token isNumber _ rfl,
        read_token (isWordOf timeUnits) _ rfl, asTrees]
  · simp [stopClause?, hstop, run_accept_of_not hstop, asTrees]

theorem read_seeds (h : level.Matches enter) :
    (Form.deeper .seeds).read enter input =
      asTrees ([·]) ((level.parenthesized .expressionList (·.unary)).run input) :=
  read_parenthesized h _ rfl fun _ _ hdeep => hdeep.unary

theorem read_seedList? (h : level.Matches enter) :
    (Form.optional [Token.isWord "WITH"] (.node .seedList
      (.seq (.word "WITH") (.deeper .seeds)))).read enter input =
      asTrees Option.toList (level.seedList?.run input) := by
  by_cases hwith : (Grammar.current input).isWord "WITH" = true
  · simp [Level.seedList?, hwith, run_accept_of hwith, expectWord, run_expect_of hwith,
      read_seeds h, asTrees]
  · simp [Level.seedList?, hwith, run_accept_of_not hwith, asTrees]

theorem read_treeCommand (h : level.Matches enter) (rule : Rule) {verb : String}
    (hverb : (Grammar.current input).isWord verb = true) :
    (Grammar.treeCommand rule verb).read enter input =
      asTrees ([·]) ((level.treeCommand rule).run input) := by
  simp [-read_optional, Grammar.treeCommand, Level.treeCommand, expectWord, run_expect_of hverb,
    read_seedList? h, read_stopClause?, asTrees]

theorem read_snapshotCommand {verb : String} (tree schema : Rule)
    (hverb : (Grammar.current input).isWord verb = true) :
    (Grammar.snapshotCommand verb tree schema).read enter input =
      asTrees ([·]) ((Parser.snapshotCommand tree schema).run input) := by
  obtain ⟨word, input, rfl⟩ := exists_cons_of_current rfl hverb
  simp only [Grammar.snapshotCommand, read_ifAt_pair, hverb, Bool.true_and, List.tail_cons]
  by_cases htree : (Grammar.current input).isWord "OPETREE" = true
  · simp [Parser.snapshotCommand, htree, run_accept_of htree, expectWord, run_expect_of hverb,
      run_expect_of htree, asTrees]
  by_cases hschema : (Grammar.current input).isWord "SCHEMA" = true
  · simp [Parser.snapshotCommand, htree, run_accept_of_not htree, hschema, run_accept_of hschema,
      expectWord, run_expect_of hverb, run_expect_of hschema, asTrees]
  · simp [Parser.snapshotCommand, htree, run_accept_of_not htree, hschema,
      run_accept_of_not hschema, expectWord, run_expect_of hverb, asTrees]

theorem read_licenseCommand (hverb : (Grammar.current input).isWord "LICENSE" = true) :
    Grammar.licenseCommand.read enter input =
      asTrees ([·]) (Parser.licenseCommand.run input) := by
  obtain ⟨word, input, rfl⟩ := exists_cons_of_current rfl hverb
  simp only [Grammar.licenseCommand, read_ifAt_pair, hverb, Bool.true_and, List.tail_cons]
  by_cases hrefresh : (Grammar.current input).isWord "REFRESH" = true
  · simp [Parser.licenseCommand, hrefresh, run_accept_of hrefresh, expectWord,
      run_expect_of hverb, run_expect_of hrefresh, asTrees]
  by_cases hstatus : (Grammar.current input).isWord "STATUS" = true
  · simp [Parser.licenseCommand, hrefresh, run_accept_of_not hrefresh, hstatus,
      run_accept_of hstatus, expectWord, run_expect_of hverb, run_expect_of hstatus, asTrees]
  by_cases hset : isKeyword .SET (Grammar.current input) = true
  · simp only [hrefresh, Bool.false_eq_true, ↓reduceIte, hstatus, hset, read_node, read_all_cons,
      read_seq, read_word, asTrees, expectWord, run_expect_of hverb, run_advance, map_pure,
      read_keyword, expectKeyword, read_all_singleton, read_optional, bind_map_left,
      List.cons_append, List.nil_append, map_bind, Functor.map_map, pure_bind, run_expect_of hset,
      Parser.licenseCommand, bind_pure_comp, StateT.run_bind, run_accept_of_not hrefresh,
      run_accept_of_not hstatus, run_accept_of hset, run_current, run_ite, StateT.run_map,
      StateT.run_pure]
    refine bind_congr fun set => bind_congr fun word => ?_
    by_cases hkey : isString (Grammar.current word.2) = true
    · simp [hkey, read_token isString _ rfl, run_expect_of hkey, asTrees]
    · simp [hkey]
  · simp [Parser.licenseCommand, hrefresh, run_accept_of_not hrefresh, hstatus,
      run_accept_of_not hstatus, hset, run_accept_of_not hset, expectWord, run_expect_of hverb,
      asTrees]

/-! ### Changes of rows -/

theorem read_valueRow (h : level.Matches enter) :
    (Form.deeper .valueRow).read enter input = asTrees ([·]) (level.valueRow.run input) :=
  read_parenthesized h _ rfl fun _ _ hdeep => hdeep.expression

theorem read_insert (h : level.Matches enter)
    (hinsert : isKeyword .INSERT (Grammar.current input) = true) :
    (Grammar.insert level.dialect).read enter input =
      asTrees ([·]) (level.insert.run input) := by
  simp only [insert, read_node, read_all_cons, read_seq, read_keyword, asTrees, expectKeyword,
    run_expect_of hinsert, read_optionalKeyword, read_tableName,
    read_clause? fun _ => read_columns h, read_all_singleton, read_ifAt, bind_map_left, map_bind,
    Functor.map_map, List.cons_append, List.nil_append, Level.insert, List.append_assoc,
    bind_pure_comp, StateT.run_bind, run_current, run_ite, StateT.run_map, pure_bind]
  refine bind_congr fun word => bind_congr fun into => bind_congr fun table =>
    bind_congr fun columns => ?_
  by_cases hselect : isKeyword .SELECT (Grammar.current columns.2) = true
  · simp [hselect, read_select h, asTrees]
  · simp [hselect, valuesClause, expectKeyword, run_addItems fun _ => read_valueRow h, behind,
      asTrees]

theorem read_assignment (h : level.Matches enter) :
    Grammar.assignment.read enter input = asTrees ([·]) (level.assignment.run input) := by
  simp [Grammar.assignment, Level.assignment, read_columnName, read_expression h, asTrees]

theorem read_update (h : level.Matches enter)
    (hupdate : isKeyword .UPDATE (Grammar.current input) = true) :
    Grammar.update.read enter input = asTrees ([·]) (level.update.run input) := by
  simp [Grammar.update, Level.update, expectKeyword, run_expect_of hupdate, read_aliasedTable,
    run_addItems fun _ => read_assignment h, read_whereClause? h, behind, asTrees]

theorem read_delete (h : level.Matches enter)
    (hdelete : isKeyword .DELETE (Grammar.current input) = true) :
    Grammar.delete.read enter input = asTrees ([·]) (level.delete.run input) := by
  simp [Grammar.delete, Level.delete, expectKeyword, run_expect_of hdelete, read_aliasedTable,
    read_whereClause? h, asTrees]

/-! ### Statements -/

theorem read_bypass (h : level.Matches enter)
    (hverb : (Grammar.current input).isWord "BYPASS" = true) :
    Grammar.bypass.read enter input = asTrees ([·]) (level.bypass.run input) := by
  have inner (input : List Lexeme) : (Form.deeper .bypassed).read enter input =
      asTrees ([·]) ((level.nested (·.statement)).run input) :=
    read_deeper h _ fun _ _ hdeep => hdeep.statement input
  simp [Grammar.bypass, Level.bypass, expectWord, run_expect_of hverb, inner, asTrees]

theorem read_updateOrKeys (h : level.Matches enter) (other : Form) :
    (Form.ifAt startsKeyUpdate (Grammar.keysCommand .updateKeysStatement (.keyword .UPDATE))
      (.ifAt [isKeyword .UPDATE] Grammar.update other)).read enter input =
      if isKeyword .UPDATE (Grammar.current input) then
        asTrees ([·]) (level.updateOrKeys.run input)
      else other.read enter input := by
  have holds : startsKeyUpdate.holds input = (isKeyword .UPDATE (Grammar.current input) &&
      ((Grammar.current (input.drop 1)).isWord "KEYS" &&
        !isKeyword .SET (Grammar.current (input.drop 2)))) := by
    simp only [startsKeyUpdate, Lookahead.holds, Bool.and_true, ← List.drop_one, List.drop_drop]
  rw [Form.read, holds, read_ifAt]
  by_cases hupdate : isKeyword .UPDATE (Grammar.current input) = true
  · rw [if_pos hupdate, if_pos hupdate, hupdate, Bool.true_and]
    simp only [Level.updateOrKeys, StateT.run_bind, run_peek, pure_bind, run_ite]
    split
    · exact read_keysCommand .updateKeysStatement rfl hupdate
    · exact read_update h hupdate
  · simp [hupdate]

theorem read_choice {test : Bool} {yes no : Outcome}
    {yesMade noMade : Except Fault (Tree × List Lexeme)}
    (hyes : test = true → yes = asTrees ([·]) yesMade) (hno : no = asTrees ([·]) noMade) :
    (if test then yes else no) = asTrees ([·]) (if test then yesMade else noMade) := by
  split <;> simp_all

theorem read_statement (h : level.Matches enter) :
    (Grammar.statement level.dialect).read enter input =
      asTrees ([·]) (level.statement.run input) := by
  simp only [Grammar.statement, Level.statement, read_ifAt, read_updateOrKeys h, StateT.run_bind,
    run_current, pure_bind, run_ite]
  refine
    read_choice read_showStatement <|
    read_choice (read_keysCommand .exportKeysStatement rfl) <|
    read_choice (read_columnCommand h .encryptColumnStatement) <|
    read_choice (read_columnCommand h .decryptColumnStatement) <|
    read_choice (read_treeCommand h .rebuildOpetreeStatement) <|
    read_choice (read_treeCommand h .rebalanceOpetreeStatement) <|
    read_choice (read_snapshotCommand .saveOpetreeStatement .saveSchemaStatement) <|
    read_choice (read_snapshotCommand .loadOpetreeStatement .loadSchemaStatement) <|
    read_choice (read_bypass h) <|
    read_choice read_licenseCommand <|
    read_choice (fun _ => read_select h) <|
    read_choice (read_insert h) <|
    read_choice (fun _ => rfl) <|
    read_choice (read_delete h) <|
    read_choice (read_create h) <|
    read_choice (read_alterTable h) <|
    read_choice read_dropTable <|
    read_choice read_use ?_
  rfl

/-! ### Batches -/

theorem run_addSemicolons (enter : Construct → Reader) (parts : List Tree)
    (input : List Lexeme) :
    (addSemicolons parts).run input = behind parts (semicolons.read enter input) := by
  refine run_addAll (fun parts input hlook => ?_) (fun input hlook => ?_) parts input
  · rw [Lookahead.holds, Lookahead.holds, Bool.and_true] at hlook
    simp [partRound, run_accept_of hlook, expectSymbol, run_expect_of hlook, asTrees]
  · rw [Lookahead.holds, Lookahead.holds, Bool.and_true] at hlook
    simp [run_accept_of_not hlook]

theorem run_statementRound (h : level.Matches enter) (parts : List Tree) (input : List Lexeme) :
    (level.statementRound parts).run input =
      if Lookahead.holds [fun token => token != .eof] input then
        (fun made => (some (parts ++ made.1), made.2)) <$>
          (Form.seq (Grammar.statement level.dialect) (.ifAt [endsStatement] semicolons
            (.unexpected "';' or end of input"))).read enter input
      else pure (none, input) := by
  by_cases heof : Grammar.current input = .eof
  · simp [Level.statementRound, Lookahead.holds, heof]
  · simp only [Level.statementRound, beq_iff_eq, bind_pure_comp, StateT.run_bind, run_current,
      run_ite, StateT.run_pure, StateT.run_map, run_unexpected, pure_bind, heof, ↓reduceIte,
      Lookahead.holds, Bool.and_true, bne_iff_ne, ne_eq, not_false_eq_true, read_seq,
      read_statement h, asTrees, read_ifAt, read_unexpected, bind_map_left, List.cons_append,
      List.nil_append, map_bind, Functor.map_map]
    refine bind_congr fun statement => ?_
    by_cases hends : endsStatement (Grammar.current statement.2) = true
    · simp [hends, run_addSemicolons enter, behind]
    · simp [hends]

theorem read_batch (h : level.Matches enter) :
    (Form.node .batch (Grammar.batch level.dialect)).read enter input =
      asTrees ([·]) (level.batch.run input) := by
  simp [Grammar.batch, Level.batch, run_addSemicolons enter, run_repeated (run_statementRound h),
    behind, asTrees]

/-! ### Levels -/

theorem entered_matches (h : level.Matches enter) : level.entered.Matches level.dialect enter where
  expression _ := read_expression h
  negatable _ := read_negatable h
  unary _ := read_unary h
  sumTail parts _ hsign := run_deepRound h _ rfl (fun _ => read_product h)
    (fun _ _ hdeep => hdeep.sumTail) parts hsign
  productTail parts _ hsign := run_deepRound h _ rfl (fun _ => read_unary h)
    (fun _ _ hdeep => hdeep.productTail) parts hsign
  select _ := read_select h
  tableElement _ := read_tableElement h
  statement _ := read_statement h

@[simp]
theorem levels_dialect (dialect : Dialect) (limit left : Nat) :
    (levels dialect limit left).dialect = dialect := by
  cases left <;> rfl

/-- **Every level reads what its forms describe**: an induction on the levels that are left, where
each step settles one level by what is one level deeper. -/
theorem levels_matches (dialect : Dialect) (limit left : Nat) :
    (levels dialect limit left).Matches (Grammar.enter (bodies dialect) limit left) := by
  induction left with
  | zero => exact fun _ _ => rfl
  | succ left ih =>
    have deeper := entered_matches ih
    rw [levels_dialect] at deeper
    exact ⟨_, deeper, fun _ => rfl⟩

variable {dialect : Dialect} {limit : Nat}

/-- **The parser reads a batch as its form does**, and puts all that it reads under one node. -/
theorem readBatch_eq : readBatch dialect limit input =
    (fun made => Tree.ofParts .batch made.1) <$>
      readForm dialect limit (Grammar.batch dialect) input := by
  have hread : readForm dialect limit (.node .batch (Grammar.batch dialect)) input =
      asTrees ([·]) ((levels dialect limit limit).batch.run input) := by
    rw [readForm, ← read_batch (levels_matches dialect limit limit), levels_dialect]
  rw [readForm, read_node] at hread
  rw [readBatch, readForm]
  cases hrun : (levels dialect limit limit).batch.run input with
  | error fault =>
    rw [hrun] at hread
    rw [map_eq_error.mp hread]
    rfl
  | ok made =>
    rw [hrun] at hread
    obtain ⟨parts, hparts, heq⟩ := map_eq_ok.mp hread
    obtain ⟨htree, -⟩ : Tree.ofParts .batch parts.1 = made.1 ∧ parts.2 = made.2 := by
      simpa using heq
    rw [hparts]
    exact congrArg Except.ok htree.symm

/-- **The parser reads an expression as its form does.** -/
theorem readForm_expression : readForm dialect limit Grammar.expression input =
    asTrees ([·]) (readExpression dialect limit input) :=
  read_expression (levels_matches dialect limit limit)

theorem readExpression_eq_ok {tree : Tree} {rest : List Lexeme} :
    readExpression dialect limit input = .ok (tree, rest) ↔
      readForm dialect limit Grammar.expression input = .ok ([tree], rest) := by
  rw [readForm_expression]
  cases readExpression dialect limit input with
  | error fault => simp [asTrees, Functor.map, Except.map]
  | ok made => simp [asTrees, Functor.map, Except.map, Prod.ext_iff]

end SqlFront.Grammar
