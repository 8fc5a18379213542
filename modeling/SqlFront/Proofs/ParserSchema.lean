import SqlFront.Proofs.ParserQueries

/-!
The parser reads the statements on tables and databases as their forms do.
-/

namespace SqlFront.Grammar

open SqlFront.Parser

variable {level : Level} {enter : Construct → Reader} {input : List Lexeme}

/-! ### Columns -/

theorem exists_cons_of_current {test : Token → Bool} (heof : test .eof = false)
    (h : test (Grammar.current input) = true) : ∃ lexeme rest, input = lexeme :: rest := by
  cases input with
  | nil => cases heof.symm.trans h
  | cons lexeme rest => exact ⟨lexeme, rest, rfl⟩

theorem read_typeArguments (h : level.Matches enter) :
    (Form.deeper .typeArguments).read enter input =
      asTrees ([·]) ((level.parenthesized .typeArguments fun _ =>
        expect (fun token => isNumber token || isString token || token.isWord "MAX")
          "a type argument").run input) :=
  read_parenthesized h _ rfl fun _ _ _ _ => read_token _ _ rfl

theorem read_countingArguments (h : level.Matches enter) :
    (Form.deeper .countingArguments).read enter input =
      asTrees ([·]) ((level.parenthesized .typeArguments fun _ =>
        expect isNumber "a number").run input) :=
  read_parenthesized h _ rfl fun _ _ _ _ => read_token _ _ rfl

theorem read_flags (h : level.Matches enter) :
    (Form.deeper .flags).read enter input = asTrees ([·]) (level.flagList.run input) :=
  read_parenthesized h _ rfl fun _ _ _ _ => read_name

theorem read_columns (h : level.Matches enter) :
    (Form.deeper .columns).read enter input = asTrees ([·]) ((level.columnList false).run input) :=
  read_parenthesized h _ rfl fun _ _ _ _ => by simp [read_columnName, asTrees]

theorem read_keyColumns (h : level.Matches enter) :
    (Form.deeper .keyColumns).read enter input =
      asTrees ([·]) ((level.columnList true).run input) :=
  read_parenthesized h _ rfl fun _ _ _ _ => by simp [read_columnName, read_direction, asTrees]

/-- A time zone, of which the first three tokens are looked at. -/
theorem read_timeZone? : timeZone?.read enter input =
    if isWordOf ["WITH", "WITHOUT"] (Grammar.current input) &&
        ((Grammar.current (input.drop 1)).isWord "TIME" &&
          (Grammar.current (input.drop 2)).isWord "ZONE") then
      (Form.all [.token (isWordOf ["WITH", "WITHOUT"]) "a time zone", .word "TIME",
        .word "ZONE"]).read enter input
    else pure ([], input) := by
  simp only [timeZone?, Form.optional, Form.read, Lookahead.holds, Bool.and_true, ← List.drop_one,
    List.drop_drop]
  rfl

theorem run_addTimeZone (enter : Construct → Reader) (parts : List Tree) (input : List Lexeme) :
    (addTimeZone parts).run input = behind parts (timeZone?.read enter input) := by
  rw [read_timeZone?]
  simp only [addTimeZone, StateT.run_bind, run_peek, run_current, pure_bind, run_ite]
  by_cases hzone : (isWordOf ["WITH", "WITHOUT"] (Grammar.current input) &&
      ((Grammar.current (input.drop 1)).isWord "TIME" &&
        (Grammar.current (input.drop 2)).isWord "ZONE")) = true
  · rw [if_pos hzone, if_pos hzone]
    simp only [Bool.and_eq_true] at hzone
    obtain ⟨hwith, htime, hname⟩ := hzone
    obtain ⟨first, rest, rfl⟩ := exists_cons_of_current rfl hwith
    obtain ⟨time, rest, rfl⟩ := exists_cons_of_current rfl htime
    simp only [List.drop_succ_cons, List.drop_zero] at htime hname
    simp [read_token (isWordOf ["WITH", "WITHOUT"]) _ rfl, run_expect_of hwith, expectWord,
      run_expect_of htime, run_expect_of hname, asTrees, behind]
  · rw [if_neg hzone, if_neg hzone]
    simp [behind]

theorem read_dataType (h : level.Matches enter) :
    Grammar.dataType.read enter input = asTrees ([·]) (level.dataType.run input) := by
  have zone (parts : List Tree) (input : List Lexeme) := run_addTimeZone enter parts input
  simp [-read_optional, Grammar.dataType, Level.dataType,
    read_token (fun token => isPlainName token || isKeyword .SET token) _ rfl,
    read_optionalToken (isWordOf ["PRECISION", "VARYING"]) _ rfl, zone, behind,
    read_clause? fun _ => read_typeArguments h, asTrees]

theorem read_flags? (h : level.Matches enter) :
    (Form.optional [Token.isWord "FOR"] (.seq (.word "FOR") (.deeper .flags))).read enter input =
      level.flags?.run input := by
  by_cases hfor : (Grammar.current input).isWord "FOR" = true
  · simp [Level.flags?, hfor, run_accept_of hfor, expectWord, run_expect_of hfor, read_flags h,
      asTrees]
  · simp [Level.flags?, hfor, run_accept_of_not hfor]

theorem startsProperty_eq (token : Token) : startsProperty token =
    (isKeyword .NOT token || isKeyword .NULL token || isKeyword .PRIMARY token ||
      isKeyword .UNIQUE token || isKeyword .DEFAULT token ||
      isWordOf ["AUTO_INCREMENT", "AUTOINCREMENT"] token || token.isWord "IDENTITY" ||
      token.isWord "ENCRYPTED") := by
  simp [startsProperty, isOneOf, isWordOf, Bool.or_assoc]

theorem not_isWord_of_isWordOf {words : List String} {token : Token} {other : String}
    (hother : ∀ word ∈ words, sameWord word other = false) (h : isWordOf words token = true) :
    token.isWord other = false := by
  obtain ⟨word, hword, hsame⟩ := List.any_eq_true.mp h
  rw [Token.isWord_eq_sameWord hsame, hother word hword]

/-- A property, where one starts. -/
theorem run_columnProperty (h : level.Matches enter) (parts : List Tree)
    (hstarts : startsProperty (Grammar.current input) = true) :
    (partRound level.columnProperty? parts).run input =
      (fun made => (some (parts ++ made.1), made.2)) <$> columnProperty.read enter input := by
  simp only [partRound, Level.columnProperty?, columnProperty, read_ifAt, StateT.run_bind,
    run_current, pure_bind, run_ite]
  by_cases hnot : isKeyword .NOT (Grammar.current input) = true
  · simp [hnot, expectKeyword, run_expect_of hnot, asTrees]
  by_cases hnull : isKeyword .NULL (Grammar.current input) = true
  · simp [hnot, hnull, expectKeyword, run_expect_of hnull, asTrees]
  by_cases hprimary : isKeyword .PRIMARY (Grammar.current input) = true
  · simp [hnot, hnull, hprimary, expectKeyword, run_expect_of hprimary, asTrees]
  by_cases hunique : isKeyword .UNIQUE (Grammar.current input) = true
  · simp [hnot, hnull, hprimary, hunique, expectKeyword, run_expect_of hunique, asTrees]
  by_cases hdefault : isKeyword .DEFAULT (Grammar.current input) = true
  · simp [hnot, hnull, hprimary, hunique, hdefault, expectKeyword, run_expect_of hdefault,
      read_unary h, asTrees]
  rw [if_neg hnot, if_neg hnull, if_neg hprimary, if_neg hunique, if_neg hdefault, if_neg hnot,
    if_neg hnull, if_neg hprimary, if_neg hunique, if_neg hdefault]
  by_cases hauto : isWordOf ["AUTO_INCREMENT", "AUTOINCREMENT"] (Grammar.current input) = true
  · have notIdentity : (Grammar.current input).isWord "IDENTITY" = false :=
      not_isWord_of_isWordOf (by decide) hauto
    have notEncrypted : (Grammar.current input).isWord "ENCRYPTED" = false :=
      not_isWord_of_isWordOf (by decide) hauto
    simp [hauto, notIdentity, notEncrypted,
      read_token (isWordOf ["AUTO_INCREMENT", "AUTOINCREMENT"]) _ rfl, run_expect_of hauto,
      asTrees]
  by_cases hidentity : (Grammar.current input).isWord "IDENTITY" = true
  · simp [-read_optional, hauto, hidentity, expectWord, run_expect_of hidentity,
      read_clause? fun _ => read_countingArguments h, asTrees]
  by_cases hencrypted : (Grammar.current input).isWord "ENCRYPTED" = true
  · simp [-read_optional, hauto, hidentity, hencrypted, expectWord, run_expect_of hencrypted,
      read_flags? h, asTrees]
  · simp [startsProperty_eq, hnot, hnull, hprimary, hunique, hdefault, hauto, hidentity,
      hencrypted] at hstarts

theorem run_columnProperties (h : level.Matches enter) (parts : List Tree) (input : List Lexeme) :
    (addAll level.columnProperty? parts).run input =
      behind parts ((Form.whileAt [startsProperty] columnProperty).read enter input) := by
  refine run_addAll (fun parts input hlook => ?_) (fun input hlook => ?_) parts input
  · rw [Lookahead.holds, Lookahead.holds, Bool.and_true] at hlook
    exact run_columnProperty h parts hlook
  · rw [Lookahead.holds, Lookahead.holds, Bool.and_true] at hlook
    simp only [startsProperty_eq, Bool.or_eq_true, not_or] at hlook
    simp [Level.columnProperty?, hlook]

theorem run_columnBehind (h : level.Matches enter) (name : Tree) (input : List Lexeme) :
    (level.columnBehind name).run input =
      (fun made => (.ofParts .columnDefinition (name :: made.1), made.2)) <$>
        (Form.all [.optional [Token.isWord "TYPE"] (.word "TYPE"), Grammar.dataType,
          .whileAt [startsProperty] columnProperty]).read enter input := by
  simp [Level.columnBehind, read_dataType h, run_columnProperties h, behind, asTrees]

theorem read_columnDefinition (h : level.Matches enter) :
    Grammar.columnDefinition.read enter input =
      asTrees ([·]) (level.columnDefinition.run input) := by
  simp only [Grammar.columnDefinition, Level.columnDefinition, read_node, read_all_cons, read_seq,
    read_name, StateT.run_bind, run_columnBehind h, asTrees]
  simp

/-! ### Tables -/

/-- Without a name in front of it, a key starts with its own word. -/
theorem read_ifKey (k : Keyword) (yes no : Form)
    (hunnamed : ¬(Grammar.current input).isWord "CONSTRAINT" = true) :
    (ifKey k yes no).read enter input =
      if isKeyword k (Grammar.current input) then yes.read enter input
      else no.read enter input := by
  simp [ifKey, Form.read, Lookahead.holds, hunnamed]

/-- The name of a key stands in front of its word. -/
theorem read_ifKey_named (k : Keyword) (yes no : Form) {word : Lexeme}
    (hword : (Grammar.current (word :: input)).isWord "CONSTRAINT" = true) :
    (ifKey k yes no).read enter (word :: input) =
      if (Grammar.current input).isName && isKeyword k (Grammar.current input.tail) then
        yes.read enter (word :: input)
      else no.read enter (word :: input) := by
  have other : isKeyword k (Grammar.current (word :: input)) = false := by
    cases htoken : Grammar.current (word :: input) with
    | name text => rfl
    | _ => rw [htoken] at hword; cases hword
  simp [ifKey, Form.read, Lookahead.holds, hword, other]

theorem read_constraintName? : constraintName?.read enter input = keyName.run input := by
  by_cases hword : (Grammar.current input).isWord "CONSTRAINT" = true
  · simp [constraintName?, keyName, hword, run_accept_of hword, expectWord, run_expect_of hword,
      asTrees]
  · simp [constraintName?, keyName, hword, run_accept_of_not hword]

theorem run_keyName_none (hunnamed : ¬(Grammar.current input).isWord "CONSTRAINT" = true) :
    keyName.run input = pure ([], input) := by
  simp [keyName, run_accept_of_not hunnamed]

theorem run_keyName {word : Lexeme}
    (hword : (Grammar.current (word :: input)).isWord "CONSTRAINT" = true) :
    keyName.run (word :: input) =
      (fun made => ([.leaf word, made.1], made.2)) <$> expectName.run input := by
  simp [keyName, run_accept_of hword]

theorem read_tableElement (h : level.Matches enter) :
    Grammar.tableElement.read enter input = asTrees ([·]) (level.tableElement.run input) := by
  by_cases hword : (Grammar.current input).isWord "CONSTRAINT" = true
  · obtain ⟨word, input, rfl⟩ := exists_cons_of_current rfl hword
    simp only [Grammar.tableElement, read_ifKey_named _ _ _ hword]
    by_cases hname : (Grammar.current input).isName = true
    · obtain ⟨name, input, rfl⟩ := exists_cons_of_current rfl hname
      simp only [List.tail_cons]
      by_cases hprimary : isKeyword .PRIMARY (Grammar.current input) = true
      · simp [hname, hprimary, Level.tableElement, read_constraintName?, run_keyName hword,
          expectName, run_expect_of hname, expectKeyword, run_expect_of hprimary, read_keyColumns h,
          asTrees]
      by_cases hunique : isKeyword .UNIQUE (Grammar.current input) = true
      · simp [-read_optional, hname, hprimary, hunique, Level.tableElement, read_constraintName?,
          run_keyName hword, expectName, run_expect_of hname, expectKeyword, run_expect_of hunique,
          read_optionalToken (isOneOf [.KEY, .INDEX]) _ rfl, read_keyColumns h, asTrees]
      · simp [hword, hname, hprimary, hunique, Level.tableElement, read_constraintName?,
          run_keyName hword, expectName, run_expect_of hname, asTrees]
    · simp [Level.tableElement, hname, hword, read_constraintName?, run_keyName hword, expectName,
        run_expect_of_not hname, asTrees]
  · simp only [Grammar.tableElement, Level.tableElement, StateT.run_bind, run_keyName_none hword,
      read_ifKey _ _ _ hword]
    by_cases hprimary : isKeyword .PRIMARY (Grammar.current input) = true
    · simp [hprimary, read_constraintName?, run_keyName_none hword, expectKeyword,
        run_expect_of hprimary, read_keyColumns h, asTrees]
    by_cases hunique : isKeyword .UNIQUE (Grammar.current input) = true
    · simp [-read_optional, hprimary, hunique, read_constraintName?, run_keyName_none hword,
        expectKeyword, run_expect_of hunique, read_optionalToken (isOneOf [.KEY, .INDEX]) _ rfl,
        read_keyColumns h, asTrees]
    · simp [hprimary, hunique, hword, read_columnDefinition h]

theorem read_tableElements (h : level.Matches enter) :
    (Form.deeper .tableElements).read enter input =
      asTrees ([·]) ((level.parenthesized .tableElementList (·.tableElement)).run input) :=
  read_parenthesized h _ rfl fun _ _ hdeep => hdeep.tableElement

theorem read_createTable (h : level.Matches enter) (create : Lexeme)
    (hcreate : isKeyword .CREATE (Grammar.current (create :: input)) = true)
    (htable : isKeyword .TABLE (Grammar.current input) = true) :
    Grammar.createTable.read enter (create :: input) =
      asTrees ([·]) ((level.createTable (.leaf create)).run input) := by
  obtain ⟨table, input, rfl⟩ := exists_cons_of_current rfl htable
  by_cases hif : isKeyword .IF (Grammar.current input) = true
  · simp [Grammar.createTable, Level.createTable, expectKeyword, run_expect_of hcreate,
      run_expect_of htable, hif, run_expect_of hif, read_tableElements h, read_tableName, asTrees]
  · simp [Grammar.createTable, Level.createTable, expectKeyword, run_expect_of hcreate,
      run_expect_of htable, hif, read_tableElements h, read_tableName, asTrees]

theorem read_createIndex (h : level.Matches enter) (create : Lexeme)
    (hcreate : isKeyword .CREATE (Grammar.current (create :: input)) = true) :
    Grammar.createIndex.read enter (create :: input) =
      asTrees ([·]) ((level.createIndex (.leaf create)).run input) := by
  simp [Grammar.createIndex, Level.createIndex, expectKeyword, run_expect_of hcreate,
    read_tableName, read_keyColumns h, asTrees]

theorem read_create (h : level.Matches enter)
    (hcreate : isKeyword .CREATE (Grammar.current input) = true) :
    Grammar.create.read enter input = asTrees ([·]) (level.create.run input) := by
  obtain ⟨word, input, rfl⟩ := exists_cons_of_current rfl hcreate
  simp only [Grammar.create, Level.create, read_ifAt_pair, StateT.run_bind, run_advance,
    run_current, pure_bind, hcreate, Bool.true_and, List.tail_cons, run_ite]
  by_cases htable : isKeyword .TABLE (Grammar.current input) = true
  · rw [if_pos htable, if_pos htable, read_createTable h word hcreate htable]
  rw [if_neg htable, if_neg htable]
  by_cases hindex : isOneOf [.UNIQUE, .INDEX] (Grammar.current input) = true
  · rw [if_pos hindex, if_pos hindex, read_createIndex h word hcreate]
  · rw [if_neg hindex, if_neg hindex]
    simp [expectKeyword, run_expect_of hcreate, asTrees]

theorem read_dropTable (hdrop : isKeyword .DROP (Grammar.current input) = true) :
    Grammar.dropTable.read enter input = asTrees ([·]) (Parser.dropTable.run input) := by
  simp only [Grammar.dropTable, Parser.dropTable, read_node, read_all_cons, read_all_singleton,
    read_seq, read_keyword, expectKeyword, run_expect_of hdrop, read_optional, read_tableName,
    asTrees, StateT.run_bind, bind_map_left, map_bind]
  refine bind_congr fun word => bind_congr fun table => ?_
  by_cases hif : isKeyword .IF (Grammar.current table.2) = true
  · simp [hif, run_expect_of hif]
  · simp [hif]

theorem run_tokenRound (enter : Construct → Reader) (parts : List Tree) (input : List Lexeme) :
    (tokenRound parts).run input =
      if Lookahead.holds [fun token => !endsStatement token] input then
        (fun made => (some (parts ++ made.1), made.2)) <$>
          (Form.token (fun token => !endsStatement token) "a word").read enter input
      else pure (none, input) := by
  by_cases hends : endsStatement (Grammar.current input) = true
  · simp [tokenRound, Lookahead.holds, hends]
  · have taken : (expect (fun token => !endsStatement token) "a word").run input =
        advance.run input := run_expect_of (by simp [hends])
    simp [tokenRound, Lookahead.holds, hends, read_token (fun token => !endsStatement token) _ rfl,
      taken, asTrees]

theorem read_unsupportedClause :
    (Form.node .unsupportedClause restOfStatement).read enter input =
      asTrees ([·]) (unsupportedClause.run input) := by
  simp [unsupportedClause, run_repeated (run_tokenRound enter), restOfStatement, behind,
    asTrees]

theorem read_alterAction (h : level.Matches enter) :
    (Form.node .alterAction Grammar.alterAction).read enter input =
      asTrees ([·]) (level.alterAction.run input) := by
  by_cases hmodify : (Grammar.current input).isWord "MODIFY" = true
  · simp [Grammar.alterAction, Level.alterAction, hmodify, run_accept_of hmodify, expectWord,
      run_expect_of hmodify, read_columnDefinition h, asTrees]
  by_cases halter : isKeyword .ALTER (Grammar.current input) = true
  · simp [Grammar.alterAction, Level.alterAction, hmodify, run_accept_of_not hmodify, halter,
      expectKeyword, run_expect_of halter, read_columnDefinition h, asTrees, Level.columnDefinition]
  have other : ((Grammar.current input).isWord "ADD" || isKeyword .DROP (Grammar.current input) ||
      (Grammar.current input).isWord "RENAME") =
        (isKeyword .DROP (Grammar.current input) ||
          isWordOf ["ADD", "RENAME"] (Grammar.current input)) := by
    simp [isWordOf, Bool.or_assoc, Bool.or_left_comm]
  simp only [Grammar.alterAction, Level.alterAction, read_node .alterAction, read_ifAt,
    StateT.run_bind, run_accept_of_not hmodify, pure_bind, run_current, run_ite, if_neg hmodify,
    if_neg halter, other]
  by_cases hother : (isKeyword .DROP (Grammar.current input) ||
      isWordOf ["ADD", "RENAME"] (Grammar.current input)) = true
  · simp only [if_pos hother, read_unsupportedClause, asTrees]
    simp
  · simp only [if_neg hother, asTrees]
    simp

theorem read_alterTable (h : level.Matches enter)
    (halter : isKeyword .ALTER (Grammar.current input) = true) :
    Grammar.alterTable.read enter input = asTrees ([·]) (level.alterTable.run input) := by
  have action (input : List Lexeme) :
      (Form.node .alterAction Grammar.alterAction).read enter input =
        asTrees ([·]) (level.alterAction.run input) := read_alterAction h
  simp only [Grammar.alterTable, Level.alterTable, expectKeyword, run_expect_of halter,
    read_tableName, read_all_cons, read_all_singleton, read_seq, read_keyword, action, asTrees,
    read_node .alterTableStatement]
  simp

/-! ### Databases -/

theorem read_use (huse : isKeyword .USE (Grammar.current input) = true) :
    Grammar.use.read enter input = asTrees ([·]) (Parser.use.run input) := by
  simp [Grammar.use, Parser.use, databaseName, expectKeyword, run_expect_of huse, asTrees]

theorem read_showStatement (hshow : (Grammar.current input).isWord "SHOW" = true) :
    Grammar.showStatement.read enter input = asTrees ([·]) (Parser.showStatement.run input) := by
  obtain ⟨word, input, rfl⟩ := exists_cons_of_current rfl hshow
  simp only [Grammar.showStatement, read_ifAt_pair, hshow, Bool.true_and, List.tail_cons,
    Parser.showStatement, StateT.run_bind, run_advance, pure_bind]
  by_cases htables : (Grammar.current input).isWord "TABLES" = true
  · rw [if_pos htables, run_accept_of htables]
    simp only [fromOrIn, databaseName, read_node, read_all_cons, read_seq, read_word, asTrees,
      expectWord, run_expect_of hshow, run_advance, map_pure, read_all_singleton, read_optional,
      read_name, Functor.map_map, bind_map_left, List.cons_append, List.nil_append, map_bind,
      pure_bind, run_expect_of htables, bind_pure_comp, StateT.run_bind]
    refine bind_congr fun tables => ?_
    by_cases hside : isOneOf [.FROM, .IN] (Grammar.current tables.2) = true
    · simp [hside, run_accept_of hside, read_token (isOneOf [.FROM, .IN]) _ rfl,
        run_expect_of hside, asTrees]
    · simp [hside, run_accept_of_not hside]
  rw [if_neg htables, run_accept_of_not htables]
  by_cases hcolumns : isWordOf ["COLUMNS", "FIELDS"] (Grammar.current input) = true
  · simp only [hcolumns, ↓reduceIte, fromOrIn, read_node, read_all_cons, read_seq, read_word,
      asTrees, expectWord, run_expect_of hshow, run_advance, map_pure,
      read_token (isWordOf ["COLUMNS", "FIELDS"]) _ rfl, read_token (isOneOf [.FROM, .IN]) _ rfl,
      read_all_singleton, read_tableName, Functor.map_map, bind_map_left, List.cons_append,
      List.nil_append, map_bind, pure_bind, run_expect_of hcolumns, bind_pure_comp, StateT.run_bind,
      run_accept_of hcolumns]
    refine bind_congr fun columns => ?_
    by_cases hside : isOneOf [.FROM, .IN] (Grammar.current columns.2) = true
    · simp [run_accept_of hside, run_expect_of hside]
    · simp [run_accept_of_not hside, run_expect_of_not hside]
  · simp [hcolumns, run_accept_of_not hcolumns, expectWord, run_expect_of hshow, asTrees]

end SqlFront.Grammar
