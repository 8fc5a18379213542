import SqlFront.Proofs.ParserForms

/-!
The parser reads queries as their forms do.
-/

namespace SqlFront.Grammar

open SqlFront.Parser

variable {level : Level} {enter : Construct → Reader} {input : List Lexeme}

/-! ### Parts that may be missing -/

section

variable {test : Token → Bool} {clause : Parser Tree} {part? : Parser (Option Tree)} {form : Form}

theorem read_clause? (hclause : test (Grammar.current input) = true →
      form.read enter input = asTrees ([·]) (clause.run input)) :
    (Form.optional [test] form).read enter input =
      asTrees Option.toList ((clause? test clause).run input) := by
  by_cases htest : test (Grammar.current input) = true
  · simp [clause?, htest, hclause htest, asTrees]
  · simp [clause?, htest, asTrees]

/-- Parts are read as long as there are any. -/
theorem run_addAll {look : Lookahead}
    (hpart : ∀ parts input, look.holds input = true → (partRound part? parts).run input =
      (fun made => (some (parts ++ made.1), made.2)) <$> form.read enter input)
    (hnone : ∀ input, ¬look.holds input = true → part?.run input = pure (none, input))
    (parts : List Tree) (input : List Lexeme) :
    (addAll part? parts).run input = behind parts ((Form.whileAt look form).read enter input) := by
  refine run_repeated (fun parts input => ?_) parts input
  by_cases hlook : look.holds input = true
  · rw [if_pos hlook, hpart parts input hlook]
  · simp [partRound, hlook, hnone input hlook]

end

/-! ### Clauses -/

theorem read_rowCount :
    Grammar.rowCount.read enter input = asTrees ([·]) (Parser.rowCount.run input) :=
  read_token _ _ rfl

theorem read_topClause (htop : (Grammar.current input).isWord "TOP" = true) :
    Grammar.topClause.read enter input = asTrees ([·]) (Parser.topClause.run input) := by
  simp only [topClause, read_node, read_all_cons, read_seq, read_word, asTrees, expectWord,
    run_expect_of htop, read_ifAt, read_symbol, read_rowCount, read_all_singleton, Functor.map_map,
    bind_map_left, List.cons_append, List.nil_append, map_bind, read_optionalWord, Parser.topClause,
    bind_pure_comp, pure_bind, StateT.run_bind, run_current, run_ite, StateT.run_map]
  refine bind_congr fun word => ?_
  by_cases hopen : isSymbol .leftParen (Grammar.current word.2) = true
  · simp [hopen, expectSymbol, run_expect_of hopen]
  · simp [hopen]

theorem read_selectItem (h : level.Matches enter) :
    Grammar.selectItem.read enter input = asTrees ([·]) (level.selectItem.run input) := by
  by_cases hstar : isSymbol .star (Grammar.current input) = true
  · simp [Grammar.selectItem, Level.selectItem, hstar, expectSymbol, run_expect_of hstar, asTrees]
  · simp [Grammar.selectItem, Level.selectItem, hstar, read_expression h, read_alias?, asTrees]

theorem read_selectList (h : level.Matches enter) :
    Grammar.selectList.read enter input = asTrees ([·]) (level.selectList.run input) := by
  simp [Grammar.selectList, Level.selectList, run_addItems fun _ => read_selectItem h, behind,
    asTrees]

/-- An alias that has to be there. -/
theorem read_aliasOrRefuse (cause : SyntaxCause) :
    (Form.ifAt [fun token => isKeyword .AS token || token.isName] Grammar.alias?
      (.refuse fun _ => cause)).read enter input =
      Parser.alias?.run input >>= fun made =>
        made.1.elim (throw (faultAt made.2 cause)) fun name => pure ([name], made.2) := by
  by_cases has : isKeyword .AS (Grammar.current input) = true
  · simp [has, read_alias?, Parser.alias?, run_accept_of has, asTrees]
  · by_cases hname : (Grammar.current input).isName = true
    · simp [has, hname, read_alias?, Parser.alias?, run_accept_of_not has, asTrees]
    · simp only [read_ifAt, has, hname, Bool.or_self, Bool.false_eq_true, ↓reduceIte, Parser.alias?,
        bind_pure_comp, StateT.run_bind, run_accept_of_not has, pure_bind, run_current, run_ite,
        StateT.run_map, StateT.run_pure]
      rfl

theorem read_tablePrimary (h : level.Matches enter) :
    Grammar.tablePrimary.read enter input = asTrees ([·]) (level.tablePrimary.run input) := by
  simp only [Grammar.tablePrimary, Level.tablePrimary, read_ifAt, StateT.run_bind, run_current,
    pure_bind, run_ite]
  by_cases hopen : isSymbol .leftParen (Grammar.current input) = true
  · rw [if_pos hopen, if_pos hopen]
    refine read_deeper h _ fun deeper enter hdeep => ?_
    simp only [bodies, derivedTableBody, read_node, read_all_cons, read_seq, read_symbol, asTrees,
      expectSymbol, run_expect_of hopen, hdeep.select, read_all_singleton, read_aliasOrRefuse,
      map_bind, bind_map_left, List.cons_append, List.nil_append, Functor.map_map, StateT.run_bind]
    refine bind_congr fun opening => bind_congr fun query => bind_congr fun closing =>
      bind_congr fun name => ?_
    cases name.1 <;> rfl
  · rw [if_neg hopen, if_neg hopen, read_aliasedTable]

/-! ### Tables -/

theorem startsJoin_eq (token : Token) : startsJoin token =
    (isKeyword .JOIN token || isKeyword .INNER token || isOneOf [.LEFT, .RIGHT, .FULL] token ||
      isKeyword .CROSS token) := by
  simp [startsJoin, isOneOf, Bool.or_assoc]

theorem run_joinSide_cross (hcross : isKeyword .CROSS (Grammar.current input) = true) :
    Parser.joinSide.run input =
      (fun made => (some ([made.1], true), made.2)) <$> advance.run input := by
  simp [Parser.joinSide, eq_of_beq hcross, isKeyword, isOneOf]

theorem run_joinSide_none (hnone : ¬startsJoin (Grammar.current input) = true) :
    Parser.joinSide.run input = pure (none, input) := by
  simp only [startsJoin_eq, Bool.or_eq_true, not_or] at hnone
  simp [Parser.joinSide, hnone]

/-- The words of a join with a condition. -/
theorem run_joinSide (enter : Construct → Reader)
    (hcross : ¬isKeyword .CROSS (Grammar.current input) = true)
    (hstarts : startsJoin (Grammar.current input) = true) : Parser.joinSide.run input =
      (fun made => (some (made.1, false), made.2)) <$> Grammar.joinSide.read enter input := by
  by_cases hjoin : isKeyword .JOIN (Grammar.current input) = true
  · simp [Parser.joinSide, Grammar.joinSide, eq_of_beq hjoin, isKeyword, isOneOf]
  by_cases hinner : isKeyword .INNER (Grammar.current input) = true
  · simp [Parser.joinSide, Grammar.joinSide, hjoin, hinner, expectKeyword, run_expect_of hinner,
      asTrees]
  by_cases hside : isOneOf [.LEFT, .RIGHT, .FULL] (Grammar.current input) = true
  · simp [Parser.joinSide, Grammar.joinSide, hjoin, hinner, hside,
      read_token (isOneOf [.LEFT, .RIGHT, .FULL]) _ rfl, run_expect_of hside, asTrees]
  · simp [startsJoin_eq, hjoin, hinner, hside, hcross] at hstarts

theorem run_join (h : level.Matches enter) (parts : List Tree)
    (hstarts : startsJoin (Grammar.current input) = true) :
    (partRound level.join? parts).run input =
      (fun made => (some (parts ++ made.1), made.2)) <$> Grammar.join.read enter input := by
  by_cases hcross : isKeyword .CROSS (Grammar.current input) = true
  · simp [partRound, Level.join?, run_joinSide_cross hcross, Grammar.join, hcross, expectKeyword,
      run_expect_of hcross, read_tablePrimary h, asTrees]
  · simp [partRound, Level.join?, run_joinSide enter hcross hstarts, Grammar.join,
      hcross, read_tablePrimary h, read_expression h, asTrees]

theorem run_joins (h : level.Matches enter) (parts : List Tree) (input : List Lexeme) :
    (addAll level.join? parts).run input =
      behind parts ((Form.whileAt [startsJoin] Grammar.join).read enter input) := by
  refine run_addAll (fun parts input hlook => ?_) (fun input hlook => ?_) parts input
  · rw [Lookahead.holds, Lookahead.holds, Bool.and_true] at hlook
    exact run_join h parts hlook
  · rw [Lookahead.holds, Lookahead.holds, Bool.and_true] at hlook
    simp [Level.join?, run_joinSide_none hlook]

theorem read_tableSource (h : level.Matches enter) :
    Grammar.tableSource.read enter input = asTrees ([·]) (level.tableSource.run input) := by
  simp [Grammar.tableSource, Level.tableSource, read_tablePrimary h, run_joins h, behind, asTrees]

theorem read_fromClause (h : level.Matches enter) :
    Grammar.fromClause.read enter input = asTrees ([·]) (level.fromClause.run input) := by
  simp [Grammar.fromClause, Level.fromClause, run_addItems fun _ => read_tableSource h, behind,
    asTrees]

/-! ### The other clauses -/

theorem read_whereClause? (h : level.Matches enter) :
    Grammar.whereClause?.read enter input =
      asTrees Option.toList (level.whereClause?.run input) := by
  by_cases hwhere : isKeyword .WHERE (Grammar.current input) = true
  · simp [Grammar.whereClause?, Level.whereClause?, hwhere, run_accept_of hwhere, expectKeyword,
      run_expect_of hwhere, read_expression h, asTrees]
  · simp [Grammar.whereClause?, Level.whereClause?, hwhere, run_accept_of_not hwhere, asTrees]

theorem read_groupByClause (h : level.Matches enter)
    (hgroup : isKeyword .GROUP (Grammar.current input) = true) :
    Grammar.groupByClause.read enter input = asTrees ([·]) (level.groupByClause.run input) := by
  simp [Grammar.groupByClause, Level.groupByClause, expectKeyword, run_expect_of hgroup,
    run_addItems fun _ => read_expression h, behind, asTrees]

theorem read_havingClause (h : level.Matches enter)
    (hhaving : isKeyword .HAVING (Grammar.current input) = true) :
    Grammar.havingClause.read enter input = asTrees ([·]) (level.havingClause.run input) := by
  simp [Grammar.havingClause, Level.havingClause, expectKeyword, run_expect_of hhaving,
    read_expression h, asTrees]

theorem read_orderItem (h : level.Matches enter) :
    (Form.node .orderItem (.seq Grammar.expression direction)).read enter input =
      asTrees ([·]) (level.orderItem.run input) := by
  simp [Level.orderItem, read_expression h, read_direction, asTrees]

theorem read_orderByClause (h : level.Matches enter)
    (horder : isKeyword .ORDER (Grammar.current input) = true) :
    Grammar.orderByClause.read enter input = asTrees ([·]) (level.orderByClause.run input) := by
  simp [Grammar.orderByClause, Level.orderByClause, expectKeyword, run_expect_of horder,
    run_addItems fun _ => read_orderItem h, behind, asTrees]

theorem read_limitClause (hlimit : isKeyword .LIMIT (Grammar.current input) = true) :
    (Grammar.limitClause level.dialect).read enter input =
      asTrees ([·]) (level.limitClause.run input) := by
  simp only [limitClause, read_node, read_all_cons, read_seq, read_keyword, asTrees, expectKeyword,
    run_expect_of hlimit, read_rowCount, read_all_singleton, bind_map_left, List.cons_append,
    List.nil_append, map_bind, Functor.map_map, Level.limitClause, Bool.and_eq_true, bind_pure_comp,
    StateT.run_bind, run_current, run_ite, StateT.run_map, pure_bind]
  refine bind_congr fun word => bind_congr fun count => ?_
  by_cases hcomma : level.dialect.supportsLimitComma = true ∧
      isSymbol .comma (Grammar.current count.2) = true
  · simp [offset, hcomma, expectSymbol, run_expect_of hcomma.2, read_rowCount, asTrees]
  have named : (offset level.dialect).read enter count.2 =
      (Form.optional [isKeyword .OFFSET]
        (.seq (.keyword .OFFSET) Grammar.rowCount)).read enter count.2 := by
    cases hdialect : level.dialect.supportsLimitComma with
    | true => simp [offset, hdialect, (not_and.mp hcomma) hdialect]
    | false => simp [offset, hdialect]
  rw [named, if_neg hcomma]
  by_cases hoffset : isKeyword .OFFSET (Grammar.current count.2) = true
  · simp [hoffset, run_accept_of hoffset, expectKeyword, run_expect_of hoffset, read_rowCount,
      asTrees]
  · simp [hoffset, run_accept_of_not hoffset]

/-- A clause that only some dialects have. -/
theorem read_when {test : Token → Bool} {clause : Parser Tree} {form : Form} (available : Bool)
    (hclause : test (Grammar.current input) = true →
      form.read enter input = asTrees ([·]) (clause.run input)) :
    (Grammar.when available (.optional [test] form)).read enter input =
      asTrees Option.toList
        ((clause? (fun token => available && test token) clause).run input) := by
  cases available with
  | true => exact read_clause? hclause
  | false => simp [Grammar.when, clause?, asTrees]

theorem read_select (h : level.Matches enter) :
    (Grammar.select level.dialect).read enter input = asTrees ([·]) (level.select.run input) := by
  simp [-read_optional, Grammar.select, Level.select,
    read_optionalToken (isOneOf [.DISTINCT, .ALL]) _ rfl, read_when _ read_topClause,
    read_selectList h, read_clause? fun _ => read_fromClause h, read_whereClause? h,
    read_clause? (read_groupByClause h), read_clause? (read_havingClause h),
    read_clause? (read_orderByClause h), read_when _ read_limitClause, asTrees]

end SqlFront.Grammar
