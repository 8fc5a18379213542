import SqlFront.Proofs.DerivationSound
import SqlFront.Proofs.ParserBatch

/-!
Whatever is read as an expression or as a batch consists of derivations, at any depth: the
productions of statements ask nothing of their parts, and all the expressions among these are
derivations. With so many levels left, no tree opens more.
-/

namespace SqlFront.Grammar

open SqlFront.Tree Form

variable {enter : Construct → Reader} {levels : Nat} (dialect : Dialect)

theorem Form.Derives.mono {form : Form} {few many : Nat} (h : form.Derives enter few)
    (hle : few ≤ many) : form.Derives enter many :=
  fun trees hyields tree hmem => (h trees hyields tree hmem).mono hle

/-! ### Names -/

theorem dotName_derives : dotName.Derives enter levels := Each.seq Derives.token Derives.token

theorem alias?_derives : alias?.Derives enter levels :=
  Each.ifAt (Derives.plain rfl (Each.seq Derives.token Derives.token))
    (.optional (Derives.plain rfl Derives.token))

theorem tableParts_derives : tableParts.Derives enter levels :=
  Each.seq Derives.token (.optional (.seq dotName_derives (.optional dotName_derives)))

theorem tableName_derives : tableName.Derives enter levels := .plain rfl tableParts_derives

theorem aliasedTable_derives : aliasedTable.Derives enter levels :=
  .plain rfl (Each.seq tableParts_derives alias?_derives)

theorem direction_derives : direction.Derives enter levels := Each.optional Derives.token

/-! ### Stars -/

theorem star_row {trees : List Tree}
    (hyields : (Form.node .allColumns (.symbol .star)).Yields enter trees) :
    Row [isStar] trees := by
  obtain ⟨_, _, left, right, hleft, hright, rfl⟩ := hyields.always
  obtain rfl := hleft.empty
  obtain ⟨⟨token, span⟩, rfl, haccepts⟩ := hright.token
  obtain rfl : token = .symbol .star := eq_of_beq haccepts
  exact .cons rfl .nil

theorem star_derives : (Form.node .allColumns (.symbol .star)).Derives enter levels := by
  refine .node rfl Derives.token fun parts hyields => ?_
  obtain ⟨star, rfl, haccepts⟩ := hyields.token
  exact .inl (.cons haccepts .nil)

section

variable (h : Nests enter levels)
include h

/-! ### The constructs inside expressions -/

theorem expression_derives : expression.Derives enter levels := (expression_makesAt h).derives

theorem negationBody_derives : negationBody.Derives enter (levels + 1) := by
  refine .nodeSucc (fun _ => rfl) (Each.seq Derives.token (negatable_makesAt h).derives) ?_
  intro parts hyields
  obtain ⟨_, _, hfirst, hsecond, rfl⟩ := hyields.seq
  obtain ⟨word, rfl, hnot⟩ := hfirst.token
  obtain ⟨operand, rfl, hoperand, -⟩ := negatable_makesAt h _ hsecond
  exact .cons hnot (.cons hoperand .nil)

theorem signedBody_derives : signedBody.Derives enter (levels + 1) := by
  refine .nodeSucc (fun _ => rfl) (Each.seq Derives.token (unary_makesAt h).derives) ?_
  intro parts hyields
  obtain ⟨_, _, hfirst, hsecond, rfl⟩ := hyields.seq
  obtain ⟨sign, rfl, haccepts⟩ := hfirst.token
  obtain ⟨operand, rfl, hoperand, -⟩ := unary_makesAt h _ hsecond
  exact .cons haccepts (.cons hoperand .nil)

theorem parenBody_derives : parenBody.Derives enter (levels + 1) := by
  refine .nodeSucc (fun _ => rfl)
    (Each.seq Derives.token (.seq (expression_derives h) Derives.token)) ?_
  intro parts hyields
  obtain ⟨_, _, hfirst, hrest, rfl⟩ := hyields.seq
  obtain ⟨left, rfl, hleft⟩ := hfirst.token
  obtain ⟨_, _, hsecond, hthird, rfl⟩ := hrest.seq
  obtain ⟨inner, rfl, hinner, -⟩ := expression_makesAt h _ hsecond
  obtain ⟨right, rfl, hright⟩ := hthird.token
  exact .cons hleft (.cons hinner (.cons hright .nil))

theorem membersBody_derives : membersBody.Derives enter (levels + 1) :=
  .nodeSucc (fun _ => rfl) (.parenthesized (expression_derives h)) fun _ hyields =>
    enclosed_of_parenthesized (expression_makesAt h).single hyields

theorem seedsBody_derives : seedsBody.Derives enter (levels + 1) := by
  have hseed : unary.MakesAt enter levels .disjunction := (unary_makesAt h).mono (by decide)
  exact .nodeSucc (fun _ => rfl) (.parenthesized hseed.derives) fun _ hyields =>
    enclosed_of_parenthesized hseed.single hyields

/-- What stands between the parentheses of a call. -/
theorem arguments_of_yields {quantifier list : List Tree}
    (hquantifier : (Form.optional [isKeyword .DISTINCT] (.keyword .DISTINCT)).Yields enter
      quantifier)
    (hlist : (Form.ifAt [isSymbol .star] (.node .allColumns (.symbol .star))
      (.optional [fun token => !isSymbol .rightParen token] (.commaList expression))).Yields enter
        list) :
    Arguments (quantifier ++ list) ∧ ∀ tree ∈ quantifier ++ list, tree.DerivedWithin levels := by
  have hwords : ∀ tree ∈ quantifier, tree.DerivedWithin levels :=
    Each.optional Derives.token quantifier hquantifier
  have hdistinct : quantifier = [] ∨ Row [isWordLeaf .DISTINCT] quantifier := by
    rcases hquantifier.optional with hquantifier | rfl
    · obtain ⟨word, rfl, haccepts⟩ := hquantifier.token
      exact .inr (.cons haccepts .nil)
    · exact .inl rfl
  suffices hvalues : (list = [] ∨ Row [isStar] list ∨ Expressions list) ∧
      ∀ tree ∈ list, tree.DerivedWithin levels by
    refine ⟨⟨quantifier, list, rfl, hdistinct, hvalues.1⟩, ?_⟩
    intro tree hmem
    rcases List.mem_append.mp hmem with hmem | hmem
    · exact hwords tree hmem
    · exact hvalues.2 tree hmem
  rcases hlist.ifAt with hstar | hvalues
  · exact ⟨.inr (.inl (star_row hstar)), star_derives list hstar⟩
  rcases hvalues.optional with hvalues | rfl
  · exact ⟨.inr (.inr (listed_of_seq (expression_makesAt h).single hvalues)),
      Derives.commaList (expression_derives h) list hvalues⟩
  · exact ⟨.inl rfl, by simp⟩

theorem argumentsBody_yields {trees : List Tree} (hyields : argumentsBody.Yields enter trees) :
    (Enclosed Arguments trees ∧ nestingOf trees < levels + 1) ∧
      ∀ tree ∈ trees, tree.DerivedWithin levels := by
  obtain ⟨_, _, hfirst, hrest, rfl⟩ := hyields.seq
  obtain ⟨left, rfl, hleft⟩ := hfirst.token
  obtain ⟨quantifier, _, hquantifier, hmore, rfl⟩ := hrest.seq
  obtain ⟨list, _, hlist, hlast, rfl⟩ := hmore.seq
  obtain ⟨right, rfl, hright⟩ := hlast.token
  obtain ⟨harguments, hderives⟩ := arguments_of_yields h hquantifier hlist
  have hall : ∀ tree ∈ [.leaf left] ++ (quantifier ++ (list ++ [.leaf right])),
      tree.DerivedWithin levels := by
    intro tree hmem
    simp only [← List.append_assoc, List.mem_append, List.mem_singleton] at hmem hderives
    rcases hmem with ((rfl | hmem) | hmem) | rfl
    · exact derivedWithin_leaf left
    · exact hderives tree (.inl hmem)
    · exact hderives tree (.inr hmem)
    · exact derivedWithin_leaf right
  refine ⟨⟨⟨.leaf left, quantifier ++ list, .leaf right, by simp, hleft, hright, harguments⟩, ?_⟩,
    hall⟩
  exact Nat.lt_succ_of_le (nestingOf_le.mpr fun tree hmem => (hall tree hmem).nests)

/-! ### Queries -/

omit h in
theorem rowCount_derives : rowCount.Derives enter levels := Derives.token

omit h in
theorem topClause_derives : topClause.Derives enter levels :=
  .plain rfl (Each.seq Derives.token
    (.seq (.ifAt (.seq Derives.token (.seq rowCount_derives Derives.token)) rowCount_derives)
      (.optional Derives.token)))

/-- A select item is a star, or an expression and perhaps its alias. -/
theorem selectItem_derives : selectItem.Derives enter levels := by
  refine .node rfl (Each.ifAt star_derives (.seq (expression_derives h) alias?_derives)) ?_
  intro parts hyields
  rcases hyields.ifAt with hstar | hvalue
  · exact .inl (star_row hstar)
  obtain ⟨_, _, hfirst, halias, rfl⟩ := hvalue.seq
  obtain ⟨value, rfl, hlevel, -⟩ := expression_makesAt h _ hfirst
  have hnamed {form : Form} {trees : List Tree}
      (hyields : (Form.node .aliasClause form).Yields enter trees) :
      Rule.selectItem.Allows (value :: trees) := by
    obtain ⟨_, _, _, _, -, -, rfl⟩ := hyields.always
    exact .inr (.inr (.cons hlevel (.cons rfl .nil)))
  rcases halias.ifAt with halias | halias
  · exact hnamed halias
  · rcases halias.optional with halias | rfl
    · exact hnamed halias
    · exact .inr (.inl (.cons hlevel .nil))

theorem tablePrimary_derives : tablePrimary.Derives enter levels :=
  Each.ifAt (h.derives _) aliasedTable_derives

theorem join_derives : join.Derives enter levels := by
  have htable := tablePrimary_derives h
  have hside : joinSide.Derives enter levels :=
    Each.ifAt Derives.token (.optional (.seq Derives.token (.optional Derives.token)))
  have hcondition : (Form.node .joinCondition (.seq (.keyword .ON) expression)).Derives enter
      levels := Derives.plain rfl (Each.seq Derives.token (expression_derives h))
  refine .plain rfl (Each.ifAt (.seq Derives.token (.seq Derives.token htable)) ?_)
  exact .seq hside (.seq Derives.token (.seq htable hcondition))

theorem fromClause_derives : fromClause.Derives enter levels := by
  have hsource : tableSource.Derives enter levels :=
    .plain rfl (Each.seq (tablePrimary_derives h) (.whileAt (join_derives h)))
  exact .plain rfl (Each.seq Derives.token (Derives.commaList hsource))

theorem whereClause?_derives : whereClause?.Derives enter levels :=
  Each.optional (Derives.plain rfl (Each.seq Derives.token (expression_derives h)))

theorem groupByClause_derives : groupByClause.Derives enter levels :=
  .plain rfl (Each.seq Derives.token
    (.seq Derives.token (Derives.commaList (expression_derives h))))

theorem havingClause_derives : havingClause.Derives enter levels :=
  .plain rfl (Each.seq Derives.token (expression_derives h))

theorem orderByClause_derives : orderByClause.Derives enter levels := by
  have hkey : (Form.node .orderItem (.seq expression direction)).Derives enter levels :=
    .plain rfl (Each.seq (expression_derives h) direction_derives)
  exact .plain rfl (Each.seq Derives.token (.seq Derives.token (Derives.commaList hkey)))

omit h in
theorem limitClause_derives : (limitClause dialect).Derives enter levels := by
  have hnamed : (Form.optional [isKeyword .OFFSET] (.seq (.keyword .OFFSET) rowCount)).Derives
      enter levels := Each.optional (.seq Derives.token rowCount_derives)
  have hoffset : (offset dialect).Derives enter levels := by
    unfold offset
    split
    · exact Each.ifAt (.seq Derives.token rowCount_derives) hnamed
    · exact hnamed
  exact .plain rfl (Each.seq Derives.token (.seq rowCount_derives hoffset))

omit h in
theorem when_derives {available : Bool} {form : Form} (hform : form.Derives enter levels) :
    (when available form).Derives enter levels := by
  unfold when
  split
  · exact hform
  · exact Each.empty

/-- **All expressions of a query are derivations.** -/
theorem select_derives : (select dialect).Derives enter levels := by
  have hlist : selectList.Derives enter levels := .plain rfl (.commaList (selectItem_derives h))
  exact .plain rfl <| Each.seq Derives.token <|
    .seq (.optional Derives.token) <|
    .seq (when_derives (Each.optional topClause_derives)) <|
    .seq hlist <|
    .seq (.optional (fromClause_derives h)) <|
    .seq (whereClause?_derives h) <|
    .seq (.optional (groupByClause_derives h)) <|
    .seq (.optional (havingClause_derives h)) <|
    .seq (.optional (orderByClause_derives h)) <|
    when_derives (Each.optional (limitClause_derives dialect))

theorem subqueryBody_derives : (subqueryBody dialect).Derives enter (levels + 1) := by
  refine .nodeSucc (fun _ => rfl)
    (Each.seq Derives.token (.seq (select_derives dialect h) Derives.token)) ?_
  intro parts hyields
  obtain ⟨_, _, hfirst, hrest, rfl⟩ := hyields.seq
  obtain ⟨left, rfl, hleft⟩ := hfirst.token
  obtain ⟨_, _, hsecond, hthird, rfl⟩ := hrest.seq
  obtain ⟨query, rfl, hrule, -⟩ := select_makes dialect h.toRegular _ hsecond
  obtain ⟨right, rfl, hright⟩ := hthird.token
  exact .cons hleft (.cons hrule (.cons hright .nil))

theorem derivedTableBody_derives : (derivedTableBody dialect).Derives enter levels :=
  .plain rfl (Each.seq Derives.token (.seq (select_derives dialect h)
    (.seq Derives.token (.ifAt alias?_derives .refuse))))

/-! ### Changes of rows -/

theorem insert_derives : (insert dialect).Derives enter levels := by
  have hvalues : valuesClause.Derives enter levels :=
    .plain rfl (Each.seq Derives.token (Derives.commaList (h.derives _)))
  exact .plain rfl (Each.seq Derives.token (.seq (.optional Derives.token)
    (.seq tableName_derives (.seq (.optional (h.derives _))
      (.ifAt (select_derives dialect h) hvalues)))))

theorem update_derives : update.Derives enter levels := by
  have hassignment : assignment.Derives enter levels :=
    .plain rfl (Each.seq columnName_derives (.seq Derives.token (expression_derives h)))
  exact .plain rfl (Each.seq Derives.token (.seq aliasedTable_derives (.seq Derives.token
    (.seq (Derives.commaList hassignment) (whereClause?_derives h)))))

theorem delete_derives : delete.Derives enter levels :=
  .plain rfl (Each.seq Derives.token (.seq (.optional Derives.token)
    (.seq aliasedTable_derives (whereClause?_derives h))))

/-! ### Columns and tables -/

theorem dataType_derives : dataType.Derives enter levels := by
  have hzone : timeZone?.Derives enter levels :=
    Each.optional (.seq Derives.token (.seq Derives.token Derives.token))
  exact .plain rfl (Each.seq Derives.token (.seq (.optional Derives.token)
    (.seq hzone (.optional (h.derives _)))))

theorem columnProperty_derives : columnProperty.Derives enter levels := by
  have hword {accepts : Token → Bool} {wanted : String} :
      (Form.token accepts wanted).Derives enter levels := Derives.token
  refine Each.ifAt (Derives.plain rfl (Each.seq hword hword)) <|
    .ifAt (Derives.plain rfl hword) <|
    .ifAt (Derives.plain rfl (Each.seq hword hword)) <|
    .ifAt (Derives.plain rfl (Each.seq hword (.optional hword))) <|
    .ifAt (Derives.plain rfl (Each.seq hword (unary_makesAt h).derives)) <|
    .ifAt (Derives.plain rfl (Each.seq hword (.optional (h.derives _)))) <|
    .ifAt (Derives.plain rfl (Each.seq hword (.optional (.seq hword (h.derives _))))) ?_
  exact Derives.plain rfl hword

theorem columnDefinition_derives : columnDefinition.Derives enter levels :=
  .plain rfl (Each.seq Derives.token (.seq (.optional Derives.token) (.seq (dataType_derives h)
    (.whileAt (columnProperty_derives h)))))

theorem tableElement_derives : tableElement.Derives enter levels := by
  have hname : constraintName?.Derives enter levels :=
    Each.optional (.seq Derives.token Derives.token)
  have hprimary : (Form.node .tablePrimaryKey (.all [constraintName?, .keyword .PRIMARY,
      .keyword .KEY, .deeper .keyColumns])).Derives enter levels :=
    .plain rfl (Each.seq hname (.seq Derives.token (.seq Derives.token (h.derives _))))
  have hunique : (Form.node .tableUnique (.all [constraintName?, .keyword .UNIQUE,
      .optional [isOneOf [.KEY, .INDEX]] (.token (isOneOf [.KEY, .INDEX]) "a key"),
      .deeper .keyColumns])).Derives enter levels :=
    .plain rfl (Each.seq hname (.seq Derives.token (.seq (.optional Derives.token)
      (h.derives _))))
  exact Each.ifAt hprimary <| .ifAt hprimary <| .ifAt hunique <| .ifAt hunique <|
    .ifAt (.seq hname .refuse) (columnDefinition_derives h)

theorem create_derives : create.Derives enter levels := by
  have htable : createTable.Derives enter levels :=
    .plain rfl (Each.seq Derives.token (.seq Derives.token
      (.seq (.optional (.seq Derives.token (.seq Derives.token Derives.token)))
        (.seq tableName_derives (h.derives _)))))
  have hindex : createIndex.Derives enter levels :=
    .plain rfl (Each.seq Derives.token (.seq (.optional Derives.token) (.seq Derives.token
      (.seq (Derives.plain rfl Derives.token) (.seq Derives.token
        (.seq tableName_derives (h.derives _)))))))
  exact Each.ifAt htable (.ifAt hindex (.seq Derives.token .refuse))

theorem alterTable_derives : alterTable.Derives enter levels := by
  have hchange {k : Form} (hword : k.Derives enter levels) :
      (Form.all [k, .optional [isKeyword .COLUMN] (.keyword .COLUMN),
        columnDefinition]).Derives enter levels :=
    Each.seq hword (.seq (.optional Derives.token) (columnDefinition_derives h))
  have haction : alterAction.Derives enter levels :=
    Each.ifAt (hchange Derives.token) <| .ifAt (hchange Derives.token) <|
      .ifAt (Derives.plain rfl (Each.whileAt Derives.token)) .refuse
  exact .plain rfl (Each.seq Derives.token (.seq Derives.token (.seq tableName_derives
    (Derives.plain rfl haction))))

omit h in
theorem dropTable_derives : dropTable.Derives enter levels :=
  .plain rfl (Each.seq Derives.token (.seq Derives.token
    (.seq (.optional (.seq Derives.token Derives.token)) tableName_derives)))

omit h in
theorem databaseName_derives : databaseName.Derives enter levels := .plain rfl Derives.token

omit h in
theorem showStatement_derives : showStatement.Derives enter levels := by
  refine Each.ifAt (Derives.plain rfl ?_)
    (.ifAt (Derives.plain rfl ?_) (.seq Derives.token .refuse))
  · exact Each.seq Derives.token (.seq Derives.token
      (.optional (.seq Derives.token databaseName_derives)))
  · exact Each.seq Derives.token (.seq Derives.token (.seq Derives.token tableName_derives))

/-! ### Commands -/

section

variable {rule : Rule}

omit h in
theorem status?_derives : status?.Derives enter levels :=
  Each.optional (Derives.plain rfl Derives.token)

omit h in
theorem keysCommand_derives {verb : Form} (hrule : rule.isPlain)
    (hverb : verb.Derives enter levels) :
    (keysCommand rule verb).Derives enter levels :=
  .plain hrule (Each.seq hverb (.seq Derives.token
    (.seq (.optional (Derives.plain rfl (Each.seq Derives.token Derives.token)))
      status?_derives)))

theorem columnCommand_derives {verb : String} (hrule : rule.isPlain) :
    (columnCommand rule verb).Derives enter levels :=
  .plain hrule (Each.seq Derives.token (.seq Derives.token (.seq columnName_derives
    (.seq (.optional (.seq Derives.token (h.derives _))) status?_derives))))

theorem treeCommand_derives {verb : String} (hrule : rule.isPlain) :
    (treeCommand rule verb).Derives enter levels := by
  have hseeds : (Form.node .seedList (.seq (.word "WITH") (.deeper .seeds))).Derives enter levels :=
    .plain rfl (Each.seq Derives.token (h.derives _))
  have hstop : stopClause.Derives enter levels :=
    .plain rfl (Each.seq Derives.token (.ifAt Derives.token
      (.seq Derives.token (.seq Derives.token Derives.token))))
  exact .plain hrule (Each.seq Derives.token (.seq Derives.token
    (.seq (.optional hseeds) (.optional hstop))))

omit h in
/-- A command of two words. -/
theorem wordsCommand_derives {verb noun : String} (hrule : rule.isPlain) :
    (Form.node rule (.seq (.word verb) (.word noun))).Derives enter levels :=
  .plain hrule (Each.seq Derives.token Derives.token)

omit h in
theorem snapshotCommand_derives {verb : String} {tree schema : Rule} (htree : tree.isPlain)
    (hschema : schema.isPlain) : (snapshotCommand verb tree schema).Derives enter levels :=
  Each.ifAt (wordsCommand_derives htree)
    (.ifAt (wordsCommand_derives hschema) (.seq Derives.token .refuse))

omit h in
theorem licenseCommand_derives : licenseCommand.Derives enter levels := by
  refine Each.ifAt (wordsCommand_derives rfl) (.ifAt (wordsCommand_derives rfl)
    (.ifAt (Derives.plain rfl ?_) (.seq Derives.token .refuse)))
  exact Each.seq Derives.token (.seq Derives.token (.seq Derives.token
    (.optional (Derives.plain rfl Derives.token))))

end

/-! ### Statements -/

/-- **All expressions of a statement are derivations.** -/
theorem statement_derives : (statement dialect).Derives enter levels :=
  Each.ifAt showStatement_derives <|
    .ifAt (keysCommand_derives rfl Derives.token) <|
    .ifAt (columnCommand_derives h rfl) <|
    .ifAt (columnCommand_derives h rfl) <|
    .ifAt (treeCommand_derives h rfl) <|
    .ifAt (treeCommand_derives h rfl) <|
    .ifAt (snapshotCommand_derives rfl rfl) <|
    .ifAt (snapshotCommand_derives rfl rfl) <|
    .ifAt (Derives.plain rfl (Each.seq Derives.token (h.derives _))) <|
    .ifAt licenseCommand_derives <|
    .ifAt (select_derives dialect h) <|
    .ifAt (insert_derives dialect h) <|
    .ifAt (keysCommand_derives rfl Derives.token) <|
    .ifAt (update_derives h) <|
    .ifAt (delete_derives h) <|
    .ifAt (create_derives h) <|
    .ifAt (alterTable_derives h) <|
    .ifAt dropTable_derives <|
    .ifAt (Derives.plain rfl (Each.seq Derives.token databaseName_derives)) .refuse

/-! ### One level deeper -/

/-- What stands one level deeper opens one level more. -/
theorem bodies_derives (construct : Construct) :
    (bodies dialect construct).Derives enter (levels + 1) := by
  have shallow {form : Form} (hform : form.Derives enter levels) :
      form.Derives enter (levels + 1) := hform.mono (Nat.le_succ levels)
  cases construct with
  | negation => exact negationBody_derives h
  | signed => exact signedBody_derives h
  | sumTail =>
    exact shallow (Each.seq Derives.token (.seq (product_makesAt h).derives
      (.optional (h.derives _))))
  | productTail =>
    exact shallow (Each.seq Derives.token (.seq (unary_makesAt h).derives
      (.optional (h.derives _))))
  | paren => exact parenBody_derives h
  | arguments =>
    exact shallow fun trees hyields => (argumentsBody_yields h hyields).2
  | subquery => exact subqueryBody_derives dialect h
  | derivedTable => exact shallow (derivedTableBody_derives dialect h)
  | members => exact membersBody_derives h
  | valueRow => exact shallow (.plain rfl (.parenthesized (expression_derives h)))
  | seeds => exact seedsBody_derives h
  | columns => exact shallow (.plain rfl (.parenthesized columnName_derives))
  | keyColumns =>
    have hcolumn : (Form.node .indexColumn (.seq columnName direction)).Derives enter levels :=
      .plain rfl (Each.seq columnName_derives direction_derives)
    exact shallow (.plain rfl (.parenthesized hcolumn))
  | tableElements => exact shallow (.plain rfl (.parenthesized (tableElement_derives h)))
  | typeArguments => exact shallow (.plain rfl (.parenthesized Derives.token))
  | countingArguments => exact shallow (.plain rfl (.parenthesized Derives.token))
  | flags => exact shallow (.plain rfl (.parenthesized Derives.token))
  | bypassed => exact shallow (statement_derives dialect h)

end

/-- **At every depth, the constructs yield derivations that open no more levels than are left.** The
induction is on the levels that are left. -/
theorem nests_enter (limit left : Nat) :
    Nests (Grammar.enter (bodies dialect) limit left) left := by
  have hregular := regular_enter dialect limit left
  induction left with
  | zero =>
    refine ⟨hregular, ?_, ?_, ?_, ?_⟩
    · rintro construct trees ⟨input, rest, hread⟩
      cases hread
    all_goals
      rintro trees ⟨input, rest, hread⟩
      cases hread
  | succ left ih =>
    have hnests := ih (regular_enter dialect limit left)
    refine ⟨hregular, ?_, ?_, ?_, ?_⟩
    · exact bodies_derives dialect hnests
    · exact fun trees => deepChainTail_chainTail (product_makesAt hnests) hnests.sums
    · exact fun trees => deepChainTail_chainTail (unary_makesAt hnests) hnests.products
    · exact fun trees hyields => (argumentsBody_yields hnests hyields).1

/-! ### Whole texts -/

variable {dialect}

theorem batch_derives (h : Nests enter levels) : (batch dialect).Derives enter levels := by
  have hsemicolons : semicolons.Derives enter levels := Each.whileAt Derives.token
  exact Each.seq hsemicolons (.whileAt (.seq (statement_derives dialect h)
    (.ifAt hsemicolons .refuse)))

/-- **What is read as an expression is a derivation**, which stands for the tokens that were taken
off the input and opens no more levels than are allowed. -/
theorem derivedWithin_of_readExpression {input rest : List Lexeme} {tree : Tree}
    (h : readExpression dialect levels input = .ok (tree, rest)) :
    tree.bindsAt .disjunction ∧ tree.DerivedWithin levels ∧ tree.terminals ++ rest = input := by
  have hnests := nests_enter dialect levels levels
  have hread := readExpression_eq_ok.mp h
  obtain ⟨only, honly, hlevel, hderived⟩ := expression_makesAt hnests [tree] ⟨input, rest, hread⟩
  obtain rfl : tree = only := List.singleton_inj.mp honly
  refine ⟨hlevel, hderived, ?_⟩
  have hkeeps := read_keeps (enter_keeps (bodies dialect) levels levels) expression hread
  simpa [terminalsOf] using hkeeps

end SqlFront.Grammar
