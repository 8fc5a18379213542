import SqlFront.Proofs.QueryShape

/-!
The shapes of all statements, and of a whole batch: whatever is read as a batch is well-formed, at
any depth.
-/

namespace SqlFront.Grammar

open SqlFront.Tree Form

variable {enter : Construct → Reader} (dialect : Dialect)

/-- A form that starts with a token yields something. -/
theorem ne_nil_of_token {accepts : Token → Bool} {wanted : String} {rest : Form} (parts : List Tree)
    (hyields : (Form.seq (.token accepts wanted) rest).Yields enter parts) : parts ≠ [] :=
  Has.ne_nil (Has.left .self) hyields

/-- Nothing is made where every way ends in a refusal. -/
theorem refused_makes {first : Form} {cause : Token → SyntaxCause} {test : Tree → Bool} :
    (Form.seq first (.refuse cause)).Makes enter test := by
  intro trees hyields
  obtain ⟨_, _, -, hrefused, rfl⟩ := hyields.seq
  exact hrefused.refuse.elim

/-- A node of the production of a statement is a statement. -/
theorem statement_of_makes {rule : Rule} {form : Form} (hform : form.Makes enter (hasRule rule))
    (hrule : rule.isStatement) : form.Makes enter isStatement := by
  refine hform.mono ?_
  intro tree htree
  simp [isStatement, hasRule_iff.mp htree, hrule]

section

variable (h : Regular enter)
include h

/-! ### Columns -/

omit h in
theorem timeZone?_sound : timeZone?.Sound enter :=
  .optional (.seq (.token rfl) (.seq (.token rfl) (.token rfl)))

theorem dataType_makes : dataType.Makes enter (hasRule .dataType) :=
  .node (.seq (.token rfl) (.seq (.optional (.token rfl)) (.seq timeZone?_sound
    (.optional (h.sound _))))) ne_nil_of_token

theorem columnProperty_sound : columnProperty.Sound enter := by
  refine .ifAt (.node (.seq (.token rfl) (.token rfl)) ne_nil_of_token) <|
    .ifAt (.node (.token rfl) fun _ => Has.ne_nil .self) <|
    .ifAt (.node (.seq (.token rfl) (.token rfl)) ne_nil_of_token) <|
    .ifAt (.node (.seq (.token rfl) (.optional (.token rfl))) ne_nil_of_token) <|
    .ifAt (.node (.seq (.token rfl) (unary_makes h).sound) (Has.right (unary_makes h).has)) <|
    .ifAt (.node (.seq (.token rfl) (.optional (h.sound _))) ne_nil_of_token) <|
    .ifAt (.node (.seq (.token rfl) (.optional (.seq (.token rfl) (h.sound _)))) ne_nil_of_token) <|
    .node (.token rfl) fun _ => Has.ne_nil .self

theorem columnDefinition_makes : columnDefinition.Makes enter (hasRule .columnDefinition) := by
  refine .node (.seq name_sound (.seq (.optional (.token rfl)) (.seq (dataType_makes h).sound
    (.whileAt (columnProperty_sound h))))) ?_
  intro parts hyields
  constructor
  · exact Has.left name_has parts hyields
  · exact Has.right (Has.right (Has.left (dataType_makes h).has)) parts hyields

/-! ### Tables and indexes -/

omit h in
theorem constraintName?_sound : constraintName?.Sound enter :=
  .optional (.seq (.token rfl) name_sound)

omit h in
theorem ifKey_sound {k : Keyword} {yes no : Form} (hyes : yes.Sound enter) (hno : no.Sound enter) :
    (ifKey k yes no).Sound enter :=
  .ifAt hyes (.ifAt hyes hno)

theorem tableElement_sound : tableElement.Sound enter := by
  have hcolumns : (Form.deeper .keyColumns).Makes enter (hasRule .columnList) := h.makes rfl
  refine ifKey_sound ?_ <| ifKey_sound ?_ <|
    .ifAt (.seq constraintName?_sound .refuse) (columnDefinition_makes h).sound
  · exact .node (.seq constraintName?_sound (.seq (.token rfl) (.seq (.token rfl) hcolumns.sound)))
      (Has.right (Has.right (Has.right hcolumns.has)))
  · exact .node (.seq constraintName?_sound (.seq (.token rfl) (.seq (.optional (.token rfl))
      hcolumns.sound))) (Has.right (Has.right (Has.right hcolumns.has)))

theorem createTable_makes : createTable.Makes enter (hasRule .createTableStatement) := by
  have hexists : (Form.all [.keyword .IF, .keyword .NOT, .keyword .EXISTS]).Sound enter :=
    .seq (.token rfl) (.seq (.token rfl) (.token rfl))
  refine .node (.seq (.token rfl) (.seq (.token rfl) (.seq (.optional hexists)
    (.seq tableName_makes.sound (h.sound _))))) ?_
  intro parts hyields
  constructor
  · exact Has.right (Has.right (Has.right (Has.left tableName_makes.has))) parts hyields
  · exact Has.right (Has.right (Has.right (Has.right (h.makes rfl).has))) parts hyields

theorem createIndex_makes : createIndex.Makes enter (hasRule .createIndexStatement) := by
  have hname : (Form.node .indexName .name).Makes enter (hasRule .indexName) :=
    .node name_sound name_has
  refine .node (.seq (.token rfl) (.seq (.optional (.token rfl)) (.seq (.token rfl)
    (.seq hname.sound (.seq (.token rfl) (.seq tableName_makes.sound (h.sound _)))))))
    fun parts hyields => ⟨?_, ?_, ?_⟩
  · exact Has.right (Has.right (Has.right (Has.left hname.has))) parts hyields
  · exact Has.right (Has.right (Has.right (Has.right (Has.right (Has.left tableName_makes.has)))))
      parts hyields
  · exact Has.right (Has.right (Has.right (Has.right (Has.right (Has.right (h.makes rfl).has)))))
      parts hyields

omit h in
/-- The rest of a statement is not empty where it is read at one of its words. -/
theorem restOfStatement_ne_nil {input rest : List Lexeme} {trees : List Tree}
    (hinput : endsStatement (current input) = false)
    (hread : restOfStatement.read enter input = .ok (trees, rest)) : trees ≠ [] := by
  cases input with
  | nil => cases hinput
  | cons lexeme input =>
    rw [restOfStatement, Form.read] at hread
    rcases readWhile_succ_eq_ok hread with ⟨-, first, mid, more, hfirst, -, rfl⟩ | ⟨hlook, -, -⟩
    · obtain ⟨word, -, rfl, -⟩ := readToken_eq_ok hfirst
      simp
    · rw [holds_single, hinput] at hlook
      cases hlook

omit h in
theorem unsupported_makes {look : Token → Bool} {wanted : String}
    (hlook : ∀ token, look token → endsStatement token = false) :
    (Form.ifAt [look] (.node .unsupportedClause restOfStatement) (.unexpected wanted)).Makes enter
      (hasRule .unsupportedClause) := by
  rintro trees ⟨input, rest, hread⟩
  rcases read_ifAt_eq_ok hread with ⟨hstart, hread⟩ | ⟨-, hread⟩
  · obtain ⟨parts, hparts, rfl⟩ := read_node_eq_ok hread
    rw [holds_single] at hstart
    have hne : parts ≠ [] := restOfStatement_ne_nil (hlook _ hstart) hparts
    have hsound : restOfStatement.Sound enter := .whileAt (.token rfl)
    exact ⟨_, rfl, rfl, .node rfl hne (hsound parts ⟨input, rest, hparts⟩)⟩
  · cases hread

omit h in
theorem endsStatement_of_alteration {token : Token}
    (h : isKeyword .DROP token || isWordOf ["ADD", "RENAME"] token) :
    endsStatement token = false := by
  cases token with
  | eof => cases h
  | symbol sign => cases h
  | _ => rfl

theorem alterAction_makes :
    (Form.node .alterAction alterAction).Makes enter (hasRule .alterAction) := by
  have hcolumn := columnDefinition_makes h
  have hunsupported : (Form.ifAt [fun token => isKeyword .DROP token ||
      isWordOf ["ADD", "RENAME"] token] (.node .unsupportedClause restOfStatement)
      (.unexpected "MODIFY or ALTER COLUMN")).Makes enter (hasRule .unsupportedClause) :=
    unsupported_makes fun _ => endsStatement_of_alteration
  refine .node (.ifAt ?_ (.ifAt ?_ hunsupported.sound))
    (Has.ifAt ?_ (Has.ifAt ?_ (hunsupported.has.mono (either_of_left _))))
  · exact .seq (.token rfl) (.seq (.optional (.token rfl)) hcolumn.sound)
  · exact .seq (.token rfl) (.seq (.optional (.token rfl)) hcolumn.sound)
  · exact Has.right (Has.right (hcolumn.has.mono (either_of_right _)))
  · exact Has.right (Has.right (hcolumn.has.mono (either_of_right _)))

theorem alterTable_makes : alterTable.Makes enter (hasRule .alterTableStatement) := by
  refine .node (.seq (.token rfl) (.seq (.token rfl) (.seq tableName_makes.sound
    (alterAction_makes h).sound))) ?_
  intro parts hyields
  constructor
  · exact Has.right (Has.right (Has.left tableName_makes.has)) parts hyields
  · exact Has.right (Has.right (Has.right (alterAction_makes h).has)) parts hyields

omit h in
theorem dropTable_makes : dropTable.Makes enter (hasRule .dropTableStatement) :=
  .node (.seq (.token rfl) (.seq (.token rfl) (.seq (.optional (.seq (.token rfl) (.token rfl)))
    tableName_makes.sound))) (Has.right (Has.right (Has.right tableName_makes.has)))

/-! ### Databases -/

omit h in
theorem databaseName_makes : databaseName.Makes enter (hasRule .databaseName) :=
  .node name_sound name_has

omit h in
theorem use_makes : use.Makes enter (hasRule .useStatement) :=
  .node (.seq (.token rfl) databaseName_makes.sound) (Has.right databaseName_makes.has)

omit h in
theorem showStatement_makes : showStatement.Makes enter isStatement := by
  have htables : (Form.node .showTablesStatement (.all [.word "SHOW", .word "TABLES",
      .optional [isOneOf [.FROM, .IN]] (.seq fromOrIn databaseName)])).Makes enter
      (hasRule .showTablesStatement) :=
    .node (.seq (.token rfl) (.seq (.token rfl) (.optional (.seq (.token rfl)
      databaseName_makes.sound)))) ne_nil_of_token
  have hcolumns : (Form.node .showColumnsStatement (.all [.word "SHOW",
      .token (isWordOf ["COLUMNS", "FIELDS"]) "COLUMNS", fromOrIn, tableName])).Makes enter
      (hasRule .showColumnsStatement) :=
    .node (.seq (.token rfl) (.seq (.token rfl) (.seq (.token rfl) tableName_makes.sound)))
      (Has.right (Has.right (Has.right tableName_makes.has)))
  exact .ifAt (statement_of_makes htables rfl) (.ifAt (statement_of_makes hcolumns rfl)
    refused_makes)

/-! ### Commands -/

omit h in
theorem status?_sound : status?.Sound enter :=
  .optional (.node (.token rfl) fun _ => Has.ne_nil .self)

omit h in
/-- A command on keys starts with a token that is not the end of the text. -/
theorem keysCommand_makes {rule : Rule} {accepts : Token → Bool} {wanted : String}
    (hend : accepts .eof = false) (hshape : ∀ parts : List Tree, parts ≠ [] → rule.Shape parts) :
    (keysCommand rule (.token accepts wanted)).Makes enter (hasRule rule) := by
  have hdestination : (Form.node .destination (.seq (.word "TO")
      (.token isString "a destination string"))).Sound enter :=
    .node (.seq (.token rfl) (.token rfl)) (Has.right .self)
  exact .node (.seq (.token hend) (.seq (.token rfl) (.seq (.optional hdestination)
    status?_sound))) fun parts hyields => hshape parts (ne_nil_of_token parts hyields)

theorem columnCommand_makes {rule : Rule} {verb : String}
    (hshape : ∀ parts : List Tree, parts.any (hasRule .columnName) → rule.Shape parts) :
    (columnCommand rule verb).Makes enter (hasRule rule) :=
  .node (.seq (.token rfl) (.seq (.token rfl) (.seq columnName_makes.sound
    (.seq (.optional (.seq (.token rfl) (h.sound _))) status?_sound))))
    fun parts hyields =>
      hshape parts (Has.right (Has.right (Has.left columnName_makes.has)) parts hyields)

omit h in
theorem stopClause_makes : stopClause.Makes enter (hasRule .stopClause) :=
  .node (.seq (.token rfl) (.ifAt (.token rfl) (.seq (.token rfl) (.seq (.token rfl)
    (.token rfl))))) (Has.right (Has.ofSides .self (Has.right (Has.left .self))))

theorem treeCommand_makes {rule : Rule} {verb : String}
    (hshape : ∀ parts : List Tree, parts ≠ [] → rule.Shape parts) :
    (treeCommand rule verb).Makes enter (hasRule rule) := by
  have hseeds : (Form.node .seedList (.seq (.word "WITH") (.deeper .seeds))).Sound enter :=
    .node (.seq (.token rfl) (h.sound _)) ne_nil_of_token
  exact .node (.seq (.token rfl) (.seq (.token rfl) (.seq (.optional hseeds)
    (.optional stopClause_makes.sound))))
    fun parts hyields => hshape parts (ne_nil_of_token parts hyields)

omit h in
/-- A command of two words. -/
theorem wordsCommand_makes {rule : Rule} {verb noun : String} (hrule : rule.isStatement)
    (hshape : ∀ parts : List Tree, parts ≠ [] → rule.Shape parts) :
    (Form.node rule (.seq (.word verb) (.word noun))).Makes enter isStatement :=
  statement_of_makes (.node (.seq (.token rfl) (.token rfl))
    fun parts hyields => hshape parts (ne_nil_of_token parts hyields)) hrule

omit h in
theorem snapshotCommand_makes {verb : String} {tree schema : Rule} (htree : tree.isStatement)
    (hschema : schema.isStatement)
    (hshape : ∀ parts : List Tree, parts ≠ [] → tree.Shape parts ∧ schema.Shape parts) :
    (snapshotCommand verb tree schema).Makes enter isStatement := by
  exact .ifAt (wordsCommand_makes htree fun parts hne => (hshape parts hne).1) <|
    .ifAt (wordsCommand_makes hschema fun parts hne => (hshape parts hne).2) refused_makes

omit h in
theorem licenseCommand_makes : licenseCommand.Makes enter isStatement := by
  have hkey : (Form.node .licenseKey (.token isString "a string")).Sound enter :=
    .node (.token rfl) Has.self
  have hset : (Form.node .licenseSetKeyStatement (.all [.word "LICENSE", .keyword .SET,
      .keyword .KEY, .optional [isString] (.node .licenseKey (.token isString "a string"))])).Makes
      enter (hasRule .licenseSetKeyStatement) :=
    .node (.seq (.token rfl) (.seq (.token rfl) (.seq (.token rfl) (.optional hkey))))
      ne_nil_of_token
  exact .ifAt (wordsCommand_makes rfl fun _ => id) <|
    .ifAt (wordsCommand_makes rfl fun _ => id) <|
    .ifAt (statement_of_makes hset rfl) refused_makes

/-! ### Statements -/

theorem create_makes : create.Makes enter isStatement :=
  .ifAt (statement_of_makes (createTable_makes h) rfl) <|
    .ifAt (statement_of_makes (createIndex_makes h) rfl) refused_makes

theorem bypass_makes : bypass.Makes enter (hasRule .bypassStatement) := by
  refine .node (.seq (.token rfl) (h.sound _)) ?_
  intro parts hyields
  obtain ⟨_, _, hword, hinner, rfl⟩ := hyields.seq
  obtain ⟨word, rfl, -⟩ := hword.token
  obtain ⟨inner, rfl, hstatement⟩ := h.fits .bypassed _ hinner
  exact ⟨word, inner, rfl, hstatement⟩

/-- **A statement is one well-formed tree of a statement's production.** -/
theorem statement_makes : (statement dialect).Makes enter isStatement := by
  have hcolumn {rule : Rule} {verb : String} (hrule : rule.isStatement)
      (hshape : ∀ parts : List Tree, parts.any (hasRule .columnName) → rule.Shape parts) :
      (columnCommand rule verb).Makes enter isStatement :=
    statement_of_makes (columnCommand_makes h hshape) hrule
  have htree {rule : Rule} {verb : String} (hrule : rule.isStatement)
      (hshape : ∀ parts : List Tree, parts ≠ [] → rule.Shape parts) :
      (treeCommand rule verb).Makes enter isStatement :=
    statement_of_makes (treeCommand_makes h hshape) hrule
  exact .ifAt showStatement_makes <|
    .ifAt (statement_of_makes (keysCommand_makes rfl fun _ => id) rfl) <|
    .ifAt (hcolumn rfl fun _ => id) <|
    .ifAt (hcolumn rfl fun _ => id) <|
    .ifAt (htree rfl fun _ => id) <|
    .ifAt (htree rfl fun _ => id) <|
    .ifAt (snapshotCommand_makes rfl rfl fun _ hne => ⟨hne, hne⟩) <|
    .ifAt (snapshotCommand_makes rfl rfl fun _ hne => ⟨hne, hne⟩) <|
    .ifAt (statement_of_makes (bypass_makes h) rfl) <|
    .ifAt licenseCommand_makes <|
    .ifAt (statement_of_makes (select_makes dialect h) rfl) <|
    .ifAt (statement_of_makes (insert_makes dialect h) rfl) <|
    .ifAt (statement_of_makes (keysCommand_makes rfl fun _ => id) rfl) <|
    .ifAt (statement_of_makes (update_makes h) rfl) <|
    .ifAt (statement_of_makes (delete_makes h) rfl) <|
    .ifAt (create_makes h) <|
    .ifAt (statement_of_makes (alterTable_makes h) rfl) <|
    .ifAt (statement_of_makes dropTable_makes rfl) <|
    .ifAt (statement_of_makes use_makes rfl) .refuse

/-! ### What the constructs stand for -/

/-- One level deeper stands what the construct stands for. -/
theorem bodies_sound (construct : Construct) :
    (bodies dialect construct).Sound enter ∧
      ∀ trees, (bodies dialect construct).Yields enter trees → construct.Fits trees := by
  have made {form : Form} {rule : Rule} (hform : form.Makes enter (hasRule rule))
      (hrule : construct.rule? = some rule) :
      form.Sound enter ∧ ∀ trees, form.Yields enter trees → construct.Fits trees := by
    refine ⟨hform.sound, ?_⟩
    intro trees hyields
    obtain ⟨tree, rfl, htree, -⟩ := hform trees hyields
    exact (Construct.fits_iff hrule).mpr ⟨tree, rfl, htree⟩
  cases construct with
  | negation => exact made (negationBody_makes h) rfl
  | signed => exact made (signedBody_makes h) rfl
  | sumTail =>
    exact ⟨deepChainTail_sound (product_makes h) (h.sound _) rfl,
      fun trees => deepChainTail_operations (product_makes h) (h.fits .sumTail)⟩
  | productTail =>
    exact ⟨deepChainTail_sound (unary_makes h) (h.sound _) rfl,
      fun trees => deepChainTail_operations (unary_makes h) (h.fits .productTail)⟩
  | paren => exact made (parenBody_makes h) rfl
  | arguments => exact ⟨argumentsBody_sound h, fun _ _ => trivial⟩
  | subquery => exact made (subqueryBody_makes dialect h) rfl
  | derivedTable => exact made (derivedTableBody_makes dialect h) rfl
  | members => exact made (parenthesized_makes (expression_makes h).sound fun _ => id) rfl
  | valueRow => exact made (parenthesized_makes (expression_makes h).sound fun _ => id) rfl
  | seeds => exact made (parenthesized_makes (unary_makes h).sound fun _ => id) rfl
  | columns => exact made (parenthesized_makes columnName_makes.sound fun _ => id) rfl
  | keyColumns =>
    have hcolumn : (Form.node .indexColumn (.seq columnName direction)).Sound enter :=
      .node (.seq columnName_makes.sound direction_sound) (Has.left columnName_makes.has)
    exact made (parenthesized_makes hcolumn fun _ => id) rfl
  | tableElements => exact made (parenthesized_makes (tableElement_sound h) fun _ => id) rfl
  | typeArguments => exact made (parenthesized_makes (.token rfl) fun _ => id) rfl
  | countingArguments => exact made (parenthesized_makes (.token rfl) fun _ => id) rfl
  | flags => exact made (parenthesized_makes name_sound fun _ => id) rfl
  | bypassed =>
    refine ⟨(statement_makes dialect h).sound, fun trees hyields => ?_⟩
    obtain ⟨tree, rfl, hstatement, -⟩ := statement_makes dialect h trees hyields
    exact ⟨tree, rfl, hstatement⟩

end

/-- **At every depth, the constructs yield well-formed trees.** The induction is on the levels that
are left. -/
theorem regular_enter (limit left : Nat) :
    Regular (Grammar.enter (bodies dialect) limit left) := by
  induction left with
  | zero =>
    constructor
    · rintro construct trees ⟨input, rest, hread⟩
      cases hread
    · rintro construct trees ⟨input, rest, hread⟩
      cases hread
  | succ left ih =>
    constructor
    · exact fun construct => (bodies_sound dialect ih construct).1
    · exact fun construct => (bodies_sound dialect ih construct).2

/-! ### Batches -/

theorem semicolons_sound : semicolons.Sound enter := .whileAt (.token rfl)

theorem isLeaf_of_semicolons {trees : List Tree} (hyields : semicolons.Yields enter trees) :
    ∀ tree ∈ trees, tree.isLeaf := by
  obtain ⟨rounds, hrounds, rfl⟩ := hyields.whileAt
  intro tree hmem
  obtain ⟨round, hround, hmem⟩ := List.mem_flatten.mp hmem
  obtain ⟨lexeme, rfl, -⟩ := (hrounds round hround).token
  obtain rfl := List.mem_singleton.mp hmem
  rfl

variable {dialect}

theorem batch_sound (h : Regular enter) : (batch dialect).Sound enter :=
  .seq semicolons_sound (.whileAt (.seq (statement_makes dialect h).sound
    (.ifAt semicolons_sound .refuse)))

/-- A batch consists of statements and semicolons. -/
theorem batch_parts (h : Regular enter) {trees : List Tree}
    (hyields : (batch dialect).Yields enter trees) :
    ∀ tree ∈ trees, tree.isLeaf ∨ tree.isStatement := by
  obtain ⟨before, statements, hbefore, hstatements, rfl⟩ := hyields.seq
  obtain ⟨rounds, hrounds, rfl⟩ := hstatements.whileAt
  intro tree hmem
  rcases List.mem_append.mp hmem with hmem | hmem
  · exact .inl (isLeaf_of_semicolons hbefore tree hmem)
  obtain ⟨round, hround, hmem⟩ := List.mem_flatten.mp hmem
  obtain ⟨first, after, hfirst, hafter, rfl⟩ := (hrounds round hround).seq
  rcases List.mem_append.mp hmem with hmem | hmem
  · obtain ⟨statement, rfl, hstatement, -⟩ := statement_makes dialect h first hfirst
    obtain rfl := List.mem_singleton.mp hmem
    exact .inr hstatement
  · rcases hafter.ifAt with hafter | hafter
    · exact .inl (isLeaf_of_semicolons hafter tree hmem)
    · exact hafter.refuse.elim

end SqlFront.Grammar
