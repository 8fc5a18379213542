import SqlFront.Parser.Statement

/-!
The parser reads what the forms of the grammar describe: from the same tokens, a production and its
form come to the same trees and leave the same tokens, or end at the same fault.

Each production is run here step by step, where it takes a token and where it puts the leaf.
-/

namespace SqlFront

/-- A word counts as another one exactly when the two are the same. -/
theorem Token.isWord_eq_sameWord {token : Token} {word other : String} (h : token.isWord word) :
    token.isWord other = sameWord word other := by
  cases token with
  | name text =>
    have hsame : text.toList.map Char.toLower = word.toList.map Char.toLower := eq_of_beq h
    rw [isWord, sameWord, sameWord, hsame]
  | _ => cases h

open Grammar

namespace Parser

variable {α β : Type} {input : List Lexeme}

@[simp]
theorem map_throw (f : α → β) (fault : Fault) :
    f <$> (throw fault : Except Fault α) = throw fault := rfl

@[simp]
theorem throw_bind (next : α → Except Fault β) (fault : Fault) :
    (throw fault : Except Fault α) >>= next = throw fault := rfl

@[simp]
theorem run_peek (places : Nat) :
    (peek places).run input = pure (Grammar.current (input.drop places), input) := rfl

@[simp]
theorem run_current : (current : Parser Token).run input = pure (Grammar.current input, input) :=
  rfl

@[simp]
theorem run_fail (cause : SyntaxCause) :
    (fail cause : Parser α).run input = throw (faultAt input cause) := rfl

@[simp]
theorem run_unexpected (wanted : String) : (unexpected wanted : Parser α).run input =
    throw (faultAt input (.unexpectedToken wanted (Grammar.current input))) := rfl

@[simp]
theorem run_advance (lexeme : Lexeme) :
    advance.run (lexeme :: input) = pure (.leaf lexeme, input) := rfl

@[simp]
theorem run_ite (c : Prop) [Decidable c] (yes no : Parser α) :
    (if c then yes else no).run input = if c then yes.run input else no.run input := by
  split <;> rfl

section

variable {test : Token → Bool} {wanted : String}

theorem run_expect_of (h : test (Grammar.current input) = true) :
    (expect test wanted).run input = advance.run input := by
  simp [expect, h]

theorem run_expect_of_not (h : ¬test (Grammar.current input) = true) :
    (expect test wanted).run input = (unexpected wanted : Parser Tree).run input := by
  simp [expect, h]

theorem run_accept_of (h : test (Grammar.current input) = true) :
    (accept test).run input = (fun made => (some made.1, made.2)) <$> advance.run input := by
  simp [accept, h]

theorem run_accept_of_not (h : ¬test (Grammar.current input) = true) :
    (accept test).run input = pure (none, input) := by
  simp [accept, h]

end

end Parser

namespace Grammar

open SqlFront.Parser

variable {enter : Construct → Reader} {input : List Lexeme}

/-- What a parser makes, as the trees that a form reads. -/
def asTrees {α : Type} (trees : α → List Tree) (made : Except Fault (α × List Lexeme)) :
    Outcome :=
  (fun made => (trees made.1, made.2)) <$> made

@[simp]
theorem read_empty : Form.empty.read enter input = pure ([], input) := rfl

@[simp]
theorem read_seq (first second : Form) :
    (Form.seq first second).read enter input =
      first.read enter input >>= fun made =>
        (fun more => (made.1 ++ more.1, more.2)) <$> second.read enter made.2 := by
  simp only [← bind_pure_comp]
  rfl

@[simp]
theorem read_node (rule : Rule) (parts : Form) :
    (Form.node rule parts).read enter input =
      (fun made => ([Tree.ofParts rule made.1], made.2)) <$> parts.read enter input := by
  simp only [← bind_pure_comp]
  rfl

@[simp]
theorem read_extend (first rest : Form) (rule : Token → Token → Option Rule) :
    (Form.extend first rule rest).read enter input =
      first.read enter input >>= fun made =>
        match rule (Grammar.current made.2) (Grammar.current made.2.tail) with
        | none => pure made
        | some rule =>
            (fun more => ([Tree.ofParts rule (made.1 ++ more.1)], more.2)) <$>
              rest.read enter made.2 := by
  simp only [← bind_pure_comp]
  rfl

@[simp]
theorem read_ifAt (test : Token → Bool) (yes no : Form) :
    (Form.ifAt [test] yes no).read enter input =
      if test (Grammar.current input) then yes.read enter input else no.read enter input := by
  simp only [Form.read, Lookahead.holds, Bool.and_true]

@[simp]
theorem read_ifAt_pair (test next : Token → Bool) (yes no : Form) :
    (Form.ifAt [test, next] yes no).read enter input =
      if test (Grammar.current input) && next (Grammar.current input.tail) then
        yes.read enter input
      else no.read enter input := by
  simp only [Form.read, Lookahead.holds, Bool.and_true]

@[simp]
theorem read_optional (test : Token → Bool) (form : Form) :
    (Form.optional [test] form).read enter input =
      if test (Grammar.current input) then form.read enter input else pure ([], input) :=
  read_ifAt test form .empty

@[simp]
theorem read_unexpected (wanted : String) : (Form.unexpected wanted).read enter input =
    throw (faultAt input (.unexpectedToken wanted (Grammar.current input))) := rfl

@[simp]
theorem read_all_cons (first second : Form) (forms : List Form) :
    (Form.all (first :: second :: forms)).read enter input =
      (Form.seq first (.all (second :: forms))).read enter input := rfl

@[simp]
theorem read_all_singleton (form : Form) :
    (Form.all [form]).read enter input = form.read enter input := rfl

theorem read_token (test : Token → Bool) (wanted : String) (heof : test .eof = false) :
    (Form.token test wanted).read enter input =
      asTrees ([·]) ((expect test wanted).run input) := by
  by_cases htest : test (Grammar.current input) = true
  · rw [run_expect_of htest]
    cases input with
    | nil => cases heof.symm.trans htest
    | cons lexeme rest => exact if_pos htest
  · rw [run_expect_of_not htest]
    cases input with
    | nil => rfl
    | cons lexeme rest => exact if_neg htest

@[simp]
theorem read_keyword (k : Keyword) :
    (Form.keyword k).read enter input = asTrees ([·]) ((expectKeyword k).run input) :=
  read_token (isKeyword k) _ rfl

@[simp]
theorem read_symbol (s : Symbol) :
    (Form.symbol s).read enter input = asTrees ([·]) ((expectSymbol s).run input) :=
  read_token (isSymbol s) _ rfl

@[simp]
theorem read_word (w : String) :
    (Form.word w).read enter input = asTrees ([·]) ((expectWord w).run input) :=
  read_token (Token.isWord w) _ rfl

@[simp]
theorem read_name : Form.name.read enter input = asTrees ([·]) (expectName.run input) :=
  read_token Token.isName _ rfl

theorem read_optionalToken (test : Token → Bool) (wanted : String) (heof : test .eof = false) :
    (Form.optional [test] (.token test wanted)).read enter input =
      asTrees Option.toList ((accept test).run input) := by
  by_cases htest : test (Grammar.current input) = true
  · simp [htest, read_token test wanted heof, run_expect_of htest, run_accept_of htest, asTrees]
  · simp [htest, run_accept_of_not htest, asTrees]

@[simp high]
theorem read_optionalKeyword (k : Keyword) :
    (Form.optional [isKeyword k] (.keyword k)).read enter input =
      asTrees Option.toList ((accept (isKeyword k)).run input) :=
  read_optionalToken (isKeyword k) _ rfl

@[simp high]
theorem read_optionalWord (w : String) :
    (Form.optional [Token.isWord w] (.word w)).read enter input =
      asTrees Option.toList ((accept (Token.isWord w)).run input) :=
  read_optionalToken (Token.isWord w) _ rfl

theorem isName_of_isPlainName {token : Token} (h : isPlainName token = true) :
    token.isName = true := by
  cases token <;> first | rfl | cases h

theorem isPlainName_of_isWordOf {words : List String} {token : Token}
    (h : isWordOf words token = true) : isPlainName token = true := by
  obtain ⟨word, -, hword⟩ := List.any_eq_true.mp h
  cases token <;> first | rfl | cases hword

/-! ### Repetitions -/

/-- Reading puts the trees behind those that are there. -/
def behind (parts : List Tree) (read : Outcome) : Outcome :=
  (fun made => (parts ++ made.1, made.2)) <$> read

section

variable {look : Lookahead} {body form : Form} {round : List Tree → Parser (Option (List Tree))}
  {item : Parser Tree}

theorem readWhile_zero {body : Reader} : readWhile look body 0 input = pure ([], input) := rfl

theorem readWhile_succ {body : Reader} (times : Nat) :
    readWhile look body (times + 1) input =
      if look.holds input then
        body input >>= fun made =>
          (fun more => (made.1 ++ more.1, more.2)) <$> readWhile look body times made.2
      else pure ([], input) := by
  simp only [readWhile, ← bind_pure_comp]
  rfl

theorem read_whileAt (look : Lookahead) (body : Form) :
    (Form.whileAt look body).read enter input =
      readWhile look (body.read enter) input.length input := rfl

theorem run_rounds
    (hround : ∀ parts input, (round parts).run input =
      if look.holds input then
        (fun made => (some (parts ++ made.1), made.2)) <$> body.read enter input
      else pure (none, input))
    (times : Nat) (parts : List Tree) (input : List Lexeme) :
    (rounds round times parts).run input =
      behind parts (readWhile look (body.read enter) times input) := by
  induction times generalizing parts input with
  | zero => simp [rounds, readWhile_zero, behind]
  | succ times ih =>
    rw [rounds, readWhile_succ, StateT.run_bind, hround]
    by_cases hlook : look.holds input = true
    · simp [hlook, ih, behind]
    · simp [hlook, behind]

theorem run_repeated
    (hround : ∀ parts input, (round parts).run input =
      if look.holds input then
        (fun made => (some (parts ++ made.1), made.2)) <$> body.read enter input
      else pure (none, input))
    (parts : List Tree) (input : List Lexeme) :
    (repeated round parts).run input =
      behind parts ((Form.whileAt look body).read enter input) := by
  rw [read_whileAt, ← run_rounds hround]
  rfl

/-- Items are read like the form of one. -/
theorem run_addItems
    (hitem : ∀ input, form.read enter input = asTrees ([·]) (item.run input))
    (parts : List Tree) (input : List Lexeme) :
    (addItems item parts).run input = behind parts ((Form.commaList form).read enter input) := by
  have round (parts : List Tree) (input : List Lexeme) : (itemRound item parts).run input =
      if Lookahead.holds [isSymbol .comma] input then
        (fun made => (some (parts ++ made.1), made.2)) <$>
          (Form.seq (.symbol .comma) form).read enter input
      else pure (none, input) := by
    by_cases hcomma : isSymbol .comma (Grammar.current input) = true
    · simp [itemRound, hcomma, Lookahead.holds, run_accept_of hcomma, expectSymbol,
        run_expect_of hcomma, hitem, asTrees]
    · simp [itemRound, hcomma, Lookahead.holds, run_accept_of_not hcomma]
  have more (parts : List Tree) (input : List Lexeme) := run_repeated round parts input
  simp only [addItems, StateT.run_bind, more, behind, List.append_assoc, List.cons_append,
    List.nil_append, Form.commaList, read_seq, hitem, asTrees, bind_map_left, map_bind,
    Functor.map_map]
  rfl

end

/-! ### Names -/

theorem read_alias? :
    Grammar.alias?.read enter input = asTrees Option.toList (Parser.alias?.run input) := by
  rw [Grammar.alias?, Parser.alias?]
  by_cases has : isKeyword .AS (Grammar.current input) = true
  · simp [has, run_accept_of has, run_expect_of has, asTrees, expectKeyword]
  · by_cases hname : (Grammar.current input).isName = true
    · simp [has, hname, run_accept_of_not has, run_expect_of hname, asTrees, expectName]
    · simp [has, hname, run_accept_of_not has, asTrees]

theorem read_dotName :
    dotName.read enter input = (expectSymbol .dot).run input >>= fun dot =>
      (fun name => ([dot.1, name.1], name.2)) <$> expectName.run dot.2 := by
  simp [dotName, asTrees]

theorem run_repeated_cons (round : List Tree → Parser (Option (List Tree))) (parts : List Tree)
    (lexeme : Lexeme) :
    (repeated round parts).run (lexeme :: input) =
      (round parts).run (lexeme :: input) >>= fun made =>
        match made.1 with
        | some parts => (rounds round input.length parts).run made.2
        | none => pure (parts, made.2) := by
  change (rounds round (input.length + 1) parts).run (lexeme :: input) = _
  rw [rounds, StateT.run_bind]
  congr 1
  funext made
  cases made.1 <;> rfl

theorem run_qualifiers_of_five (times : Nat) {parts : List Tree} (h : parts.length = 5) :
    (rounds qualifierRound times parts).run input = pure (parts, input) := by
  cases times with
  | zero => rfl
  | succ times => simp [rounds, qualifierRound, h]

/-- A table takes at most two qualifiers, which are five parts with its name and the dots. -/
theorem run_qualifiers (enter : Construct → Reader) (first : Tree) (input : List Lexeme) :
    (repeated qualifierRound [first]).run input =
      behind [first] ((Form.optional [isSymbol .dot]
        (.seq dotName (.optional [isSymbol .dot] dotName))).read enter input) := by
  by_cases hdot : isSymbol .dot (Grammar.current input) = true
  · cases input with
    | nil => cases hdot
    | cons dot input =>
      by_cases hname : (Grammar.current input).isName = true
      · cases input with
        | nil => cases hname
        | cons name input =>
          by_cases hnext : isSymbol .dot (Grammar.current input) = true
          · simp [run_repeated_cons, qualifierRound, hdot, read_dotName, expectSymbol,
              run_expect_of hdot, expectName, run_expect_of hname, behind, rounds, hnext,
              run_expect_of hnext, run_qualifiers_of_five]
          · simp [run_repeated_cons, qualifierRound, hdot, read_dotName, expectSymbol,
              run_expect_of hdot, expectName, run_expect_of hname, behind, rounds, hnext]
      · simp [run_repeated_cons, qualifierRound, hdot, read_dotName, expectSymbol,
          run_expect_of hdot, expectName, run_expect_of_not hname, behind]
  · cases input with
    | nil => rfl
    | cons lexeme input => simp [run_repeated_cons, qualifierRound, hdot, behind]

theorem read_tableName :
    Grammar.tableName.read enter input = asTrees ([·]) ((Parser.tableName false).run input) := by
  have more (first : Tree) (input : List Lexeme) := run_qualifiers enter first input
  simp [Grammar.tableName, tableParts, Parser.tableName, asTrees, more, behind]

theorem read_aliasedTable :
    aliasedTable.read enter input = asTrees ([·]) ((Parser.tableName true).run input) := by
  have more (first : Tree) (input : List Lexeme) := run_qualifiers enter first input
  simp [aliasedTable, tableParts, Parser.tableName, asTrees, more, behind, read_alias?]

theorem run_qualified (enter : Construct → Reader) (times : Nat) (parts : List Tree)
    (input : List Lexeme) :
    (qualified false times parts).run input =
      (fun made => ((.columnName, parts ++ made.1), made.2)) <$>
        readWhile [isSymbol .dot] (dotName.read enter) times input := by
  induction times generalizing parts input with
  | zero => simp [qualified, readWhile_zero]
  | succ times ih =>
    by_cases hdot : isSymbol .dot (Grammar.current input) = true
    · simp [qualified, readWhile_succ, Lookahead.holds, hdot, ih, read_dotName, expectSymbol,
        run_expect_of hdot]
    · simp [qualified, readWhile_succ, Lookahead.holds, hdot]

theorem read_columnName :
    columnName.read enter input = asTrees ([·]) ((column false).run input) := by
  have more (times : Nat) (parts : List Tree) (input : List Lexeme) :=
    run_qualified enter times parts input
  simp [columnName, column, asTrees, more, read_whileAt]

/-- A star behind a dot ends a column, unless the tokens end first. -/
theorem run_qualified_star (enter : Construct → Reader) (times : Nat) (parts : List Tree)
    (input : List Lexeme)
    (htimes : input.length ≤ times) :
    (qualified true times parts).run input =
      readWhile [isSymbol .dot, fun token => !isSymbol .star token] (dotName.read enter) times
        input >>= fun made =>
        if isSymbol .dot (Grammar.current made.2) then
          (fun more => ((.allColumns, parts ++ made.1 ++ more.1), more.2)) <$>
            (Form.seq (.symbol .dot) (.symbol .star)).read enter made.2
        else pure ((.columnName, parts ++ made.1), made.2) := by
  induction times generalizing parts input with
  | zero =>
    obtain rfl := List.eq_nil_of_length_eq_zero (Nat.le_zero.mp htimes)
    simp [qualified, readWhile_zero, Grammar.current, isSymbol]
  | succ times ih =>
    by_cases hdot : isSymbol .dot (Grammar.current input) = true
    · cases input with
      | nil => cases hdot
      | cons dot input =>
        by_cases hstar : isSymbol .star (Grammar.current input) = true
        · simp [qualified, readWhile_succ, Lookahead.holds, hdot, hstar, asTrees, expectSymbol,
            run_expect_of hdot, run_expect_of hstar]
        · by_cases hname : (Grammar.current input).isName = true
          · cases input with
            | nil => cases hname
            | cons name input =>
              have hrest : input.length ≤ times := by
                simp only [List.length_cons] at htimes
                omega
              simp [qualified, readWhile_succ, Lookahead.holds, hdot, hstar, read_dotName,
                expectSymbol, run_expect_of hdot, expectName, run_expect_of hname, ih _ _ hrest]
          · simp [qualified, readWhile_succ, Lookahead.holds, hdot, hstar, read_dotName,
              expectSymbol, run_expect_of hdot, expectName, run_expect_of_not hname]
    · simp [qualified, readWhile_succ, Lookahead.holds, hdot]

theorem read_columnOrAll :
    columnOrAll.read enter input = asTrees ([·]) ((column true).run input) := by
  have more (parts : List Tree) (input : List Lexeme) :=
    run_qualified_star enter _ parts input (Nat.le_refl _)
  simp only [columnOrAll, read_extend, read_seq, read_name, read_whileAt, read_optional, column,
    asTrees, more, StateT.run_bind, StateT.run_get, StateT.run_pure, map_bind, bind_map_left,
    Functor.map_map, bind_assoc, pure_bind, List.singleton_append]
  refine bind_congr fun name => bind_congr fun names => ?_
  by_cases hdot : isSymbol .dot (Grammar.current names.2) = true
  · simp [hdot, asTrees]
  · simp [hdot]

theorem read_direction :
    direction.read enter input =
      asTrees Option.toList ((accept (isOneOf [.ASC, .DESC])).run input) :=
  read_optionalToken _ _ rfl

/-! ### Levels -/

end Grammar

/-- What can be entered deeper reads what the constructs are made of. -/
structure Parser.Deeper.Matches (deeper : Deeper) (dialect : Dialect)
    (enter : Construct → Reader) : Prop where
  expression (input : List Lexeme) :
    Grammar.expression.read enter input = asTrees ([·]) (deeper.expression.run input)
  negatable (input : List Lexeme) :
    Grammar.negatable.read enter input = asTrees ([·]) (deeper.negatable.run input)
  unary (input : List Lexeme) :
    Grammar.unary.read enter input = asTrees ([·]) (deeper.unary.run input)
  sumTail (parts : List Tree) {input : List Lexeme} : isSign (Grammar.current input) →
    (deeper.sumTail parts).run input = behind parts (sumTailBody.read enter input)
  productTail (parts : List Tree) {input : List Lexeme} :
    isProductSign (Grammar.current input) →
    (deeper.productTail parts).run input = behind parts (productTailBody.read enter input)
  select (input : List Lexeme) :
    (Grammar.select dialect).read enter input = asTrees ([·]) (deeper.select.run input)
  tableElement (input : List Lexeme) :
    Grammar.tableElement.read enter input = asTrees ([·]) (deeper.tableElement.run input)
  statement (input : List Lexeme) :
    (Grammar.statement dialect).read enter input = asTrees ([·]) (deeper.statement.run input)

/-- A level reads deeper what the constructs do, and fails where these fail. -/
def Parser.Level.Matches (level : Level) (enter : Construct → Reader) : Prop :=
  match level.deeper?.get with
  | none => ∀ construct input,
      enter construct input = .error (faultAt input (.nestingLimit level.limit))
  | some deeper => ∃ inner, deeper.Matches level.dialect inner ∧
      ∀ construct, enter construct = (bodies level.dialect construct).read inner

namespace Grammar

open SqlFront.Parser

variable {level : Level} {enter : Construct → Reader} {input : List Lexeme}

theorem read_deeper {α : Type} {trees : α → List Tree} {inner : Deeper → Parser α}
    (h : level.Matches enter) (construct : Construct)
    (hbody : ∀ deeper enter, deeper.Matches level.dialect enter →
      (bodies level.dialect construct).read enter input =
        asTrees trees ((inner deeper).run input)) :
    (Form.deeper construct).read enter input = asTrees trees ((level.nested inner).run input) := by
  rw [Form.read, Level.nested]
  rw [Level.Matches] at h
  cases hdeeper : level.deeper?.get with
  | none =>
    rw [hdeeper] at h
    exact h construct input
  | some deeper =>
    rw [hdeeper] at h
    obtain ⟨enter', hdeep, henter⟩ := h
    rw [henter]
    exact hbody deeper enter' hdeep

theorem run_nested {α : Type} {inner : Deeper → Parser α}
    {make : List Tree × List Lexeme → α × List Lexeme} (h : level.Matches enter)
    (construct : Construct)
    (hbody : ∀ deeper enter, deeper.Matches level.dialect enter →
      (inner deeper).run input = make <$> (bodies level.dialect construct).read enter input) :
    (level.nested inner).run input = make <$> (Form.deeper construct).read enter input := by
  rw [Form.read, Level.nested]
  rw [Level.Matches] at h
  cases hdeeper : level.deeper?.get with
  | none =>
    rw [hdeeper] at h
    rw [h]
    rfl
  | some deeper =>
    rw [hdeeper] at h
    obtain ⟨enter', hdeep, henter⟩ := h
    rw [henter]
    exact hbody deeper enter' hdeep

theorem read_parenthesized {rule : Rule} {form : Form} {item : Deeper → Parser Tree}
    (h : level.Matches enter) (construct : Construct)
    (hconstruct : bodies level.dialect construct = .node rule (.parenthesized form))
    (hitem : ∀ deeper enter, deeper.Matches level.dialect enter → ∀ input,
      form.read enter input = asTrees ([·]) ((item deeper).run input)) :
    (Form.deeper construct).read enter input =
      asTrees ([·]) ((level.parenthesized rule item).run input) := by
  refine read_deeper h construct fun deeper enter hdeep => ?_
  have items (parts : List Tree) (input : List Lexeme) :=
    run_addItems (hitem deeper enter hdeep) parts input
  simp [hconstruct, Form.parenthesized, asTrees, items, behind]

/-! ### Operands -/

theorem read_subquery (h : level.Matches enter) :
    (Form.deeper .subquery).read enter input = asTrees ([·]) (level.subquery.run input) := by
  refine read_deeper h _ fun deeper enter hdeep => ?_
  simp [bodies, subqueryBody, asTrees, hdeep.select]

theorem read_paren (h : level.Matches enter)
    (hopen : isSymbol .leftParen (Grammar.current input) = true) :
    (Form.deeper .paren).read enter input = asTrees ([·]) (level.paren.run input) := by
  refine read_deeper h _ fun deeper enter hdeep => ?_
  simp [bodies, parenBody, asTrees, hdeep.expression, expectSymbol, run_expect_of hopen]

theorem run_addArguments {deeper : Deeper} {dialect : Dialect} (h : deeper.Matches dialect enter)
    (parts : List Tree) (input : List Lexeme) :
    (deeper.addArguments parts).run input = behind parts
      ((Form.ifAt [isSymbol .star] (.node .allColumns (.symbol .star))
        (.optional [fun token => !isSymbol .rightParen token]
          (.commaList Grammar.expression))).read enter input) := by
  by_cases hstar : isSymbol .star (Grammar.current input) = true
  · simp [Deeper.addArguments, hstar, behind, asTrees, expectSymbol, run_expect_of hstar]
  · by_cases hclose : isSymbol .rightParen (Grammar.current input) = true
    · simp [Deeper.addArguments, hstar, hclose, behind]
    · simp [Deeper.addArguments, hstar, hclose, run_addItems h.expression]

theorem run_call {deeper : Deeper} {dialect : Dialect} (h : deeper.Matches dialect enter)
    (name : Tree) (input : List Lexeme) :
    (deeper.call name).run input =
      (fun made => (.ofParts .functionCall (name :: made.1), made.2)) <$>
        argumentsBody.read enter input := by
  simp only [Deeper.call, argumentsBody, read_all_cons, read_all_singleton, read_seq, read_symbol,
    read_optionalKeyword, StateT.run_bind, asTrees, run_addArguments h]
  simp [behind]

theorem read_functionCall (h : level.Matches enter)
    (hname : isPlainName (Grammar.current input) = true) :
    (Form.node .functionCall (.seq .name (.deeper .arguments))).read enter input =
      asTrees ([·]) (level.functionCall.run input) := by
  have named := isName_of_isPlainName hname
  have call (name : Tree) (input : List Lexeme) : (level.nested (·.call name)).run input =
      (fun made => (.ofParts .functionCall (name :: made.1), made.2)) <$>
        (Form.deeper .arguments).read enter input :=
    run_nested h .arguments fun deeper enter hdeep => run_call hdeep name input
  simp [Level.functionCall, expectName, run_expect_of named, asTrees, call]

theorem read_primary (h : level.Matches enter) :
    Grammar.primary.read enter input = asTrees ([·]) (level.primary.run input) := by
  simp only [Grammar.primary, Level.primary, read_ifAt, read_ifAt_pair, StateT.run_bind,
    run_current, run_peek, pure_bind, List.drop_one, run_ite]
  by_cases hquery : (isSymbol .leftParen (Grammar.current input) &&
      isKeyword .SELECT (Grammar.current input.tail)) = true
  · rw [if_pos hquery, if_pos hquery, read_subquery h]
  rw [if_neg hquery, if_neg hquery]
  by_cases hparen : isSymbol .leftParen (Grammar.current input) = true
  · rw [if_pos hparen, if_pos hparen, read_paren h hparen]
  rw [if_neg hparen, if_neg hparen]
  by_cases hliteral : isLiteral (Grammar.current input) = true
  · simp [hliteral, read_token isLiteral _ rfl, run_expect_of hliteral, asTrees]
  rw [if_neg hliteral, if_neg hliteral]
  by_cases hplace : isPlaceholder (Grammar.current input) = true
  · simp [hplace, read_token isPlaceholder _ rfl, run_expect_of hplace, asTrees]
  rw [if_neg hplace, if_neg hplace]
  by_cases hcall : (isPlainName (Grammar.current input) &&
      isSymbol .leftParen (Grammar.current input.tail)) = true
  · rw [if_pos hcall, if_pos hcall, read_functionCall h (Bool.and_eq_true_iff.mp hcall).1]
  rw [if_neg hcall, if_neg hcall]
  by_cases hbare : isWordOf bareFunctions (Grammar.current input) = true
  · have named := isName_of_isPlainName (isPlainName_of_isWordOf hbare)
    simp [hbare, expectName, run_expect_of named, asTrees]
  rw [if_neg hbare, if_neg hbare]
  by_cases hname : (Grammar.current input).isName = true
  · rw [if_pos hname, if_pos hname, read_columnOrAll]
  · rw [if_neg hname, if_neg hname]
    rfl

theorem read_unary (h : level.Matches enter) :
    Grammar.unary.read enter input = asTrees ([·]) (level.unary.run input) := by
  simp only [Grammar.unary, Level.unary, read_ifAt, StateT.run_bind, run_current, pure_bind,
    run_ite]
  by_cases hsign : isSign (Grammar.current input) = true
  · rw [if_pos hsign, if_pos hsign]
    refine read_deeper h _ fun deeper enter hdeep => ?_
    simp [bodies, signedBody, asTrees, hdeep.unary, read_token isSign _ rfl, run_expect_of hsign]
  · rw [if_neg hsign, if_neg hsign, read_primary h]

/-! ### Chains -/

section

variable {isOperator : Token → Bool} {operand : Parser Tree} {form rest : Form}
  {tail : List Tree → Parser (List Tree)} {construct : Construct}
  {round : Deeper → List Tree → Parser (List Tree)}

theorem read_chain (rule : Rule)
    (hoperand : ∀ input, form.read enter input = asTrees ([·]) (operand.run input))
    (htail : ∀ parts input, isOperator (Grammar.current input) = true →
      (tail parts).run input = behind parts (rest.read enter input)) :
    (Form.extend form (whenAt isOperator rule) rest).read enter input =
      asTrees ([·]) ((chain rule isOperator operand tail).run input) := by
  simp only [chain, read_extend, hoperand, asTrees, StateT.run_bind, map_bind, bind_map_left]
  refine bind_congr fun first => ?_
  by_cases hop : isOperator (Grammar.current first.2) = true
  · simp [whenAt, hop, htail, behind]
  · simp [whenAt, hop]

/-- A flat chain is read like its operands. -/
theorem read_flatChain (rule : Rule) (heof : isOperator .eof = false)
    (hoperand : ∀ input, form.read enter input = asTrees ([·]) (operand.run input)) :
    (Grammar.flatChain rule isOperator form).read enter input =
      asTrees ([·]) ((Parser.flatChain rule isOperator operand).run input) := by
  have round (parts : List Tree) (input : List Lexeme) :
      (operatorRound isOperator operand parts).run input =
        if Lookahead.holds [isOperator] input then
          (fun made => (some (parts ++ made.1), made.2)) <$>
            (Form.seq (.token isOperator "an operator") form).read enter input
        else pure (none, input) := by
    by_cases hop : isOperator (Grammar.current input) = true
    · simp [operatorRound, hop, Lookahead.holds, hoperand, asTrees, read_token isOperator _ heof,
        run_expect_of hop]
    · simp [operatorRound, hop, Lookahead.holds]
  exact read_chain rule hoperand fun parts input _ => run_repeated round parts input

theorem run_deepTail (h : level.Matches enter) (construct : Construct)
    (hround : ∀ deeper enter, deeper.Matches level.dialect enter → ∀ parts {input},
      isOperator (Grammar.current input) = true → (round deeper parts).run input =
        behind parts ((bodies level.dialect construct).read enter input))
    (parts : List Tree) (input : List Lexeme) :
    (level.deepTail isOperator round parts).run input =
      behind parts ((Form.optional [isOperator] (.deeper construct)).read enter input) := by
  by_cases hop : isOperator (Grammar.current input) = true
  · simp only [Level.deepTail, StateT.run_bind, run_current, pure_bind, if_pos hop, read_optional]
    exact run_nested h construct fun deeper enter hdeep => hround deeper enter hdeep parts hop
  · simp [Level.deepTail, hop, behind]

theorem run_deepRound (h : level.Matches enter) (construct : Construct)
    (heof : isOperator .eof = false)
    (hoperand : ∀ input, form.read enter input = asTrees ([·]) (operand.run input))
    (hround : ∀ deeper enter, deeper.Matches level.dialect enter → ∀ parts {input},
      isOperator (Grammar.current input) = true → (round deeper parts).run input =
        behind parts ((bodies level.dialect construct).read enter input))
    (parts : List Tree) {input : List Lexeme} (hop : isOperator (Grammar.current input) = true) :
    (level.deepRound isOperator operand round parts).run input =
      behind parts ((deepChainTail isOperator form construct).read enter input) := by
  have tail (parts : List Tree) (input : List Lexeme) := run_deepTail h construct hround parts input
  simp [Level.deepRound, deepChainTail, hoperand, asTrees, read_token isOperator _ heof,
    run_expect_of hop, tail, behind]

theorem read_deepChain (h : level.Matches enter) (rule : Rule) (construct : Construct)
    (hoperand : ∀ input, form.read enter input = asTrees ([·]) (operand.run input))
    (hround : ∀ deeper enter, deeper.Matches level.dialect enter → ∀ parts {input},
      isOperator (Grammar.current input) = true → (round deeper parts).run input =
        behind parts ((bodies level.dialect construct).read enter input)) :
    (deepChain rule isOperator form construct).read enter input =
      asTrees ([·])
        ((chain rule isOperator operand (level.deepTail isOperator round)).run input) := by
  refine read_chain rule hoperand fun parts input hop => ?_
  rw [run_deepTail h construct hround, read_optional, if_pos hop]

end

theorem read_product (h : level.Matches enter) :
    Grammar.product.read enter input = asTrees ([·]) (level.product.run input) :=
  read_deepChain h _ .productTail (fun _ => read_unary h) fun _ _ hdeep => hdeep.productTail

theorem read_sum (h : level.Matches enter) :
    Grammar.sum.read enter input = asTrees ([·]) (level.sum.run input) :=
  read_deepChain h _ .sumTail (fun _ => read_product h) fun _ _ hdeep => hdeep.sumTail

/-! ### Comparisons and predicates -/

theorem read_members (h : level.Matches enter) :
    (Form.deeper .members).read enter input =
      asTrees ([·]) ((level.parenthesized .expressionList (·.expression)).run input) :=
  read_parenthesized h _ rfl fun _ _ hdeep => hdeep.expression

theorem predicateOf?_cases {token : Token} {rule : Rule} (h : predicateOf? token = some rule) :
    (token = .keyword .IN ∧ rule = .inExpr) ∨ (token = .keyword .LIKE ∧ rule = .likeExpr) ∨
      (token = .keyword .BETWEEN ∧ rule = .betweenExpr) := by
  unfold predicateOf? at h
  split at h <;> simp_all

/-- Without a parenthesis a query and a list of members fail alike. -/
theorem run_subquery_of_not (hopen : ¬isSymbol .leftParen (Grammar.current input) = true) :
    level.subquery.run input =
      (level.parenthesized .expressionList (·.expression)).run input := by
  simp only [Level.subquery, Level.parenthesized, Level.nested]
  cases level.deeper?.get with
  | none => rfl
  | some deeper =>
    simp only [expectSymbol, StateT.run_bind, run_expect_of_not hopen]
    rfl

theorem read_listOrQuery (h : level.Matches enter) :
    (Form.ifAt [isSymbol .leftParen, isKeyword .SELECT] (.deeper .subquery)
      (.deeper .members)).read enter input =
      asTrees ([·]) (if isKeyword .SELECT (Grammar.current input.tail) then
        level.subquery.run input
      else (level.parenthesized .expressionList (·.expression)).run input) := by
  by_cases hselect : isKeyword .SELECT (Grammar.current input.tail) = true
  · by_cases hopen : isSymbol .leftParen (Grammar.current input) = true
    · simp [hselect, hopen, read_subquery h]
    · simp [hselect, hopen, read_members h, run_subquery_of_not hopen]
  · simp [hselect, read_members h]

/-- The rest of a predicate behind its left operand and a `NOT`. -/
def predicateForm : Form :=
  .ifAt [isKeyword .IN]
    (.seq (.keyword .IN) (.ifAt [isSymbol .leftParen, isKeyword .SELECT] (.deeper .subquery)
      (.deeper .members))) <|
  .ifAt [isKeyword .LIKE]
    (.all [.keyword .LIKE, Grammar.sum,
      .optional [isKeyword .ESCAPE] (.seq (.keyword .ESCAPE) Grammar.sum)]) <|
  .all [.keyword .BETWEEN, Grammar.sum, .keyword .AND, Grammar.sum]

theorem predicateTail_eq : predicateTail =
    (.ifAt [isComparisonSign] (.seq (.token isComparisonSign "a comparison") Grammar.sum) <|
      .ifAt [isKeyword .IS]
        (.all [.keyword .IS, .optional [isKeyword .NOT] (.keyword .NOT), .keyword .NULL]) <|
      .seq (.optional [isKeyword .NOT] (.keyword .NOT)) predicateForm) := rfl

theorem run_predicate (h : level.Matches enter) (left : Tree) (negation : Option Tree)
    {rule : Rule} (hrule : predicateOf? (Grammar.current input) = some rule) :
    (level.predicate left negation).run input =
      (fun made => (.ofParts rule ([left] ++ negation.toList ++ made.1), made.2)) <$>
        predicateForm.read enter input := by
  cases input with
  | nil => cases hrule
  | cons lexeme input =>
    obtain ⟨hword, rfl⟩ | ⟨hword, rfl⟩ | ⟨hword, rfl⟩ := predicateOf?_cases hrule
    · have taken : isKeyword .IN (Grammar.current (lexeme :: input)) = true :=
        beq_iff_eq.mpr hword
      simp only [Level.predicate, List.cons_append, List.nil_append, List.append_assoc,
        bind_pure_comp, expectKeyword, StateT.run_bind, run_current, pure_bind, run_advance, hrule,
        Option.getD_some, run_peek, List.drop_one, run_ite, StateT.run_map, predicateForm,
        read_ifAt, taken, ↓reduceIte, read_seq, read_keyword, asTrees, run_expect_of taken,
        map_pure, read_listOrQuery h, Functor.map_map]
      split <;> simp
    · have taken : isKeyword .LIKE (Grammar.current (lexeme :: input)) = true :=
        beq_iff_eq.mpr hword
      have notIn : isKeyword .IN (Grammar.current (lexeme :: input)) = false := by
        simp [isKeyword, hword]
      simp only [Level.predicate, List.cons_append, List.nil_append, List.append_assoc,
        bind_pure_comp, expectKeyword, StateT.run_bind, run_current, pure_bind, run_advance, hrule,
        Option.getD_some, predicateForm, read_ifAt, notIn, Bool.false_eq_true, ↓reduceIte, taken,
        read_all_cons, read_seq, read_keyword, asTrees, run_expect_of taken, map_pure, read_sum h,
        read_all_singleton, read_optional, Functor.map_map, bind_map_left, map_bind]
      refine bind_congr fun pattern => ?_
      by_cases hescape : isKeyword .ESCAPE (Grammar.current pattern.2) = true
      · simp [hescape, run_accept_of hescape, run_expect_of hescape]
      · simp [hescape, run_accept_of_not hescape]
    · have taken : isKeyword .BETWEEN (Grammar.current (lexeme :: input)) = true :=
        beq_iff_eq.mpr hword
      have notIn : isKeyword .IN (Grammar.current (lexeme :: input)) = false := by
        simp [isKeyword, hword]
      have notLike : isKeyword .LIKE (Grammar.current (lexeme :: input)) = false := by
        simp [isKeyword, hword]
      simp [Level.predicate, predicateForm, hrule, notIn, notLike, expectKeyword,
        run_expect_of taken, read_sum h, asTrees]

theorem predicateRule_eq (token next : Token) : predicateRule token next =
    if isComparisonSign token then some .comparisonExpr
    else if isKeyword .IS token then some .isNullExpr
    else if isKeyword .NOT token then predicateOf? next
    else predicateOf? token := by
  by_cases hIs : token = .keyword .IS
  · subst hIs; rfl
  by_cases hNot : token = .keyword .NOT
  · subst hNot; rfl
  · simp [predicateRule, isKeyword, hIs, hNot]

theorem read_comparison (h : level.Matches enter) :
    Grammar.comparison.read enter input = asTrees ([·]) (level.comparison.run input) := by
  simp only [Grammar.comparison, Level.comparison, read_extend, read_sum h, asTrees,
    StateT.run_bind, map_bind, bind_map_left, run_current, pure_bind, predicateRule_eq,
    predicateTail_eq]
  refine bind_congr fun left => ?_
  by_cases hsign : isComparisonSign (Grammar.current left.2) = true
  · simp [hsign, read_token isComparisonSign _ rfl, run_expect_of hsign,
      read_sum h, asTrees]
  by_cases his : isKeyword .IS (Grammar.current left.2) = true
  · simp [hsign, his, expectKeyword, run_expect_of his,
      asTrees]
  by_cases hnot : isKeyword .NOT (Grammar.current left.2) = true
  · cases hrule : predicateOf? (Grammar.current left.2.tail) with
    | none =>
      have none : predicateOf? (Grammar.current left.2) = none := by
        rw [eq_of_beq hnot]; rfl
      simp [hsign, his, hnot, hrule, none]
    | some rule =>
      obtain ⟨lexeme, rest, hrest⟩ : ∃ lexeme rest, left.2 = lexeme :: rest := by
        cases hleft : left.2 with
        | nil => rw [hleft] at hnot; cases hnot
        | cons lexeme rest => exact ⟨lexeme, rest, rfl⟩
      rw [hrest] at hsign his hnot hrule ⊢
      replace hrule : predicateOf? (Grammar.current rest) = some rule := hrule
      have predicate := run_predicate h left.1 (some (.leaf lexeme)) hrule
      simp [hsign, his, hnot, hrule, predicate, run_accept_of hnot, asTrees]
  · cases hrule : predicateOf? (Grammar.current left.2) with
    | none => simp [hsign, his, hnot]
    | some rule =>
      have predicate := run_predicate h left.1 none hrule
      simp [hsign, his, hnot, predicate, run_accept_of_not hnot, asTrees]

theorem read_bitwise (h : level.Matches enter) :
    Grammar.bitwise.read enter input = asTrees ([·]) (level.bitwise.run input) :=
  read_flatChain .bitwiseExpr rfl fun _ => read_comparison h

theorem read_negatable (h : level.Matches enter) :
    Grammar.negatable.read enter input = asTrees ([·]) (level.negatable.run input) := by
  simp only [Grammar.negatable, Level.negatable, read_ifAt, StateT.run_bind, run_current,
    pure_bind, run_ite]
  by_cases hnot : isKeyword .NOT (Grammar.current input) = true
  · rw [if_pos hnot, if_pos hnot]
    refine read_deeper h _ fun deeper enter hdeep => ?_
    simp [bodies, negationBody, asTrees, hdeep.negatable, expectKeyword, run_expect_of hnot]
  · rw [if_neg hnot, if_neg hnot, read_bitwise h]

theorem read_conjunction (h : level.Matches enter) :
    Grammar.conjunction.read enter input = asTrees ([·]) (level.conjunction.run input) :=
  read_flatChain .andExpr rfl fun _ => read_negatable h

theorem read_expression (h : level.Matches enter) :
    Grammar.expression.read enter input = asTrees ([·]) (level.expression.run input) :=
  read_flatChain .orExpr rfl fun _ => read_conjunction h

end Grammar

end SqlFront
