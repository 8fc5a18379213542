import SqlFront.Proofs.Shape

/-!
The shapes of names and expressions: each production of the expression grammar makes one
well-formed tree, and that tree is an expression.
-/

namespace SqlFront.Grammar

open SqlFront.Tree Form

theorem isExpression_of_hasRule {rule : Rule} (h : rule.isExpression) (tree : Tree)
    (htree : tree.hasRule rule) : tree.isExpression := by
  simp [Tree.isExpression, hasRule_iff.mp htree, h]

theorem isExpression_ofParts {rule : Rule} (h : rule.isExpression) (parts : List Tree) :
    (ofParts rule parts).isExpression := by
  simpa [Tree.isExpression, ofParts, Tree.rule?] using h

variable {enter : Construct → Reader}

/-! ### Names -/

theorem name_sound : Form.name.Sound enter := .token rfl

theorem name_has : Form.name.Has enter (isTokenOf Token.isName) := .self

theorem dotName_sound : dotName.Sound enter := .seq (.token rfl) name_sound

theorem aliasClause_makes {form : Form} (hsound : form.Sound enter)
    (hname : form.Has enter (isTokenOf Token.isName)) :
    (Form.node .aliasClause form).Makes enter (hasRule .aliasClause) :=
  .node hsound hname

theorem alias?_sound : alias?.Sound enter :=
  .ifAt (aliasClause_makes (.seq (.token rfl) name_sound) (Has.right name_has)).sound
    (.optional (aliasClause_makes name_sound name_has).sound)

theorem tableParts_sound : tableParts.Sound enter :=
  .seq name_sound (.optional (.seq dotName_sound (.optional dotName_sound)))

theorem tableName_makes : tableName.Makes enter (hasRule .tableName) :=
  .node tableParts_sound (Has.left name_has)

theorem aliasedTable_makes : aliasedTable.Makes enter (hasRule .tableName) :=
  .node (.seq tableParts_sound alias?_sound) (Has.left (Has.left name_has))

theorem columnName_makes : columnName.Makes enter (hasRule .columnName) :=
  .node (.seq name_sound (.whileAt dotName_sound)) (Has.left name_has)

theorem columnOrAll_makes : columnOrAll.Makes enter Tree.isExpression := by
  refine .always (.seq name_sound (.whileAt dotName_sound))
    (.optional (.seq (.token rfl) (.token rfl))) ?_
  intro token _ left right hleft _
  have hname := (Has.left name_has) left hleft
  have hany : (left ++ right).any (isTokenOf Token.isName) := by simp [List.any_append, hname]
  split
  · exact ⟨isExpression_ofParts rfl _, fun hnil => by simp [hnil] at hany⟩
  · exact ⟨isExpression_ofParts rfl _, hany⟩

theorem direction_sound : direction.Sound enter := .optional (.token rfl)

/-! ### Chains -/

section

variable {rule : Rule} {isOperator : Token → Bool} {operand : Form} {tail : Construct}

theorem eq_of_whenAt {test : Token → Bool} {token next : Token} {production : Rule}
    (h : whenAt test rule token next = some production) : rule = production := by
  rw [whenAt] at h
  split at h
  · exact Option.some.inj h
  · cases h

/-- A chain of one rank is an expression when its operands are. -/
theorem flatChain_makes (hoperand : operand.Makes enter Tree.isExpression)
    (hend : isOperator .eof = false) (hrule : rule.isExpression)
    (hshape : ∀ parts : List Tree, parts.any Tree.isExpression → rule.Shape parts) :
    (flatChain rule isOperator operand).Makes enter Tree.isExpression := by
  refine .extend hoperand (.whileAt (.seq (.token hend) hoperand.sound)) ?_
  intro token _ production hproduction left right hleft _
  obtain rfl := eq_of_whenAt hproduction
  refine ⟨isExpression_ofParts hrule _, hshape _ ?_⟩
  simp [List.any_append, hoperand.has left hleft]

/-- A chain that nests is an expression when its operands are and its tail is a row of
operations. -/
theorem deepChain_makes (hoperand : operand.Makes enter Tree.isExpression)
    (htail : (Form.deeper tail).Sound enter)
    (hoperations : ∀ trees, (Form.deeper tail).Yields enter trees → Operations isOperator trees)
    (hrule : rule.isExpression)
    (hshape : ∀ parts, OperandChain isOperator parts → rule.Shape parts) :
    (deepChain rule isOperator operand tail).Makes enter Tree.isExpression := by
  refine .extend hoperand htail ?_
  intro token _ production hproduction left right hleft hright
  obtain rfl := eq_of_whenAt hproduction
  obtain ⟨first, rfl, hfirst, -⟩ := hoperand left hleft
  exact ⟨isExpression_ofParts hrule _, hshape _ ⟨first, right, rfl, hfirst, hoperations _ hright⟩⟩

theorem deepChainTail_sound (hoperand : operand.Makes enter Tree.isExpression)
    (htail : (Form.deeper tail).Sound enter) (hend : isOperator .eof = false) :
    (deepChainTail isOperator operand tail).Sound enter :=
  .seq (.token hend) (.seq hoperand.sound (.optional htail))

theorem deepChainTail_operations (hoperand : operand.Makes enter Tree.isExpression)
    (hoperations : ∀ trees, (Form.deeper tail).Yields enter trees → Operations isOperator trees)
    {trees : List Tree} (hyields : (deepChainTail isOperator operand tail).Yields enter trees) :
    Operations isOperator trees := by
  obtain ⟨_, _, hoperator, hrest, rfl⟩ := hyields.seq
  obtain ⟨operator, rfl, haccepts⟩ := hoperator.token
  obtain ⟨_, right, hleft, hright, rfl⟩ := hrest.seq
  obtain ⟨value, rfl, hvalue, -⟩ := hoperand _ hleft
  refine .cons haccepts hvalue ?_
  rcases hright.optional with hright | rfl
  · exact hoperations right hright
  · exact .nil

end

/-! ### From operands to expressions -/

section

variable (h : Regular enter)
include h

theorem primary_makes : primary.Makes enter Tree.isExpression := by
  have made {rule : Rule} (hrule : rule.isExpression) {form : Form}
      (hform : form.Makes enter (hasRule rule)) : form.Makes enter Tree.isExpression :=
    hform.mono (isExpression_of_hasRule hrule)
  have hleaf : Form.name.Has enter isLeaf := .token fun _ _ => rfl
  refine .ifAt (made rfl (h.makes rfl)) <| .ifAt (made rfl (h.makes rfl)) <|
    .ifAt (made rfl (.node (.token rfl) fun _ hyields => hyields.token)) <|
    .ifAt (made rfl (.node (.token rfl) fun _ hyields => hyields.token)) <|
    .ifAt (made rfl (.node (.seq name_sound (h.sound _)) (Has.left hleaf))) <|
    .ifAt (made rfl (.node name_sound hleaf)) <| .ifAt columnOrAll_makes .refuse

theorem unary_makes : unary.Makes enter Tree.isExpression :=
  .ifAt ((h.makes rfl).mono (isExpression_of_hasRule rfl)) (primary_makes h)

theorem product_makes : product.Makes enter Tree.isExpression :=
  deepChain_makes (unary_makes h) (h.sound _) (h.fits .productTail) rfl fun _ hchain => hchain

theorem sum_makes : sum.Makes enter Tree.isExpression :=
  deepChain_makes (product_makes h) (h.sound _) (h.fits .sumTail) rfl fun _ hchain => hchain

/-! ### Comparisons and predicates -/

omit h in
/-- Past an optional `NOT`, the token that names the predicate comes next. -/
theorem predicateOf_of_read_not {input mid : List Lexeme} {negation : List Tree}
    {production : Rule} (hsign : isComparisonSign (current input) = false)
    (his : isKeyword .IS (current input) = false)
    (hproduction : predicateRule (current input) (current input.tail) = some production)
    (hread : (Form.optional [isKeyword .NOT] (.keyword .NOT)).read enter input =
      .ok (negation, mid)) :
    predicateOf? (current mid) = some production ∧
      negation.any (isTokenOf (isKeyword .ESCAPE)) = false := by
  rcases read_ifAt_eq_ok hread with ⟨-, hread⟩ | ⟨hlook, hread⟩
  · obtain ⟨lexeme, haccepts, rfl, rfl⟩ := readToken_eq_ok hread
    have hnot : lexeme.token = .keyword .NOT := by simpa using haccepts
    constructor
    · simpa [predicateRule, current, hnot, isComparisonSign] using hproduction
    · simp [isTokenOf, token?, hnot, isKeyword]
  · obtain ⟨rfl, rfl⟩ : [] = negation ∧ input = mid := by simpa [Form.read] using hread
    refine ⟨?_, rfl⟩
    rw [predicateRule, if_neg (by simp [hsign])] at hproduction
    · exact hproduction
    · intro heq
      rw [heq] at his
      cases his
    · intro heq
      rw [holds_single, heq] at hlook
      cases hlook

omit h in
/-- A predicate that starts with neither `IN` nor `LIKE` is a `BETWEEN`. -/
theorem betweenExpr_of_predicateOf {token : Token} {production : Rule}
    (hin : isKeyword .IN token = false) (hlike : isKeyword .LIKE token = false)
    (hproduction : predicateOf? token = some production) : .betweenExpr = production := by
  unfold predicateOf? at hproduction
  split at hproduction
  · simp [isKeyword] at hin
  · simp [isKeyword] at hlike
  · exact Option.some.inj hproduction
  · cases hproduction

/-- The parts of a `LIKE` have two operands, and a third one where there is an `ESCAPE`. -/
theorem likeTail_shape {left : Tree} {negation operands : List Tree} (hleft : left.isExpression)
    (hnegation : negation.any (isTokenOf (isKeyword .ESCAPE)) = false)
    (hyields : (Form.all [.keyword .LIKE, sum,
      .optional [isKeyword .ESCAPE] (.seq (.keyword .ESCAPE) sum)]).Yields enter operands) :
    Rule.likeExpr.Shape (left :: (negation ++ operands)) := by
  obtain ⟨_, _, hword, hrest, rfl⟩ := hyields.seq
  obtain ⟨word, rfl, haccepts⟩ := hword.token
  obtain ⟨_, escapes, hpattern, hescapes, rfl⟩ := hrest.seq
  obtain ⟨pattern, rfl, hexpression, -⟩ := sum_makes h _ hpattern
  have htwo : 2 ≤ (left :: (negation ++ ([.leaf word] ++ ([pattern] ++ escapes)))).countP
      Tree.isExpression := by
    simp [List.countP_append, hleft, hexpression]
    omega
  refine ⟨htwo, fun hescape => ?_⟩
  rcases hescapes.optional with hescapes | rfl
  · obtain ⟨mark, _, -, hcharacter, rfl⟩ := hescapes.seq
    obtain ⟨character, rfl, hcharacter, -⟩ := sum_makes h _ hcharacter
    simp [List.countP_append, hleft, hexpression, hcharacter]
    omega
  · -- without the third operand there is no such token either
    have hword : word.token = .keyword .LIKE := by simpa using haccepts
    simp [hnegation, isTokenOf_of_isExpression hleft, isTokenOf_of_isExpression hexpression,
      hword, isKeyword] at hescape

theorem betweenTail_shape {left : Tree} {negation operands : List Tree} (hleft : left.isExpression)
    (hyields : (Form.all [.keyword .BETWEEN, sum, .keyword .AND, sum]).Yields enter operands) :
    Rule.betweenExpr.Shape (left :: (negation ++ operands)) := by
  obtain ⟨word, _, -, hbounds, rfl⟩ := hyields.seq
  obtain ⟨_, _, hlow, hbound, rfl⟩ := hbounds.seq
  obtain ⟨low, rfl, hlow, -⟩ := sum_makes h _ hlow
  obtain ⟨conjunction, _, -, hhigh, rfl⟩ := hbound.seq
  obtain ⟨high, rfl, hhigh, -⟩ := sum_makes h _ hhigh
  simp [Rule.Shape, List.countP_append, hleft, hlow, hhigh]
  omega

theorem inTail_shape {left : Tree} {negation operands : List Tree} (hleft : left.isExpression)
    (hyields : (Form.seq (.keyword .IN) (.ifAt [isSymbol .leftParen, isKeyword .SELECT]
      (.deeper .subquery) (.deeper .members))).Yields enter operands) :
    Rule.inExpr.Shape (left :: (negation ++ operands)) := by
  have hmembers := Has.right (Has.ofSides (h.makes rfl).has (h.makes rfl).has) operands hyields
  exact ⟨by simp [hleft], by simp [List.any_append, hmembers]⟩

/-- After an operand, the tail of the production that the next tokens call for completes its
parts. -/
theorem predicateTail_shape {input rest : List Lexeme} {left : Tree} {right : List Tree}
    {production : Rule} (hleft : left.isExpression)
    (hproduction : predicateRule (current input) (current input.tail) = some production)
    (hread : predicateTail.read enter input = .ok (right, rest)) :
    production.isExpression ∧ production.Shape (left :: right) := by
  rcases read_ifAt_eq_ok hread with ⟨hsign, htail⟩ | ⟨hsign, hread⟩
  · obtain rfl : .comparisonExpr = production := by
      rw [holds_single] at hsign
      simpa [predicateRule, hsign] using hproduction
    obtain ⟨_, _, hsigns, hoperand, rfl⟩ := Yields.seq ⟨input, rest, htail⟩
    obtain ⟨sign, rfl, haccepts⟩ := hsigns.token
    obtain ⟨operand, rfl, hexpression, -⟩ := sum_makes h _ hoperand
    exact ⟨rfl, left, sign, operand, rfl, hleft, haccepts, hexpression⟩
  rcases read_ifAt_eq_ok hread with ⟨his, -⟩ | ⟨his, hread⟩
  · have heq : current input = .keyword .IS := by simpa [isKeyword] using his
    obtain rfl : .isNullExpr = production := by
      simpa [predicateRule, heq, isComparisonSign] using hproduction
    exact ⟨rfl, by simp [Rule.Shape, hleft]⟩
  rw [holds_single] at hsign his
  obtain ⟨negation, mid, operands, hnot, hpredicate, rfl⟩ := read_seq_eq_ok hread
  obtain ⟨hproduction, hescape⟩ := predicateOf_of_read_not hsign his hproduction hnot
  rcases read_ifAt_eq_ok hpredicate with ⟨hin, htail⟩ | ⟨hin, hpredicate⟩
  · have heq : current mid = .keyword .IN := by simpa [isKeyword] using hin
    obtain rfl : .inExpr = production := by simpa [predicateOf?, heq] using hproduction
    exact ⟨rfl, inTail_shape h hleft ⟨mid, rest, htail⟩⟩
  rcases read_ifAt_eq_ok hpredicate with ⟨hlike, htail⟩ | ⟨hlike, htail⟩
  · have heq : current mid = .keyword .LIKE := by simpa [isKeyword] using hlike
    obtain rfl : .likeExpr = production := by simpa [predicateOf?, heq] using hproduction
    exact ⟨rfl, likeTail_shape h hleft hescape ⟨mid, rest, htail⟩⟩
  · obtain rfl : .betweenExpr = production := by
      rw [holds_single] at hin hlike
      exact betweenExpr_of_predicateOf hin hlike hproduction
    exact ⟨rfl, betweenTail_shape h hleft ⟨mid, rest, htail⟩⟩

theorem predicateTail_sound : predicateTail.Sound enter := by
  have hsum : sum.Sound enter := (sum_makes h).sound
  refine .ifAt (.seq (.token rfl) hsum) <|
    .ifAt (.seq (.token rfl) (.seq (.optional (.token rfl)) (.token rfl))) <|
    .seq (.optional (.token rfl)) <|
    .ifAt (.seq (.token rfl) (.ifAt (h.sound _) (h.sound _))) <|
    .ifAt (.seq (.token rfl) (.seq hsum (.optional (.seq (.token rfl) hsum)))) ?_
  exact .seq (.token rfl) (.seq hsum (.seq (.token rfl) hsum))

theorem comparison_makes : comparison.Makes enter Tree.isExpression := by
  rintro trees ⟨input, rest, hread⟩
  rcases read_extend_eq_ok hread with hread | ⟨_, mid, right, production, hleft, hproduction,
    hright, rfl⟩
  · exact sum_makes h trees ⟨input, rest, hread⟩
  · have hyields : sum.Yields enter _ := ⟨input, mid, hleft⟩
    obtain ⟨left, rfl, hexpression, hformed⟩ := sum_makes h _ hyields
    obtain ⟨hrule, hshape⟩ := predicateTail_shape h hexpression hproduction hright
    refine ⟨_, rfl, isExpression_ofParts hrule _, .node rfl hshape ?_⟩
    exact (sum_makes h).sound.parts (predicateTail_sound h) hyields ⟨mid, rest, hright⟩

/-! ### Conditions -/

theorem bitwise_makes : bitwise.Makes enter Tree.isExpression :=
  flatChain_makes (comparison_makes h) rfl rfl fun parts hany hnil => by simp [hnil] at hany

theorem negatable_makes : negatable.Makes enter Tree.isExpression :=
  .ifAt ((h.makes rfl).mono (isExpression_of_hasRule rfl)) (bitwise_makes h)

theorem conjunction_makes : conjunction.Makes enter Tree.isExpression :=
  flatChain_makes (negatable_makes h) rfl rfl fun _ hany => hany

/-- **An expression is one well-formed tree.** -/
theorem expression_makes : expression.Makes enter Tree.isExpression :=
  flatChain_makes (conjunction_makes h) rfl rfl fun _ hany => hany

/-! ### The constructs inside expressions -/

theorem negationBody_makes : negationBody.Makes enter (hasRule .notExpr) :=
  .node (.seq (.token rfl) (negatable_makes h).sound) (Has.right (negatable_makes h).has)

theorem signedBody_makes : signedBody.Makes enter (hasRule .unaryExpr) :=
  .node (.seq (.token rfl) (unary_makes h).sound) (Has.right (unary_makes h).has)

theorem parenBody_makes : parenBody.Makes enter (hasRule .parenExpr) :=
  .node (.seq (.token rfl) (.seq (expression_makes h).sound (.token rfl)))
    (Has.right (Has.left (expression_makes h).has))

theorem argumentsBody_sound : argumentsBody.Sound enter := by
  have hstar : (Form.node .allColumns (.symbol .star)).Sound enter :=
    (Makes.node (.token rfl) fun _ => Has.ne_nil .self).sound
  exact .seq (.token rfl) (.seq (.optional (.token rfl))
    (.seq (.ifAt hstar (.optional (.commaList (expression_makes h).sound))) (.token rfl)))

end

/-- A list in parentheses is a node of a production that asks for nothing but a part. -/
theorem parenthesized_makes {rule : Rule} {item : Form} (hitem : item.Sound enter)
    (hshape : ∀ parts : List Tree, parts ≠ [] → rule.Shape parts) :
    (Form.node rule (.parenthesized item)).Makes enter (hasRule rule) :=
  .node (.parenthesized hitem) fun parts hyields =>
    hshape parts (Has.ne_nil (Has.left .self) hyields)

end SqlFront.Grammar
