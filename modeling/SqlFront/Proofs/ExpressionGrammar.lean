import SqlFront.Proofs.DerivationReading

/-!
The reading of expressions accepts exactly the grammar of expressions. What is read is a derivation
of the tokens that were taken off the input, and every derivation without queries whose nesting is
allowed is read from its tokens, in front of any token that cannot extend it.
-/

namespace SqlFront.Grammar

open SqlFront.Tree

variable {dialect : Dialect} {levels : Nat}

/-- Whatever makes some expression go on can extend an expression. -/
theorem goesOnAt_of_canExtend {level : Level} {token : Token} (h : canExtend token = false) :
    level.goesOnAt token = false := by
  simp only [canExtend, isOneOf, List.any_cons, List.any_nil, Bool.or_eq_false_iff] at h
  simp [Level.goesOnAt, isOneOf, h]

/-- A derivation without queries is read from its tokens. -/
theorem readExpression_of_derivation {tree : Tree} {rest : List Lexeme} (h : tree.IsDerivation)
    (hlevel : tree.bindsAt .disjunction) (hfree : tree.SubqueryFree)
    (hnests : tree.nesting ≤ levels) (hrest : canExtend (current rest) = false) :
    readExpression dialect levels (tree.terminals ++ rest) = .ok (tree, rest) := by
  have hback : ReadsBack (enter (bodies dialect) levels levels) tree := readsBack h hfree hnests
  have hread : expression.Takes _ [tree] rest :=
    hback.reads .disjunction hlevel rest (goesOnAt_of_canExtend hrest)
  rw [Form.Takes, terminalsOf_singleton] at hread
  exact readExpression_eq_ok.mpr hread

variable (dialect levels)

/-- **Expressions are read by the grammar of expressions, and by nothing else.** A tree that is read
is a derivation of an expression, it opens no more levels of nesting than are allowed, and its
tokens are those that were taken off the input. Conversely, take a derivation of an expression that
holds no query and opens no more levels than are allowed: from its tokens, in front of any token
that cannot extend an expression, this derivation is read, and reading stops there. -/
theorem readExpression_derives :
    (∀ input tree rest, readExpression dialect levels input = .ok (tree, rest) →
      tree.IsDerivation ∧ tree.bindsAt .disjunction ∧ tree.nesting ≤ levels ∧
        tree.terminals ++ rest = input) ∧
    ∀ tree : Tree, tree.IsDerivation → tree.bindsAt .disjunction → tree.SubqueryFree →
      tree.nesting ≤ levels → ∀ rest, canExtend (current rest) = false →
        readExpression dialect levels (tree.terminals ++ rest) = .ok (tree, rest) := by
  constructor
  · intro input tree rest hread
    obtain ⟨hlevel, hderived, hterminals⟩ := derivedWithin_of_readExpression hread
    exact ⟨hderived.derived, hlevel, hderived.nests, hterminals⟩
  · intro tree hderived hlevel hfree hnests rest hrest
    exact readExpression_of_derivation hderived hlevel hfree hnests hrest

/-- In `NOT a BETWEEN -1 AND 2 AND b` the first `AND` belongs to the predicate and the second one
joins two conditions. The tree is read in front of the end of the text, and so it is read in front
of a parenthesis. -/
theorem readExpression_derives_of_between :
    let word (token : Token) (place : Nat) : Tree := .leaf ⟨token, ⟨place, place + 1⟩⟩
    let predicate := ofParts .betweenExpr [ofParts .columnName [word (.name "a") 1],
      word (.keyword .BETWEEN) 2,
      ofParts .unaryExpr [word (.symbol .minus) 3, ofParts .literal [word (.number "1") 4]],
      word (.keyword .AND) 5, ofParts .literal [word (.number "2") 6]]
    let tree := ofParts .andExpr [ofParts .notExpr [word (.keyword .NOT) 0, predicate],
      word (.keyword .AND) 7, ofParts .columnName [word (.name "b") 8]]
    let stop : Lexeme := ⟨.symbol .rightParen, ⟨9, 10⟩⟩
    tree.IsDerivation ∧ tree.bindsAt .disjunction ∧ tree.SubqueryFree ∧ tree.nesting = 2 ∧
      readExpression .mysql 2 (tree.terminals ++ [stop]) = .ok (tree, [stop]) := by
  intro word predicate tree stop
  have sound := (readExpression_derives .mysql 2).1
  have complete := (readExpression_derives .mysql 2).2
  obtain ⟨derived, binds, nests, -⟩ := sound (tree.terminals ++ [⟨.eof, ⟨9, 9⟩⟩]) tree _ rfl
  have free : tree.SubqueryFree := by
    simp [tree, predicate, word, ofParts, subqueryFree_node, subqueryFree_leaf]
  exact ⟨derived, binds, free, rfl, complete tree derived binds free nests [stop] rfl⟩

end SqlFront.Grammar
