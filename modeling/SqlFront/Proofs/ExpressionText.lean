import SqlFront.Proofs.BuiltOperands
import SqlFront.Proofs.ExpressionGrammar
import SqlFront.Proofs.ParallelExpression
import SqlFront.Proofs.ParallelText
import SqlFront.Proofs.PartTokens
import SqlFront.Proofs.PlainForms

/-!
The text of an expression stands for the expression.

An expression that is read and built as a part of a batch is read and built in the same way when its
text stands alone. The tokens are the same ones, the levels of nesting suffice, the tree is the same
one up to its places, and the builder looks at places only for the texts that they stand for.
-/

namespace SqlFront

open Grammar

/-! ### Trees in a text -/

namespace Tree

theorem Bounds.unique {lexemes : List Lexeme} {left right : Span} (hleft : Bounds lexemes left)
    (hright : Bounds lexemes right) : left = right := by
  obtain ⟨first, last, hfirst, hlast, rfl⟩ := hleft
  obtain ⟨first', last', hfirst', hlast', rfl⟩ := hright
  obtain rfl := Option.some.inj (hfirst.symm.trans hfirst')
  obtain rfl := Option.some.inj (hlast.symm.trans hlast')
  rfl

end Tree

namespace Grammar

variable {dialect : Dialect} {levels : Nat} {tree : Tree}

theorem wellFormed_of_readExpression {input rest : List Lexeme}
    (h : readExpression dialect levels input = .ok (tree, rest)) : tree.WellFormed := by
  have hread := readExpression_eq_ok.mp h
  obtain ⟨read, hread, -, hformed⟩ :=
    expression_makes (regular_enter dialect levels levels) [tree] ⟨input, rest, hread⟩
  obtain rfl : tree = read := List.singleton_inj.mp hread
  exact hformed

/-- What is read as an expression up to the end of a statement is read so from related tokens. -/
theorem readExpression_simulates {P : Lexeme → Lexeme → Prop} (hP : KeepsToken P)
    {input input' ends ends' : List Lexeme} (hinput : List.Forall₂ P input input')
    (hends : endsStatement (current ends)) (hends' : endsStatement (current ends'))
    (h : readExpression dialect levels (input ++ ends) = .ok (tree, ends)) :
    ∃ tree', readExpression dialect levels (input' ++ ends') = .ok (tree', ends') ∧
      Tree.Matches P (fun _ _ => True) tree tree' := by
  simp only [readExpression_eq_ok] at h ⊢
  obtain ⟨left, left', trees', hrest, hleft, htrees, hread'⟩ :=
    readForm_simulates hP (Nat.le_refl levels) expression_plain hinput hends hends' h
  obtain rfl : left = [] := List.append_left_eq_self.mp hrest.symm
  cases hleft
  obtain ⟨tree', _, hmatches, htail, rfl⟩ := List.forall₂_cons_left_iff.mp htrees
  obtain rfl := List.forall₂_nil_left_iff.mp htail
  exact ⟨tree', hread', hmatches⟩

end Grammar

namespace Config

variable {config : Config} {source : Source}

/-- The tree was read from tokens that follow each other in the text. -/
structure HasRead (config : Config) (source : Source) (tree : Tree) : Prop where
  tokens : ∃ left right stop,
    config.lexer.lexemes source = .ok (left ++ tree.terminals ++ right ++ [stop])
  spaced : Spaced 0 tree.terminals
  formed : tree.WellFormed
  derived : tree.DerivedWithin config.maxNestingDepth

theorem HasRead.inside {inner outer : Tree} (h : config.HasRead source outer)
    (hinside : inner.Inside outer) : config.HasRead source inner where
  tokens := by
    obtain ⟨left, right, stop, htokens⟩ := h.tokens
    obtain ⟨before, after, hterminals⟩ := hinside.terminals_infix
    refine ⟨left ++ before, after ++ right, stop, ?_⟩
    rw [htokens, ← hterminals]
    simp only [List.append_assoc]
  spaced := h.spaced.sublist hinside.terminals_sublist
  formed := hinside.wellFormed h.formed
  derived := ⟨h.derived.derived.inside hinside, Nat.le_trans hinside.nesting_le h.derived.nests⟩

/-- The parts of a batch were read from the text. -/
theorem hasRead_of_parseTree {tree : Tree} (h : config.parseTree source = .ok tree) :
    tree.hasRule .batch ∧ ∀ part ∈ tree.children, config.HasRead source part := by
  obtain ⟨lexemes, parts, rest, hlexemes, hread, rfl⟩ := parseTree_eq_ok h
  refine ⟨rfl, fun part (hmem : part ∈ parts) => ?_⟩
  obtain ⟨stop, rfl, hspaced⟩ := lexemes_of_readForm hlexemes hread
  have hregular := regular_enter config.dialect config.maxNestingDepth config.maxNestingDepth
  have hformed := batch_sound hregular parts ⟨_, rest, hread⟩
  have hnests := nests_enter config.dialect config.maxNestingDepth config.maxNestingDepth
  have hderived := batch_derives hnests parts ⟨_, rest, hread⟩
  obtain ⟨left, right, hterminals⟩ := Tree.terminals_infix_of_mem hmem
  exact ⟨⟨left, right, _, by rw [hterminals, hlexemes]⟩,
    hspaced.sublist (Tree.terminals_sublist_of_mem hmem), hformed part hmem, hderived part hmem⟩

/-- So were all trees inside the tree of a batch but this tree itself. -/
theorem hasRead_of_inside {inner tree : Tree} (h : config.parseTree source = .ok tree)
    (hinside : inner.Inside tree) {rule : Rule} (hrule : inner.hasRule rule) (hne : rule ≠ .batch) :
    config.HasRead source inner := by
  obtain ⟨hbatch, hparts⟩ := hasRead_of_parseTree h
  cases hinside with
  | self => exact absurd (Option.some.inj ((Tree.hasRule_iff.mp hrule).symm.trans
      (Tree.hasRule_iff.mp hbatch))) hne
  | part hmem hinside => exact (hparts _ hmem).inside hinside

/-! ### Reading the text of an expression alone -/

/-- The text is read as an expression up to its end, and stands for this one. -/
def ReadsAs (config : Config) (text : Source) (e : Expr) : Prop :=
  ∃ lexemes tree stop, tokenize config.lexer text = .ok lexemes ∧
    readExpression config.dialect config.maxNestingDepth lexemes = .ok (tree, [stop]) ∧
    stop.token = .eof ∧ Build.Context.expression { config, source := text } tree = .ok e

/-- The alias of an expression is the text of its tree. -/
theorem aliasName_of_expression {context : Build.Context} {tree : Tree} {e : Expr}
    (h : context.expression tree = .ok e) :
    e.aliasName = some (context.source.slice tree.span) := by
  cases tree with
  | leaf lexeme => exact absurd h reject_ne_ok
  | node rule span children =>
    rw [Build.Context.expression] at h
    split at h
    · simp only [Build.Node.build, bind_eq_ok, pure_eq_ok] at h
      obtain ⟨bare, -, rfl⟩ := h
      exact Expr.aliasName_withAlias _ bare
    · exact absurd h reject_ne_ok

/-- **The text of an expression stands for the expression.** Where a tree that was read in a text
builds an expression, and no placeholder in it is numbered by its place in the text, the tree spans
a part of the text that is read alone as the same expression; and this part is its alias. -/
theorem HasRead.readsAs {tree : Tree} {e : Expr} (h : config.HasRead source tree)
    (hlevel : tree.bindsAt .disjunction)
    (hnumbered : ∀ lexeme ∈ tree.terminals, lexeme.token.isNumbered = false)
    (hbuilt : Build.Context.expression { config, source } tree = .ok e) :
    ∃ before text after, source = before ++ text ++ after ∧
      tree.span = ⟨byteLength before, byteLength before + byteLength text⟩ ∧
      e.aliasName = some (String.ofList text) ∧ config.ReadsAs text e := by
  obtain ⟨left, right, stop, htokens⟩ := h.tokens
  obtain ⟨n, offset, pieces, hcuts, hpart, hterminals, hbounds⟩ :=
    Lexer.pieces_of_part htokens h.formed.terminals_ne_nil
  have hspan := (h.formed.bounds h.spaced).unique hbounds
  have hplain : Piece.parametersOf pieces = 0 :=
    Piece.parametersOf_eq_zero (hterminals ▸ hnumbered)
  have halone := Source.HasAt.whole (Piece.textOf pieces)
  have haliases : View.whole.aliasName = View.whole.aliasName := rfl
  have hrelated := Parallel.ofPart_lexemesOf (.refl config) hpart halone haliases n 0
    (by simp [hplain]) fun _ _ _ _ => rfl
  rw [hterminals] at hrelated
  -- the expression is read from its tokens in front of the end of the text, and so in the part
  have hread : readExpression config.dialect config.maxNestingDepth
      (tree.terminals ++ [endOf (Piece.textOf pieces) 0]) =
        .ok (tree, [endOf (Piece.textOf pieces) 0]) :=
    readExpression_of_derivation h.derived.derived hlevel
      (Build.Context.subqueryFree_of_expression _ tree h.derived.derived hbuilt) h.derived.nests rfl
  have hends : endsStatement (current [endOf (Piece.textOf pieces) 0]) := rfl
  obtain ⟨tree', hread', hmatches⟩ :=
    readExpression_simulates (Parallel.keepsToken _) hrelated hends hends hread
  have hformed' := wellFormed_of_readExpression hread'
  have htrees := hmatches.of_wellFormed Parallel.Lexemes.range (Parallel.join _) h.formed hformed'
  obtain ⟨e', hbuilt', halike⟩ := Parallel.expression_follows htrees e hbuilt
  obtain rfl : e = e' := e.seen_whole.symm.trans (halike.trans e'.seen_whole)
  have haliasName := (aliasName_of_expression hbuilt).trans (congrArg some (hspan ▸ hpart.slice))
  obtain ⟨before, after, rfl, rfl⟩ := hpart
  have hlexemes := Lexer.lexemes_eq_ok.mpr ⟨pieces, hcuts, rfl, rfl⟩
  exact ⟨before, _, after, rfl, hspan, haliasName, _, tree', _, mapError_eq_ok.mpr hlexemes, hread',
    rfl, hbuilt'⟩

end Config

end SqlFront
