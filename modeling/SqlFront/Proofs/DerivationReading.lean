import SqlFront.Proofs.LevelTokens
import SqlFront.Proofs.StatementDerivation

/-!
Every derivation is read back: where the tokens of a derivation without queries stand in front of a
token that cannot extend it, reading yields the derivation and stops at that token, as long as its
nesting fits the levels that are left.

`Form.Takes` says that a form reads exactly some given trees off the input. It is built up along
the form, as the reading of a form is taken apart in the other direction.
-/

namespace SqlFront

open Grammar SqlFront.Tree

namespace Grammar

@[simp]
theorem terminalsOf_singleton (tree : Tree) : terminalsOf [tree] = tree.terminals := by
  simp [terminalsOf]

/-- In front of these tokens, the form reads the tokens of some trees and yields the trees. -/
def Form.Takes (enter : Construct → Reader) (form : Form) (parts : List Tree)
    (rest : List Lexeme) : Prop :=
  form.read enter (terminalsOf parts ++ rest) = .ok (parts, rest)

namespace Form.Takes

variable {enter : Construct → Reader} {form first second yes no : Form} {look : Lookahead}
  {parts left right : List Tree} {rest : List Lexeme} {rule : Rule}

theorem empty : Form.empty.Takes enter [] rest := rfl

theorem token {accepts : Token → Bool} {wanted : String} {lexeme : Lexeme}
    (h : accepts lexeme.token) : (Form.token accepts wanted).Takes enter [.leaf lexeme] rest := by
  simp [Takes, Form.read, terminals, readToken, h]

/-- Two forms, one after the other. -/
theorem append (hfirst : first.Takes enter left (terminalsOf right ++ rest))
    (hsecond : second.Takes enter right rest) :
    (Form.seq first second).Takes enter (left ++ right) rest := by
  unfold Takes at hfirst hsecond ⊢
  rw [terminalsOf_append, List.append_assoc, Form.read, hfirst]
  simp [hsecond]

/-- A form that takes one tree, and one that takes the others. -/
theorem cons {tree : Tree} (hfirst : first.Takes enter [tree] (terminalsOf parts ++ rest))
    (hsecond : second.Takes enter parts rest) :
    (Form.seq first second).Takes enter (tree :: parts) rest :=
  hfirst.append hsecond

/-- A form that takes nothing, and one that takes it all. -/
theorem skipped (hfirst : first.Takes enter [] (terminalsOf parts ++ rest))
    (hsecond : second.Takes enter parts rest) : (Form.seq first second).Takes enter parts rest :=
  hfirst.append hsecond

theorem ifYes (hlook : look.holds (terminalsOf parts ++ rest)) (h : yes.Takes enter parts rest) :
    (Form.ifAt look yes no).Takes enter parts rest := by
  rw [Takes, Form.read, if_pos hlook]
  exact h

theorem ifNo (hlook : look.holds (terminalsOf parts ++ rest) = false)
    (h : no.Takes enter parts rest) : (Form.ifAt look yes no).Takes enter parts rest := by
  rw [Takes, Form.read, if_neg (by simp [hlook])]
  exact h

/-- Nothing is read where the next tokens do not pass. -/
theorem skip (hlook : look.holds rest = false) : (Form.optional look form).Takes enter [] rest :=
  .ifNo hlook .empty

theorem node (h : form.Takes enter parts rest) :
    (Form.node rule form).Takes enter [ofParts rule parts] rest := by
  rw [Takes, terminalsOf_ofParts]
  exact read_node_of_read h

/-- An extension that stops short. -/
theorem short {production : Token → Token → Option Rule} (h : first.Takes enter parts rest)
    (hstops : production (current rest) (current rest.tail) = none) :
    (Form.extend first production second).Takes enter parts rest := by
  unfold Takes at h ⊢
  rw [Form.read, h]
  simp [hstops]

/-- An extension that goes on. -/
theorem extend {production : Token → Token → Option Rule}
    (hfirst : first.Takes enter left (terminalsOf right ++ rest))
    (hgoes : production (current (terminalsOf right ++ rest))
      (current (terminalsOf right ++ rest).tail) = some rule)
    (hsecond : second.Takes enter right rest) :
    (Form.extend first production second).Takes enter [ofParts rule (left ++ right)] rest := by
  unfold Takes at hfirst hsecond ⊢
  rw [terminalsOf_ofParts, terminalsOf_append, List.append_assoc, Form.read, hfirst]
  simp [hgoes, hsecond]

/-- An extension that goes on after one tree. -/
theorem extendOne {production : Token → Token → Option Rule} {tree : Tree}
    (hfirst : first.Takes enter [tree] (terminalsOf right ++ rest))
    (hgoes : production (current (terminalsOf right ++ rest))
      (current (terminalsOf right ++ rest).tail) = some rule)
    (hsecond : second.Takes enter right rest) :
    (Form.extend first production second).Takes enter [ofParts rule (tree :: right)] rest :=
  hfirst.extend hgoes hsecond

/-- One level deeper stands the body of a construct. -/
theorem deeper {bodies : Construct → Form} {limit levels : Nat} {construct : Construct}
    (h : (bodies construct).Takes (Grammar.enter bodies limit levels) parts rest) :
    (Form.deeper construct).Takes (Grammar.enter bodies limit (levels + 1)) parts rest :=
  h

end Form.Takes

/-! ### Chains and lists -/

section

variable {enter : Construct → Reader} {item : Form} {look : Lookahead} {wanted : String}
  {accepts : Token → Bool} {test : Tree → Bool} {stops : Token → Prop} {parts : List Tree}
  {rest : List Lexeme}

/-- A repetition takes marks with an item after each, as long as the marks end the items and the
next tokens pass at each mark and no longer at the end. The induction is on the links; `times` are
the rounds that are left. -/
theorem takes_links (hlinks : Links (isTokenOf accepts) test parts)
    (hlook : ∀ mark part more, accepts mark.token → part ∈ parts → test part →
      look.holds (mark :: (part.terminals ++ more)))
    (hitem : ∀ part ∈ parts, test part → ∀ more, stops (current more) →
      item.Takes enter [part] more)
    (hmark : ∀ token, accepts token → stops token) (hstops : stops (current rest))
    (hend : look.holds rest = false) :
    (Form.whileAt look (.seq (.token accepts wanted) item)).Takes enter parts rest := by
  suffices reads : ∀ times, (terminalsOf parts ++ rest).length ≤ times →
      readWhile look ((Form.seq (.token accepts wanted) item).read enter) times
        (terminalsOf parts ++ rest) = .ok (parts, rest) from reads _ (Nat.le_refl _)
  induction hlinks with
  | nil =>
    intro times _
    exact readWhile_of_not_holds times hend
  | @cons mark part more hmarked htest hmore ih =>
    intro times htimes
    obtain ⟨lexeme, rfl, haccepts⟩ := eq_leaf_of_isTokenOf hmarked
    have hround : (Form.seq (.token accepts wanted) item).Takes enter [.leaf lexeme, part]
        (terminalsOf more ++ rest) := by
      refine .cons (.token haccepts) (hitem part (by simp) htest _ ?_)
      cases hmore with
      | nil => exact hstops
      | cons hmarked _ _ =>
        obtain ⟨other, rfl, haccepts⟩ := eq_leaf_of_isTokenOf hmarked
        exact hmark _ haccepts
    have hstart := hlook lexeme part (terminalsOf more ++ rest) haccepts (by simp) htest
    have hread := ih (fun mark part after haccepts hmem => hlook mark part after haccepts
      (by simp [hmem])) (fun part hmem => hitem part (by simp [hmem]))
    unfold Form.Takes at hround
    simp only [terminalsOf, terminals, List.append_nil, List.append_assoc, List.cons_append,
      List.nil_append] at hround htimes ⊢
    cases times with
    | zero => simp at htimes
    | succ times =>
      refine readWhile_of_holds hstart hround (hread times ?_)
      simp only [List.length_cons, List.length_append] at htimes ⊢
      omega

end

/-! ### Levels -/

/-- The form of a level. -/
def levelForm : Level → Form
  | .disjunction => expression
  | .conjunction => conjunction
  | .negation => negatable
  | .bitwise => bitwise
  | .comparison => comparison
  | .sum => sum
  | .product => product
  | .sign => unary
  | .primary => primary

/-- In front of any token that does not make it go on, the tree is read at a level. -/
def ReadsAt (enter : Construct → Reader) (level : Level) (tree : Tree) : Prop :=
  ∀ rest, level.goesOnAt (current rest) = false → (levelForm level).Takes enter [tree] rest

section

variable {enter : Construct → Reader} {level own : Level} {tree : Tree} {parts : List Tree}
  {rest : List Lexeme} {rule : Rule} {isOperator : Token → Bool}

theorem holds_cons_of_not {test : Token → Bool} {tests : Lookahead} {input : List Lexeme}
    (h : test (current input) = false) : Lookahead.holds (test :: tests) input = false := by
  simp [Lookahead.holds, h]

theorem holds_pair_of_not {first second : Token → Bool} {input : List Lexeme}
    (h : second (current input.tail) = false) : Lookahead.holds [first, second] input = false := by
  simp [Lookahead.holds, h]

theorem whenAt_of_not {token next : Token} (h : isOperator token = false) :
    whenAt isOperator rule token next = none := by
  simp [whenAt, h]

/-- What is read at the level of operands is read one level looser, where no operator follows. -/
theorem readsAt_of_next (hlevel : level ≠ .primary) (hderived : tree.IsDerivation)
    (hbinds : tree.bindsAt level.next) (h : ReadsAt enter level.next tree) :
    ReadsAt enter level tree := by
  intro rest hrest
  have hle : level.rank ≤ level.next.rank := by
    rw [Level.rank_next hlevel]
    exact Nat.le_succ _
  have hnext := h rest (Level.goesOnAt_mono hle hrest)
  have hstarts := startsAt_current hderived hbinds [] rest
  cases level with
  | disjunction => exact hnext.short (whenAt_of_not (Level.isKeyword_or_of_goesOnAt hrest))
  | conjunction => exact hnext.short (whenAt_of_not (Level.isKeyword_and_of_goesOnAt hrest))
  | negation => exact .ifNo (holds_cons_of_not (Level.isKeyword_of_startsAt rfl hstarts)) hnext
  | bitwise => exact hnext.short (whenAt_of_not (Level.isBitwiseSign_of_goesOnAt hrest))
  | comparison => exact hnext.short (Level.predicateRule_of_goesOnAt hrest _)
  | sum => exact hnext.short (whenAt_of_not (Level.isSign_of_goesOnAt hrest))
  | product => exact hnext.short (whenAt_of_not (Level.isProductSign_of_goesOnAt hrest))
  | sign => exact .ifNo (holds_cons_of_not (Level.isSign_of_startsAt hstarts)) hnext
  | primary => exact absurd rfl hlevel

/-- What is read at its own level is read at every looser one. The induction is on the number of
levels between them. -/
theorem readsAt_of_own (hderived : tree.IsDerivation) (hown : tree.level? = some own)
    (h : ReadsAt enter own tree) (hbinds : tree.bindsAt level) : ReadsAt enter level tree := by
  obtain ⟨_, hsome, hrank⟩ := bindsAt_iff.mp hbinds
  obtain rfl := Option.some.inj (hown.symm.trans hsome)
  generalize hbetween : own.rank - level.rank = between
  induction between generalizing level with
  | zero =>
    obtain rfl : own = level := Level.eq_of_rank_eq (by omega)
    exact h
  | succ between ih =>
    have hne : level ≠ .primary := by
      rintro rfl
      have := own.rank_le_primary
      omega
    have hnext := Level.rank_next hne
    have htight : tree.bindsAt level.next := bindsAt_iff.mpr ⟨own, hown, by omega⟩
    exact readsAt_of_next hne hderived htight (ih htight (by omega) (by omega))

/-! ### Chains of operators -/

/-- Links start with one of their marks. -/
theorem head_of_links {test : Tree → Bool} (h : Links (isTokenOf isOperator) test parts)
    (hne : parts ≠ []) :
    ∃ lexeme more, parts = .leaf lexeme :: more ∧ isOperator lexeme.token := by
  cases h with
  | nil => exact absurd rfl hne
  | cons hmark _ _ =>
    obtain ⟨lexeme, rfl, haccepts⟩ := eq_leaf_of_isTokenOf hmark
    exact ⟨lexeme, _, rfl, haccepts⟩

/-- A chain is an operand and links. -/
theorem links_of_chain (h : Chain isOperator level parts) :
    ∃ first links, parts = first :: links ∧ first.bindsAt level ∧ links ≠ [] ∧
      Links (isTokenOf isOperator) (bindsAt level) links := by
  obtain ⟨⟨first, links, rfl, hfirst, hlinks⟩, hlength⟩ := h
  refine ⟨first, links, rfl, hfirst, ?_, hlinks⟩
  rintro rfl
  simp at hlength

/-- A chain whose operators end its operands is read as one node. -/
theorem flatChain_takes (hchain : Chain isOperator level parts)
    (hparts : ∀ part ∈ parts, part.bindsAt level → ReadsAt enter level part)
    (hends : ∀ token, isOperator token → level.goesOnAt token = false)
    (hrest : level.goesOnAt (current rest) = false) (hstops : isOperator (current rest) = false) :
    (flatChain rule isOperator (levelForm level)).Takes enter [ofParts rule parts] rest := by
  obtain ⟨first, links, rfl, hfirst, hne, hlinks⟩ := links_of_chain hchain
  have htail : (Form.whileAt [isOperator] (.seq (.token isOperator "an operator")
      (levelForm level))).Takes enter links rest := by
    refine takes_links hlinks ?_ ?_ hends hrest ?_
    · intro mark part more haccepts _ _
      rw [holds_single]
      exact haccepts
    · intro part hmem hbinds
      exact hparts part (by simp [hmem]) hbinds
    · rw [holds_single]
      exact hstops
  obtain ⟨operator, more, rfl, hoperator⟩ := head_of_links hlinks hne
  exact .extendOne (hparts first (by simp) hfirst _ (hends _ hoperator)) (if_pos hoperator) htail

/-- The end of a chain is read with a level for each of its operators. The induction is on its
links. -/
theorem chainTail_takes {dialect : Dialect} {limit : Nat} {tail : Construct}
    (hbody : bodies dialect tail = deepChainTail isOperator (levelForm level) tail)
    (hlinks : Links (isTokenOf isOperator) (bindsAt level) parts) (hne : parts ≠ [])
    (hparts : ∀ part ∈ parts, part.bindsAt level → ∀ left, part.nesting ≤ left →
      ReadsAt (Grammar.enter (bodies dialect) limit left) level part)
    (hends : ∀ token, isOperator token → level.goesOnAt token = false)
    (hrest : level.goesOnAt (current rest) = false) (hstops : isOperator (current rest) = false)
    {left : Nat} (hnests : nestingOfChain parts ≤ left) :
    (Form.deeper tail).Takes (Grammar.enter (bodies dialect) limit left) parts rest := by
  induction hlinks generalizing left with
  | nil => exact absurd rfl hne
  | @cons mark part more hmark hpart hmore ih =>
    obtain ⟨operator, rfl, hoperator⟩ := eq_leaf_of_isTokenOf hmark
    rw [nestingOfChain_leaf, nestingOfChain_cons hpart] at hnests
    obtain ⟨left, rfl⟩ : ∃ fewer, left = fewer + 1 := ⟨left - 1, by omega⟩
    apply Form.Takes.deeper
    rw [hbody]
    have hread := hparts part (by simp) hpart left (by omega)
    refine .cons (.token hoperator) ?_
    cases hmore with
    | nil => exact .cons (hread rest hrest) (.skip (holds_cons_of_not hstops))
    | @cons mark next others hmark hnext hothers =>
      obtain ⟨operator, rfl, hoperator⟩ := eq_leaf_of_isTokenOf hmark
      refine .cons (hread _ (hends _ hoperator)) (.ifYes ?_ (ih (by simp) ?_ (by omega)))
      · rw [holds_single]
        exact hoperator
      · intro part hmem
        exact hparts part (by simp [hmem])

/-- A chain that nests is read as one node, with a level for each of its operators. -/
theorem deepChain_takes {dialect : Dialect} {limit : Nat} {tail : Construct}
    (hbody : bodies dialect tail = deepChainTail isOperator (levelForm level) tail)
    (hchain : Chain isOperator level parts)
    (hparts : ∀ part ∈ parts, part.bindsAt level → ∀ left, part.nesting ≤ left →
      ReadsAt (Grammar.enter (bodies dialect) limit left) level part)
    (hends : ∀ token, isOperator token → level.goesOnAt token = false)
    (hrest : level.goesOnAt (current rest) = false) (hstops : isOperator (current rest) = false)
    {left : Nat} (hnests : nestingOfChain parts ≤ left) :
    (deepChain rule isOperator (levelForm level) tail).Takes
      (Grammar.enter (bodies dialect) limit left) [ofParts rule parts] rest := by
  obtain ⟨first, links, rfl, hfirst, hne, hlinks⟩ := links_of_chain hchain
  rw [nestingOfChain_cons hfirst, Nat.max_le] at hnests
  have htail : (Form.deeper tail).Takes (Grammar.enter (bodies dialect) limit left) links rest :=
    chainTail_takes hbody hlinks hne (fun part hmem => hparts part (by simp [hmem])) hends hrest
      hstops hnests.2
  obtain ⟨operator, more, rfl, hoperator⟩ := head_of_links hlinks hne
  exact .extendOne (hparts first (by simp) hfirst left hnests.1 _ (hends _ hoperator))
    (if_pos hoperator) htail

/-! ### Comparisons and predicates -/

/-- A tree is read back: at every level where it is an expression, and as a list after `IN`. -/
structure ReadsBack (enter : Construct → Reader) (tree : Tree) : Prop where
  derived : tree.IsDerivation
  reads : ∀ level, tree.bindsAt level → ReadsAt enter level tree
  members : tree.hasRule .expressionList → ∀ rest, (Form.deeper .members).Takes enter [tree] rest

/-- What follows the operand of a predicate past an optional `NOT`. -/
def predicateEnd : Form :=
  .ifAt [isKeyword .IN]
    (.seq (.keyword .IN) (.ifAt [isSymbol .leftParen, isKeyword .SELECT] (.deeper .subquery)
      (.deeper .members))) <|
  .ifAt [isKeyword .LIKE]
    (.all [.keyword .LIKE, sum, .optional [isKeyword .ESCAPE] (.seq (.keyword .ESCAPE) sum)]) <|
  .all [.keyword .BETWEEN, sum, .keyword .AND, sum]

variable (hparts : ∀ part ∈ parts, ReadsBack enter part)
include hparts

theorem comparisonExpr_readsAt (hallows : Rule.comparisonExpr.Allows parts) :
    ReadsAt enter .comparison (ofParts .comparisonExpr parts) := by
  intro rest hrest
  obtain ⟨left, _, rfl, hleft, hrow⟩ := eq_cons_of_row hallows
  obtain ⟨sign, _, rfl, haccepts, hrow'⟩ := eq_leaf_of_row hrow
  obtain ⟨right, _, rfl, hright, hnil⟩ := eq_cons_of_row hrow'
  obtain rfl := eq_nil_of_row hnil
  have hend : Level.sum.goesOnAt (current rest) = false :=
    Level.goesOnAt_mono (by decide) hrest
  refine .extendOne ((hparts left (by simp)).reads .sum hleft _ ?_) (if_pos haccepts) (.ifYes ?_
    (.cons (.token haccepts) ((hparts right (by simp)).reads .sum hright rest hend)))
  · exact Level.goesOnAt_of_isComparisonSign haccepts
  · rw [holds_single]
    exact haccepts

theorem isNullExpr_readsAt (hallows : Rule.isNullExpr.Allows parts) :
    ReadsAt enter .comparison (ofParts .isNullExpr parts) := by
  intro rest _
  rcases hallows with hrow | hrow
  · obtain ⟨left, _, rfl, hleft, his⟩ := eq_cons_of_row hrow
    obtain ⟨_, _, rfl, hnull⟩ := eq_word_of_row his
    obtain ⟨_, _, rfl, hnil⟩ := eq_word_of_row hnull
    obtain rfl := eq_nil_of_row hnil
    exact .extendOne ((hparts left (by simp)).reads .sum hleft _ rfl) rfl (.ifNo rfl
      (.ifYes rfl (.cons (.token rfl) (.skipped (.skip rfl) (.token rfl)))))
  · obtain ⟨left, _, rfl, hleft, his⟩ := eq_cons_of_row hrow
    obtain ⟨_, _, rfl, hnot⟩ := eq_word_of_row his
    obtain ⟨_, _, rfl, hnull⟩ := eq_word_of_row hnot
    obtain ⟨_, _, rfl, hnil⟩ := eq_word_of_row hnull
    obtain rfl := eq_nil_of_row hnil
    exact .extendOne ((hparts left (by simp)).reads .sum hleft _ rfl) rfl (.ifNo rfl
      (.ifYes rfl (.cons (.token rfl) (.cons (.ifYes rfl (.token rfl)) (.token rfl)))))

/-- A predicate is read with or without its `NOT`, when its end is. -/
theorem predicate_readsAt {k : Keyword} {tests : List (Tree → Bool)}
    (hpredicate : Predicate (isWordLeaf k :: tests) parts)
    (hk : predicateOf? (.keyword k) = some rule)
    (hend : ∀ operands rest, Row (isWordLeaf k :: tests) operands → operands ⊆ parts →
      Level.comparison.goesOnAt (current rest) = false → predicateEnd.Takes enter operands rest) :
    ReadsAt enter .comparison (ofParts rule parts) := by
  intro rest hrest
  -- only three words start a predicate, and none of them starts anything else
  have hword : k = .IN ∨ k = .LIKE ∨ k = .BETWEEN := by
    revert hk
    cases k <;> simp [predicateOf?]
  rcases hpredicate with hrow | hrow
  · obtain ⟨left, operands, rfl, hleft, hoperands⟩ := eq_cons_of_row hrow
    have htail := hend operands rest hoperands (List.subset_cons_self left operands) hrest
    obtain ⟨span, more, rfl, -⟩ := eq_word_of_row hoperands
    have hsum := (hparts left (by simp)).reads .sum hleft
      (terminalsOf (.leaf ⟨.keyword k, span⟩ :: more) ++ rest)
    rcases hword with rfl | rfl | rfl <;>
      exact .extendOne (hsum rfl) hk (.ifNo rfl (.ifNo rfl (.skipped (.skip rfl) htail)))
  · obtain ⟨left, _, rfl, hleft, hnot⟩ := eq_cons_of_row hrow
    obtain ⟨span, operands, rfl, hoperands⟩ := eq_word_of_row hnot
    have hsub : operands ⊆ left :: .leaf ⟨.keyword .NOT, span⟩ :: operands := by
      intro part hmem
      simp [hmem]
    have htail := hend operands rest hoperands hsub hrest
    obtain ⟨_, _, rfl, -⟩ := eq_word_of_row hoperands
    exact .extendOne ((hparts left (by simp)).reads .sum hleft _ rfl) hk (.ifNo rfl
      (.ifNo rfl (.cons (.ifYes rfl (.token rfl)) htail)))

omit hparts in
/-- An expression after a parenthesis is no query. -/
theorem no_query_of_bindsAt (hderived : tree.IsDerivation) (hlevel : tree.bindsAt level)
    (left : Lexeme) (more : List Tree) (rest : List Lexeme) :
    Lookahead.holds [isSymbol .leftParen, isKeyword .SELECT]
      (terminalsOf (.leaf left :: tree :: more) ++ rest) = false := by
  have hstarts := startsAt_current hderived hlevel more rest
  have hselect := Level.isKeyword_of_startsAt (Level.startsAt_select level) hstarts
  exact holds_pair_of_not hselect

omit hparts in
/-- Neither is a list of expressions. -/
theorem no_query_of_members (hderived : tree.IsDerivation) (hrule : tree.hasRule .expressionList)
    (rest : List Lexeme) :
    Lookahead.holds [isSymbol .leftParen, isKeyword .SELECT] (terminalsOf [tree] ++ rest) =
      false := by
  cases hderived with
  | leaf => cases hrule
  | @node rule span children hspan hallows hchildren =>
    obtain rfl : rule = .expressionList := by simpa [hasRule, rule?] using hrule
    obtain ⟨left, inner, right, rfl, hleft, -, first, others, rfl, hlevel, -⟩ := hallows
    obtain ⟨lexeme, rfl, -⟩ := eq_leaf_of_isTokenOf hleft
    rw [terminalsOf_singleton, terminals]
    exact no_query_of_bindsAt (hchildren first (by simp)) hlevel lexeme _ rest

/-- A list after `IN` is no query. -/
theorem inExpr_readsAt (hallows : Rule.inExpr.Allows parts)
    (hfree : ∀ part ∈ parts, part.hasRule .subquery = false) :
    ReadsAt enter .comparison (ofParts .inExpr parts) := by
  refine predicate_readsAt hparts hallows rfl ?_
  intro operands rest hrow hsub _
  obtain ⟨_, _, rfl, hlist⟩ := eq_word_of_row hrow
  obtain ⟨list, _, rfl, hkind, hnil⟩ := eq_cons_of_row hlist
  obtain rfl := eq_nil_of_row hnil
  have hmem : list ∈ parts := hsub (by simp)
  have hmembers : list.hasRule .expressionList := by
    simpa [either, hfree list hmem] using hkind
  exact .ifYes rfl (.cons (.token rfl) (.ifNo
    (no_query_of_members (hparts list hmem).derived hmembers rest)
    ((hparts list hmem).members hmembers rest)))

theorem likeExpr_readsAt (hallows : Rule.likeExpr.Allows parts) :
    ReadsAt enter .comparison (ofParts .likeExpr parts) := by
  rcases hallows with hpredicate | hpredicate
  · refine predicate_readsAt hparts hpredicate rfl ?_
    intro operands rest hrow hsub hrest
    obtain ⟨_, _, rfl, hpattern⟩ := eq_word_of_row hrow
    obtain ⟨pattern, _, rfl, hlevel, hnil⟩ := eq_cons_of_row hpattern
    obtain rfl := eq_nil_of_row hnil
    have hread := (hparts pattern (hsub (by simp))).reads .sum hlevel rest
      (Level.goesOnAt_mono (by decide) hrest)
    exact .ifNo rfl (.ifYes rfl (.cons (.token rfl) (.cons hread
      (.skip (holds_cons_of_not (Level.isKeyword_escape_of_goesOnAt hrest))))))
  · refine predicate_readsAt hparts hpredicate rfl ?_
    intro operands rest hrow hsub hrest
    obtain ⟨_, _, rfl, hpattern⟩ := eq_word_of_row hrow
    obtain ⟨pattern, _, rfl, hlevel, hescape⟩ := eq_cons_of_row hpattern
    obtain ⟨_, _, rfl, hcharacter⟩ := eq_word_of_row hescape
    obtain ⟨character, _, rfl, hlast, hnil⟩ := eq_cons_of_row hcharacter
    obtain rfl := eq_nil_of_row hnil
    have hread := (hparts pattern (hsub (by simp))).reads .sum hlevel
    have hend := (hparts character (hsub (by simp))).reads .sum hlast rest
      (Level.goesOnAt_mono (by decide) hrest)
    exact .ifNo rfl (.ifYes rfl (.cons (.token rfl) (.cons (hread _ rfl)
      (.ifYes rfl (.cons (.token rfl) hend)))))

theorem betweenExpr_readsAt (hallows : Rule.betweenExpr.Allows parts) :
    ReadsAt enter .comparison (ofParts .betweenExpr parts) := by
  refine predicate_readsAt hparts hallows rfl ?_
  intro operands rest hrow hsub hrest
  obtain ⟨_, _, rfl, hlow⟩ := eq_word_of_row hrow
  obtain ⟨low, _, rfl, hlevel, hand⟩ := eq_cons_of_row hlow
  obtain ⟨_, _, rfl, hhigh⟩ := eq_word_of_row hand
  obtain ⟨high, _, rfl, hlast, hnil⟩ := eq_cons_of_row hhigh
  obtain rfl := eq_nil_of_row hnil
  have hread := (hparts low (hsub (by simp))).reads .sum hlevel
  have hend := (hparts high (hsub (by simp))).reads .sum hlast rest
    (Level.goesOnAt_mono (by decide) hrest)
  -- the first `AND` belongs to the predicate, since a bound is tighter than a conjunction
  exact .ifNo rfl (.ifNo rfl (.cons (.token rfl) (.cons (hread _ rfl)
    (.cons (.token rfl) hend))))

end

section

variable {enter : Construct → Reader} {parts : List Tree} {rest : List Lexeme} {rule : Rule}

/-! ### Operands -/

/-- A node over one token that no earlier choice looks for. -/
theorem literal_readsAt (hallows : Rule.literal.Allows parts) :
    ReadsAt enter .primary (ofParts .literal parts) := by
  intro rest _
  obtain ⟨⟨token, span⟩, _, rfl, haccepts, hnil⟩ := eq_leaf_of_row hallows
  obtain rfl := eq_nil_of_row hnil
  have hopen : isSymbol .leftParen token = false := by
    cases token with
    | symbol s => cases haccepts
    | _ => rfl
  exact .ifNo (holds_cons_of_not hopen) (.ifNo (holds_cons_of_not hopen) (.ifYes
    (by rw [holds_single]; exact haccepts) (.node (.token haccepts))))

theorem placeholder_readsAt (hallows : Rule.placeholder.Allows parts) :
    ReadsAt enter .primary (ofParts .placeholder parts) := by
  intro rest _
  obtain ⟨⟨token, span⟩, _, rfl, haccepts, hnil⟩ := eq_leaf_of_row hallows
  obtain rfl := eq_nil_of_row hnil
  cases token with
  | placeholder label => exact .ifNo rfl (.ifNo rfl (.ifNo rfl (.ifYes rfl (.node (.token rfl)))))
  | _ => cases haccepts

/-- What a name can start. -/
def named : Form :=
  .ifAt [isPlainName, isSymbol .leftParen]
    (.node .functionCall (.seq .name (.deeper .arguments))) <|
  .ifAt [isWordOf bareFunctions] (.node .functionCall .name) <|
  .ifAt [Token.isName] columnOrAll <|
  .unexpected "an expression"

/-- At a name, the other operands are out of the question. -/
theorem primary_takes_of_isName (hname : (current (terminalsOf parts ++ rest)).isName)
    (h : named.Takes enter parts rest) : primary.Takes enter parts rest := by
  have hopen : isSymbol .leftParen (current (terminalsOf parts ++ rest)) = false := by
    cases htoken : current (terminalsOf parts ++ rest) <;>
      simp_all [Token.isName, isSymbol, Token.name?]
  have hliteral : isLiteral (current (terminalsOf parts ++ rest)) = false := by
    cases htoken : current (terminalsOf parts ++ rest) <;>
      simp_all [Token.isName, isLiteral, Token.name?]
  have hmark : isPlaceholder (current (terminalsOf parts ++ rest)) = false := by
    cases htoken : current (terminalsOf parts ++ rest) <;>
      simp_all [Token.isName, isPlaceholder, Token.name?]
  exact .ifNo (holds_cons_of_not hopen) (.ifNo (holds_cons_of_not hopen)
    (.ifNo (holds_cons_of_not hliteral) (.ifNo (holds_cons_of_not hmark) h)))

theorem bareCall_readsAt (hrow : Row [isTokenOf (isWordOf bareFunctions)] parts) :
    ReadsAt enter .primary (ofParts .functionCall parts) := by
  intro rest hrest
  obtain ⟨name, _, rfl, hword, hnil⟩ := eq_leaf_of_row hrow
  obtain rfl := eq_nil_of_row hnil
  have hname := isName_of_isWordOf hword
  -- no parenthesis follows, so the name is not called with arguments
  have hopen : isSymbol .leftParen (current rest) = false :=
    (Level.isSymbol_of_goesOnAt hrest).2
  refine primary_takes_of_isName hname (.ifNo (holds_pair_of_not hopen) (.ifYes ?_
    (.node (.token hname))))
  rw [holds_single]
  exact hword

/-- Names with dots between them are read up to a dot that no name follows. -/
theorem dotted_takes (hdotted : Dotted parts)
    (hend : Lookahead.holds [isSymbol .dot, fun token => !isSymbol .star token] rest = false) :
    (Form.seq .name (.whileAt [isSymbol .dot, fun token => !isSymbol .star token]
      dotName)).Takes enter parts rest := by
  obtain ⟨first, links, rfl, hfirst, hlinks⟩ := hdotted
  obtain ⟨name, rfl, hname⟩ := eq_leaf_of_isTokenOf hfirst
  refine .cons (.token hname) (takes_links hlinks ?_ ?_ (fun _ _ => trivial) trivial hend)
  · intro mark part more hdot _ hpart
    obtain ⟨other, rfl, hother⟩ := eq_leaf_of_isTokenOf hpart
    have hstar : isSymbol .star other.token = false := by
      cases htoken : other.token <;> simp_all [Token.isName, Token.name?, isSymbol]
    have hmark : isSymbol .dot mark.token = true := hdot
    simp [Lookahead.holds, current, terminals, hmark, hstar]
  · intro part _ hpart more _
    obtain ⟨other, rfl, hother⟩ := eq_leaf_of_isTokenOf hpart
    exact .token hother

/-- After the first of some names stands a dot, or what follows them all. -/
theorem not_paren_of_links {links : List Tree} {more : List Lexeme}
    (hlinks : Links (isSymbolLeaf .dot) (isTokenOf Token.isName) links)
    (hmore : isSymbol .leftParen (current more) = false) :
    isSymbol .leftParen (current (terminalsOf links ++ more)) = false := by
  cases hlinks with
  | nil => exact hmore
  | cons hmark _ _ =>
    obtain ⟨⟨token, span⟩, rfl, hdot⟩ := eq_leaf_of_isTokenOf hmark
    obtain rfl : token = .symbol .dot := by simpa [isSymbol] using hdot
    rfl

/-- A name that starts a column is not called. -/
theorem column_takes {last : List Tree} (hdotted : Dotted parts)
    (hstarts : parts.head?.any (isTokenOf startsColumn))
    (hopen : isSymbol .leftParen (current (terminalsOf last ++ rest)) = false)
    (hend : Lookahead.holds [isSymbol .dot, fun token => !isSymbol .star token]
      (terminalsOf last ++ rest) = false)
    (hrule : (if isSymbol .dot (current (terminalsOf last ++ rest)) then .allColumns
      else .columnName) = rule)
    (hlast : (Form.optional [isSymbol .dot] (.seq (.symbol .dot) (.symbol .star))).Takes enter last
      rest) :
    primary.Takes enter [ofParts rule (parts ++ last)] rest := by
  have hcolumn : columnOrAll.Takes enter [ofParts rule (parts ++ last)] rest :=
    .extend (dotted_takes hdotted hend) (congrArg some hrule) hlast
  obtain ⟨first, links, rfl, hfirst, hlinks⟩ := hdotted
  obtain ⟨name, rfl, hname⟩ := eq_leaf_of_isTokenOf hfirst
  have hbare : isWordOf bareFunctions name.token = false := by
    simpa [startsColumn, hname] using hstarts
  have hterminals : terminalsOf [ofParts rule ((.leaf name :: links) ++ last)] ++ rest =
      name :: (terminalsOf links ++ (terminalsOf last ++ rest)) := by
    simp [ofParts, terminalsOf, terminals]
  apply primary_takes_of_isName
  · rw [hterminals]
    exact hname
  refine .ifNo ?_ (.ifNo ?_ (.ifYes ?_ hcolumn))
  · rw [hterminals]
    exact holds_pair_of_not (not_paren_of_links hlinks hopen)
  · rw [hterminals]
    exact holds_cons_of_not hbare
  · rw [hterminals, holds_single]
    exact hname

theorem columnName_readsAt (hallows : Rule.columnName.Allows parts)
    (hstarts : parts.head?.any (isTokenOf startsColumn)) :
    ReadsAt enter .primary (ofParts .columnName parts) := by
  intro rest hrest
  obtain ⟨hdot, hopen⟩ := Level.isSymbol_of_goesOnAt hrest
  have hnone : ¬isSymbol .dot (current rest) := by simp [hdot]
  have hread : primary.Takes enter [ofParts .columnName (parts ++ [])] rest :=
    column_takes hallows hstarts hopen (holds_cons_of_not hdot) (if_neg hnone)
      (.skip (holds_cons_of_not hdot))
  rw [List.append_nil] at hread
  exact hread

/-- Every column of a table ends in a star, which no name is. -/
theorem allColumns_readsAt (hallows : Rule.allColumns.Allows parts)
    (hstarts : parts.head?.any (isTokenOf startsColumn)) :
    ReadsAt enter .primary (ofParts .allColumns parts) := by
  intro rest _
  rcases hallows with hstar | ⟨names, last, rfl, hdotted, hlast⟩
  · -- a star alone does not start with a name
    obtain ⟨_, _, rfl, -⟩ := eq_symbol_of_row hstar
    cases hstarts
  obtain ⟨_, _, rfl, hstar⟩ := eq_symbol_of_row hlast
  obtain ⟨_, _, rfl, hnil⟩ := eq_symbol_of_row hstar
  obtain rfl := eq_nil_of_row hnil
  have hhead : names.head?.any (isTokenOf startsColumn) := by
    obtain ⟨first, links, rfl, -, -⟩ := hdotted
    exact hstarts
  exact column_takes hdotted hhead rfl rfl rfl (.ifYes rfl (.cons (.token rfl) (.token rfl)))

end

/-! ### One level deeper -/

section

variable {dialect : Dialect} {limit left : Nat} {parts : List Tree} {rest : List Lexeme}
  (hparts : ∀ part ∈ parts, ReadsBack (Grammar.enter (bodies dialect) limit left) part)
include hparts

theorem notExpr_readsAt (hallows : Rule.notExpr.Allows parts) :
    ReadsAt (Grammar.enter (bodies dialect) limit (left + 1)) .negation
      (ofParts .notExpr parts) := by
  intro rest hrest
  obtain ⟨_, _, rfl, hoperand⟩ := eq_word_of_row hallows
  obtain ⟨operand, _, rfl, hlevel, hnil⟩ := eq_cons_of_row hoperand
  obtain rfl := eq_nil_of_row hnil
  have hread := (hparts operand (by simp)).reads .negation hlevel rest hrest
  exact .ifYes rfl (.deeper (.node (.cons (.token rfl) hread)))

theorem unaryExpr_readsAt (hallows : Rule.unaryExpr.Allows parts) :
    ReadsAt (Grammar.enter (bodies dialect) limit (left + 1)) .sign (ofParts .unaryExpr parts) := by
  intro rest hrest
  obtain ⟨sign, _, rfl, haccepts, hoperand⟩ := eq_leaf_of_row hallows
  obtain ⟨operand, _, rfl, hlevel, hnil⟩ := eq_cons_of_row hoperand
  obtain rfl := eq_nil_of_row hnil
  have hread := (hparts operand (by simp)).reads .sign hlevel rest hrest
  refine .ifYes ?_ (.deeper (.node (.cons (.token haccepts) hread)))
  rw [holds_single]
  exact haccepts

theorem parenExpr_readsAt (hallows : Rule.parenExpr.Allows parts) :
    ReadsAt (Grammar.enter (bodies dialect) limit (left + 1)) .primary
      (ofParts .parenExpr parts) := by
  intro rest _
  obtain ⟨_, _, rfl, hinner⟩ := eq_symbol_of_row hallows
  obtain ⟨inner, _, rfl, hlevel, hright⟩ := eq_cons_of_row hinner
  obtain ⟨_, _, rfl, hnil⟩ := eq_symbol_of_row hright
  obtain rfl := eq_nil_of_row hnil
  have hread := (hparts inner (by simp)).reads .disjunction hlevel
  refine .ifNo ?_ (.ifYes rfl (.deeper
    (.node (.cons (.token rfl) (.cons (hread _ rfl) (.token rfl))))))
  rw [terminalsOf_ofParts]
  exact no_query_of_bindsAt (hparts inner (by simp)).derived hlevel _ _ rest

/-- Expressions with commas between them are read up to a parenthesis. -/
theorem expressions_takes {list : List Tree} (hlist : Expressions list) (hsub : list ⊆ parts)
    (hrest : current rest = .symbol .rightParen) :
    (Form.commaList expression).Takes (Grammar.enter (bodies dialect) limit left) list rest := by
  obtain ⟨first, links, rfl, hfirst, hlinks⟩ := hlist
  have hread {part : Tree} (hmem : part ∈ first :: links) (hlevel : part.bindsAt .disjunction) :=
    (hparts part (hsub hmem)).reads .disjunction hlevel
  have hmark (token : Token) (hcomma : isSymbol .comma token) :
      Level.disjunction.goesOnAt token = false := Level.goesOnAt_of_isSymbol rfl hcomma
  have hstops : Level.disjunction.goesOnAt (current rest) = false := by
    rw [hrest]
    rfl
  have hlast : Lookahead.holds [isSymbol .comma] rest = false := by
    rw [holds_single, hrest]
    rfl
  have htail : (Form.whileAt [isSymbol .comma] (.seq (.token (isSymbol .comma)
      (Token.symbol .comma).describe) expression)).Takes
        (Grammar.enter (bodies dialect) limit left) links rest := by
    refine takes_links hlinks ?_ ?_ hmark hstops hlast
    · intro mark part more hcomma _ _
      rw [holds_single]
      exact hcomma
    · intro part hmem hlevel
      exact hread (by simp [hmem]) hlevel
  refine .cons (hread (by simp) hfirst _ ?_) htail
  cases hlinks with
  | nil => exact hstops
  | cons hcomma _ _ =>
    obtain ⟨mark, rfl, haccepts⟩ := eq_leaf_of_isTokenOf hcomma
    exact hmark _ haccepts

theorem members_takes (hallows : Rule.expressionList.Allows parts) :
    (Form.deeper .members).Takes (Grammar.enter (bodies dialect) limit (left + 1))
      [ofParts .expressionList parts] rest := by
  obtain ⟨left, inner, right, rfl, hleft, hright, hlist⟩ := hallows
  obtain ⟨left, rfl, hopen⟩ := eq_leaf_of_isTokenOf hleft
  obtain ⟨⟨token, span⟩, rfl, hclose⟩ := eq_leaf_of_isTokenOf hright
  obtain rfl : token = .symbol .rightParen := by simpa [isSymbol] using hclose
  have hsub : inner ⊆ .leaf left :: (inner ++ [.leaf ⟨.symbol .rightParen, span⟩]) := by
    intro part hmem
    simp [hmem]
  have hread := expressions_takes hparts hlist hsub
    (rfl : current (terminalsOf [.leaf ⟨.symbol .rightParen, span⟩] ++ rest) = _)
  exact .deeper (.node (.cons (.token hopen) (hread.append (.token rfl))))

/-- What stands in the parentheses of a call, past an optional `DISTINCT`. -/
theorem values_takes {list : List Tree} (span : Span) (rest : List Lexeme) (hsub : list ⊆ parts)
    (hlist : list = [] ∨ Row [isStar] list ∨ Expressions list) :
    (Form.ifAt [isSymbol .star] (.node .allColumns (.symbol .star))
        (.optional [fun token => !isSymbol .rightParen token] (.commaList expression))).Takes
      (Grammar.enter (bodies dialect) limit left) list
        (terminalsOf [.leaf ⟨.symbol .rightParen, span⟩] ++ rest) ∧
    isKeyword .DISTINCT
      (current (terminalsOf (list ++ [.leaf ⟨.symbol .rightParen, span⟩]) ++ rest)) = false := by
  rcases hlist with rfl | hrow | hvalues
  · exact ⟨.ifNo rfl (.skip rfl), rfl⟩
  · obtain ⟨tree, _, rfl, hstar, hnil⟩ := eq_cons_of_row hrow
    obtain rfl := eq_nil_of_row hnil
    have hderived := (hparts tree (hsub (by simp))).derived
    unfold isStar at hstar
    split at hstar
    · cases hderived with
      | node hspan _ _ =>
        subst hspan
        exact ⟨.ifYes rfl (.node (.token rfl)), rfl⟩
    · cases hstar
  · have hread := expressions_takes hparts hvalues hsub
      (rfl : current (terminalsOf [.leaf ⟨.symbol .rightParen, span⟩] ++ rest) = _)
    obtain ⟨first, links, rfl, hfirst, -⟩ := hvalues
    have hstarts := startsAt_current (hparts first (hsub (by simp))).derived hfirst
    have hopen := hstarts links (terminalsOf [.leaf ⟨.symbol .rightParen, span⟩] ++ rest)
    refine ⟨.ifNo (holds_cons_of_not ?_) (.ifYes ?_ hread), ?_⟩
    · exact Level.isSymbol_of_startsAt rfl hopen
    · rw [holds_single, Level.isSymbol_of_startsAt (Level.startsAt_rightParen _) hopen]
      rfl
    · exact Level.isKeyword_of_startsAt rfl (hstarts _ rest)

theorem argumentsBody_takes (henclosed : Enclosed Arguments parts) :
    argumentsBody.Takes (Grammar.enter (bodies dialect) limit left) parts rest := by
  obtain ⟨left, inner, right, rfl, hleft, hright, quantifier, list, rfl, hquantifier, hlist⟩ :=
    henclosed
  obtain ⟨left, rfl, hopen⟩ := eq_leaf_of_isTokenOf hleft
  obtain ⟨⟨token, span⟩, rfl, hclose⟩ := eq_leaf_of_isTokenOf hright
  obtain rfl : token = .symbol .rightParen := by simpa [isSymbol] using hclose
  have hsub : list ⊆ .leaf left :: ((quantifier ++ list) ++ [.leaf ⟨.symbol .rightParen, span⟩]) :=
    by
      intro part hmem
      simp [hmem]
  obtain ⟨hvalues, hdistinct⟩ := values_takes hparts span rest hsub hlist
  rw [List.append_assoc]
  refine .cons (.token hopen) ?_
  rcases hquantifier with rfl | hrow
  · exact .skipped (.skip (holds_cons_of_not hdistinct)) (hvalues.append (.token rfl))
  · obtain ⟨_, _, rfl, hnil⟩ := eq_word_of_row hrow
    obtain rfl := eq_nil_of_row hnil
    exact .cons (.ifYes rfl (.token rfl)) (hvalues.append (.token rfl))

theorem call_readsAt {name : Tree} (hname : name.isTokenOf isPlainName)
    (henclosed : Enclosed Arguments parts) :
    ReadsAt (Grammar.enter (bodies dialect) limit (left + 1)) .primary
      (ofParts .functionCall (name :: parts)) := by
  intro rest _
  obtain ⟨name, rfl, hplain⟩ := eq_leaf_of_isTokenOf hname
  have hbody : argumentsBody.Takes _ parts rest := argumentsBody_takes hparts henclosed
  have hcall : Lookahead.holds [isPlainName, isSymbol .leftParen]
      (terminalsOf [ofParts .functionCall (.leaf name :: parts)] ++ rest) := by
    obtain ⟨open_, _, _, rfl, hopen, -⟩ := henclosed
    obtain ⟨mark, rfl, haccepts⟩ := eq_leaf_of_isTokenOf hopen
    rw [terminalsOf_ofParts]
    simpa [Lookahead.holds, terminalsOf, terminals, current, hplain] using haccepts
  refine primary_takes_of_isName (isName_of_isPlainName hplain) (.ifYes hcall ?_)
  exact .node (.cons (.token (isName_of_isPlainName hplain)) (.deeper hbody))

end

/-! ### Whole derivations -/

section

variable {dialect : Dialect} {limit left : Nat} {rule : Rule} {parts : List Tree} {own : Level}

/-- A call with arguments has a parenthesis among its parts. -/
theorem hasToken_of_enclosed {name : Tree} {Inner : List Tree → Prop}
    (h : Enclosed Inner parts) : hasToken (.symbol .leftParen) (name :: parts) := by
  obtain ⟨left, inner, right, rfl, hleft, -, -⟩ := h
  obtain ⟨lexeme, rfl, hopen⟩ := eq_leaf_of_isTokenOf hleft
  have htoken : lexeme.token = .symbol .leftParen := by simpa [isSymbol] using hopen
  cases name <;> simp [hasToken, leaves, htoken]

/-- A node is read at its own level when its parts are read back, with as many levels as they
need. -/
theorem ofParts_readsAt (hallows : rule.Allows parts)
    (hlevel : (ofParts rule parts).level? = some own)
    (hnests : (ofParts rule parts).nesting ≤ left)
    (hfree : ∀ part ∈ parts, part.hasRule .subquery = false) (hrule : rule ≠ .subquery)
    (hparts : ∀ part ∈ parts, ∀ left, part.nesting ≤ left →
      ReadsBack (Grammar.enter (bodies dialect) limit left) part) :
    ReadsAt (Grammar.enter (bodies dialect) limit left) own (ofParts rule parts) := by
  have hbelow {left : Nat} (hle : nestingOf parts ≤ left) :
      ∀ part ∈ parts, ReadsBack (Grammar.enter (bodies dialect) limit left) part :=
    fun part hmem => hparts part hmem left (nestingOf_le.mp hle part hmem)
  have hoperands {level : Level} : ∀ part ∈ parts, part.bindsAt level → ∀ left,
      part.nesting ≤ left → ReadsAt (Grammar.enter (bodies dialect) limit left) level part :=
    fun part hmem hbinds left hle => (hparts part hmem left hle).reads level hbinds
  have exists_eq_succ {opened : Nat} (hle : opened + 1 ≤ left) : ∃ fewer, left = fewer + 1 :=
    Nat.exists_eq_succ_of_ne_zero (by omega)
  cases rule with
  | orExpr =>
    cases hlevel
    intro rest hrest
    refine flatChain_takes hallows (fun part hmem => (hbelow hnests part hmem).reads _) ?_
      (Level.goesOnAt_mono (by decide) hrest) (Level.isKeyword_or_of_goesOnAt hrest)
    exact fun _ => Level.goesOnAt_of_isKeyword rfl
  | andExpr =>
    cases hlevel
    intro rest hrest
    refine flatChain_takes hallows (fun part hmem => (hbelow hnests part hmem).reads _) ?_
      (Level.goesOnAt_mono (by decide) hrest) (Level.isKeyword_and_of_goesOnAt hrest)
    exact fun _ => Level.goesOnAt_of_isKeyword rfl
  | bitwiseExpr =>
    cases hlevel
    intro rest hrest
    exact flatChain_takes hallows (fun part hmem => (hbelow hnests part hmem).reads _)
      (fun _ => Level.goesOnAt_of_isBitwiseSign) (Level.goesOnAt_mono (by decide) hrest)
      (Level.isBitwiseSign_of_goesOnAt hrest)
  | comparisonExpr => cases hlevel; exact comparisonExpr_readsAt (hbelow hnests) hallows
  | isNullExpr => cases hlevel; exact isNullExpr_readsAt (hbelow hnests) hallows
  | inExpr => cases hlevel; exact inExpr_readsAt (hbelow hnests) hallows hfree
  | likeExpr => cases hlevel; exact likeExpr_readsAt (hbelow hnests) hallows
  | betweenExpr => cases hlevel; exact betweenExpr_readsAt (hbelow hnests) hallows
  | literal => cases hlevel; exact literal_readsAt hallows
  | placeholder => cases hlevel; exact placeholder_readsAt hallows
  | additiveExpr =>
    cases hlevel
    intro rest hrest
    exact deepChain_takes rfl hallows hoperands (fun _ => Level.goesOnAt_of_isSign)
      (Level.goesOnAt_mono (by decide) hrest) (Level.isSign_of_goesOnAt hrest) hnests
  | multiplicativeExpr =>
    cases hlevel
    intro rest hrest
    exact deepChain_takes rfl hallows hoperands (fun _ => Level.goesOnAt_of_isProductSign)
      (Level.goesOnAt_mono (by decide) hrest) (Level.isProductSign_of_goesOnAt hrest) hnests
  | notExpr =>
    cases hlevel
    obtain ⟨left, rfl⟩ := exists_eq_succ hnests
    exact notExpr_readsAt (hbelow (Nat.le_of_succ_le_succ hnests)) hallows
  | unaryExpr =>
    cases hlevel
    obtain ⟨left, rfl⟩ := exists_eq_succ hnests
    exact unaryExpr_readsAt (hbelow (Nat.le_of_succ_le_succ hnests)) hallows
  | parenExpr =>
    cases hlevel
    obtain ⟨left, rfl⟩ := exists_eq_succ hnests
    exact parenExpr_readsAt (hbelow (Nat.le_of_succ_le_succ hnests)) hallows
  | functionCall =>
    cases hlevel
    rcases hallows with hrow | ⟨name, arguments, rfl, hname, henclosed⟩
    · exact bareCall_readsAt hrow
    have hcall : nestingOf (name :: arguments) + 1 ≤ left := by
      simpa [ofParts, nesting, hasToken_of_enclosed henclosed] using hnests
    obtain ⟨left, rfl⟩ := exists_eq_succ hcall
    refine call_readsAt ?_ hname henclosed
    exact fun part hmem => hbelow (Nat.le_of_succ_le_succ hcall) part (by simp [hmem])
  | columnName =>
    simp only [ofParts, level?] at hlevel
    split at hlevel
    · cases hlevel
      exact columnName_readsAt hallows ‹_›
    · cases hlevel
  | allColumns =>
    simp only [ofParts, level?] at hlevel
    split at hlevel
    · cases hlevel
      exact allColumns_readsAt hallows ‹_›
    · cases hlevel
  | subquery => exact absurd rfl hrule
  | _ => cases hlevel

/-- **Derivations without queries are read back**, with at least as many levels as they open. The
induction is on the derivation: a node is read at its own level first, and from there at every
looser one. -/
theorem readsBack {tree : Tree} (h : tree.IsDerivation) (hfree : tree.SubqueryFree)
    (hnests : tree.nesting ≤ left) :
    ReadsBack (Grammar.enter (bodies dialect) limit left) tree := by
  induction h generalizing left with
  | leaf =>
    refine ⟨.leaf, ?_, ?_⟩
    · intro level hlevel
      cases hlevel
    · intro hrule
      cases hrule
  | @node rule span children hspan hallows hchildren ih =>
    subst hspan
    obtain ⟨hrule, hfree⟩ := subqueryFree_node.mp hfree
    have hderived : (ofParts rule children).IsDerivation := .node rfl hallows hchildren
    have hparts : ∀ part ∈ children, ∀ left, part.nesting ≤ left →
        ReadsBack (Grammar.enter (bodies dialect) limit left) part :=
      fun part hmem left hle => ih part hmem (hfree part hmem) hle
    refine ⟨hderived, ?_, ?_⟩
    · intro level hlevel
      obtain ⟨own, hown, -⟩ := bindsAt_iff.mp hlevel
      have hread := ofParts_readsAt hallows hown hnests
        (fun part hmem => hfree part hmem part .self) hrule hparts
      exact readsAt_of_own hderived hown hread hlevel
    · intro hrule rest
      obtain rfl : rule = .expressionList := by simpa [hasRule, rule?] using hrule
      obtain ⟨left, rfl⟩ : ∃ fewer, left = fewer + 1 :=
        Nat.exists_eq_succ_of_ne_zero (by have : nestingOf children + 1 ≤ left := hnests; omega)
      have hle : nestingOf children + 1 ≤ left + 1 := hnests
      exact members_takes (fun part hmem => hparts part hmem left
        (nestingOf_le.mp (Nat.le_of_succ_le_succ hle) part hmem)) hallows

end

end Grammar

end SqlFront
