import SqlFront.Proofs.DerivationSound
import SqlFront.Proofs.ParserForms

/-!
The tokens at both ends of an expression: which ones it can start with, and which ones would make
it go on. Each level of expressions has its own tests. What a choice of the grammar looks at is
settled by them.
-/

namespace SqlFront

open Grammar

namespace Level

/-- The token starts an expression of this level. -/
def startsAt (level : Level) (token : Token) : Bool :=
  isSymbol .leftParen token || isLiteral token || isPlaceholder token || token.isName ||
    (level.rank ≤ sign.rank && isSign token) ||
    (level.rank ≤ negation.rank && isKeyword .NOT token)

/-- The level of the operands of a chain; operands have none. -/
def next : Level → Level
  | disjunction => conjunction
  | conjunction => negation
  | negation => bitwise
  | bitwise => comparison
  | comparison => sum
  | sum => product
  | product => sign
  | sign => primary
  | primary => primary

theorem rank_next {level : Level} (h : level ≠ primary) : level.next.rank = level.rank + 1 := by
  cases level <;> first | rfl | exact absurd rfl h

theorem rank_le_primary (level : Level) : level.rank ≤ primary.rank := by
  cases level <;> decide

theorem eq_of_rank_eq {first second : Level} (h : first.rank = second.rank) : first = second := by
  cases first <;> cases second <;> first | rfl | cases h

variable {loose tight : Level} {token : Token}

/-- What starts a tight expression starts a loose one. -/
theorem startsAt_mono (hle : loose.rank ≤ tight.rank) (h : tight.startsAt token) :
    loose.startsAt token := by
  simp only [startsAt, Bool.or_eq_true, Bool.and_eq_true, decide_eq_true_eq] at h ⊢
  rcases h with (h | ⟨hrank, hsign⟩) | ⟨hrank, hnot⟩
  · exact .inl (.inl h)
  · exact .inl (.inr ⟨Nat.le_trans hle hrank, hsign⟩)
  · exact .inr ⟨Nat.le_trans hle hrank, hnot⟩

/-- What makes a tight expression go on makes a loose one go on. -/
theorem goesOnAt_mono (hle : loose.rank ≤ tight.rank) (h : loose.goesOnAt token = false) :
    tight.goesOnAt token = false := by
  by_contra hgoes
  suffices loose.goesOnAt token by simp [h] at this
  simp only [Bool.not_eq_false, goesOnAt, Bool.or_eq_true, Bool.and_eq_true,
    decide_eq_true_eq] at hgoes ⊢
  have hweaken {level : Level} {test : Prop} (h : tight.rank ≤ level.rank ∧ test) :
      loose.rank ≤ level.rank ∧ test := ⟨Nat.le_trans hle h.1, h.2⟩
  exact hgoes.imp (.imp (.imp (.imp (.imp (.imp_right hweaken) hweaken) hweaken) hweaken) hweaken)
    hweaken

theorem startsAt_of_isName {level : Level} (h : token.isName) : level.startsAt token := by
  simp [startsAt, h]

/-! ### What an expression does not start with -/

theorem isKeyword_of_startsAt {level : Level} {k : Keyword}
    (hword : level.startsAt (.keyword k) = false) (h : level.startsAt token) :
    isKeyword k token = false := by
  by_contra hk
  obtain rfl : token = .keyword k := by simpa [isKeyword] using hk
  rw [hword] at h
  cases h

theorem isSymbol_of_startsAt {level : Level} {s : Symbol}
    (hsymbol : level.startsAt (.symbol s) = false) (h : level.startsAt token) :
    isSymbol s token = false := by
  by_contra hs
  obtain rfl : token = .symbol s := by simpa [isSymbol] using hs
  rw [hsymbol] at h
  cases h

theorem startsAt_select (level : Level) : level.startsAt (.keyword .SELECT) = false := by
  cases level <;> rfl

theorem startsAt_rightParen (level : Level) : level.startsAt (.symbol .rightParen) = false := by
  cases level <;> rfl

/-- An operand starts with no sign. -/
theorem isSign_of_startsAt (h : primary.startsAt token) : isSign token = false := by
  cases token with
  | symbol s => cases s <;> first | rfl | cases h
  | _ => rfl

/-! ### What makes an expression go on -/

theorem goesOnAt_of_isKeyword {level : Level} {k : Keyword}
    (hword : level.goesOnAt (.keyword k) = false) (h : isKeyword k token) :
    level.goesOnAt token = false := by
  obtain rfl : token = .keyword k := by simpa [isKeyword] using h
  exact hword

theorem goesOnAt_of_isSymbol {level : Level} {s : Symbol}
    (hsymbol : level.goesOnAt (.symbol s) = false) (h : isSymbol s token) :
    level.goesOnAt token = false := by
  obtain rfl : token = .symbol s := by simpa [isSymbol] using h
  exact hsymbol

/-- The operators of a chain do not belong to its operands. -/
theorem goesOnAt_of_isSign (h : isSign token) : product.goesOnAt token = false := by
  cases token with
  | symbol s => cases s <;> first | rfl | cases h
  | _ => cases h

theorem goesOnAt_of_isProductSign (h : isProductSign token) : sign.goesOnAt token = false := by
  cases token with
  | symbol s => cases s <;> first | rfl | cases h
  | _ => cases h

theorem goesOnAt_of_isBitwiseSign (h : isBitwiseSign token) :
    comparison.goesOnAt token = false := by
  cases token with
  | symbol s => cases s <;> first | rfl | cases h
  | _ => cases h

theorem goesOnAt_of_isComparisonSign (h : isComparisonSign token) :
    sum.goesOnAt token = false := by
  cases token with
  | symbol s => cases s <;> first | rfl | cases h
  | _ => cases h

/-- After a comparison that does not go on, no production is called for. -/
theorem predicateRule_of_goesOnAt (h : comparison.goesOnAt token = false) (next : Token) :
    predicateRule token next = none := by
  cases token with
  | symbol s => cases s <;> first | rfl | cases h
  | keyword k => cases k <;> first | rfl | cases h
  | _ => rfl

/-- The tokens of the other operators, at the levels of their chains. -/
theorem isKeyword_or_of_goesOnAt (h : disjunction.goesOnAt token = false) :
    isKeyword .OR token = false := by
  simp_all [goesOnAt, rank]

theorem isKeyword_and_of_goesOnAt (h : conjunction.goesOnAt token = false) :
    isKeyword .AND token = false := by
  simp_all [goesOnAt, rank]

theorem isBitwiseSign_of_goesOnAt (h : bitwise.goesOnAt token = false) :
    isBitwiseSign token = false := by
  simp_all [goesOnAt, rank]

theorem isSign_of_goesOnAt (h : sum.goesOnAt token = false) : isSign token = false := by
  simp_all [goesOnAt, rank]

theorem isProductSign_of_goesOnAt (h : product.goesOnAt token = false) :
    isProductSign token = false := by
  simp_all [goesOnAt, rank]

theorem isKeyword_escape_of_goesOnAt (h : comparison.goesOnAt token = false) :
    isKeyword .ESCAPE token = false := by
  simp_all [goesOnAt, rank, isOneOf]

theorem isSymbol_of_goesOnAt (h : primary.goesOnAt token = false) :
    isSymbol .dot token = false ∧ isSymbol .leftParen token = false := by
  simp_all [goesOnAt, rank]

end Level

/-! ### The first token of a derivation -/

theorem isName_of_isWordOf {words : List String} {token : Token} (h : isWordOf words token) :
    token.isName :=
  isName_of_isPlainName (isPlainName_of_isWordOf h)

namespace Tree

theorem eq_leaf_of_isTokenOf {test : Token → Bool} {tree : Tree} (h : tree.isTokenOf test) :
    ∃ lexeme, tree = .leaf lexeme ∧ test lexeme.token := by
  cases tree with
  | leaf lexeme => exact ⟨lexeme, rfl, h⟩
  | node rule span children => cases h

theorem eq_nil_of_row {parts : List Tree} (h : Row [] parts) : parts = [] :=
  List.forall₂_nil_left_iff.mp h

theorem eq_cons_of_row {test : Tree → Bool} {tests : List (Tree → Bool)} {parts : List Tree}
    (h : Row (test :: tests) parts) :
    ∃ part more, parts = part :: more ∧ test part ∧ Row tests more := by
  obtain ⟨part, more, hpart, hmore, rfl⟩ := List.forall₂_cons_left_iff.mp h
  exact ⟨part, more, rfl, hpart, hmore⟩

theorem eq_leaf_of_row {test : Token → Bool} {tests : List (Tree → Bool)} {parts : List Tree}
    (h : Row (isTokenOf test :: tests) parts) :
    ∃ lexeme more, parts = .leaf lexeme :: more ∧ test lexeme.token ∧ Row tests more := by
  obtain ⟨_, more, rfl, hpart, hmore⟩ := eq_cons_of_row h
  obtain ⟨lexeme, rfl, haccepts⟩ := eq_leaf_of_isTokenOf hpart
  exact ⟨lexeme, more, rfl, haccepts, hmore⟩

theorem eq_word_of_row {k : Keyword} {tests : List (Tree → Bool)} {parts : List Tree}
    (h : Row (isWordLeaf k :: tests) parts) :
    ∃ span more, parts = .leaf ⟨.keyword k, span⟩ :: more ∧ Row tests more := by
  obtain ⟨⟨token, span⟩, more, rfl, haccepts, hmore⟩ := eq_leaf_of_row h
  obtain rfl : token = .keyword k := by simpa [isKeyword] using haccepts
  exact ⟨span, more, rfl, hmore⟩

theorem eq_symbol_of_row {s : Symbol} {tests : List (Tree → Bool)} {parts : List Tree}
    (h : Row (isSymbolLeaf s :: tests) parts) :
    ∃ span more, parts = .leaf ⟨.symbol s, span⟩ :: more ∧ Row tests more := by
  obtain ⟨⟨token, span⟩, more, rfl, haccepts, hmore⟩ := eq_leaf_of_row h
  obtain rfl : token = .symbol s := by simpa [isSymbol] using haccepts
  exact ⟨span, more, rfl, hmore⟩

/-- The tree is a token that starts an expression of a level, or an expression of that level. -/
def starts (level : Level) : Tree → Bool := either (isTokenOf level.startsAt) (bindsAt level)

theorem starts_of_bindsAt {loose tight : Level} (hle : loose.rank ≤ tight.rank) {tree : Tree}
    (h : tree.bindsAt tight) : tree.starts loose :=
  either_of_right _ tree (bindsAt_mono hle h)

theorem starts_of_isTokenOf {level : Level} {test : Token → Bool} {tree : Tree}
    (h : tree.isTokenOf test) (htest : ∀ token, test token → level.startsAt token) :
    tree.starts level := by
  obtain ⟨lexeme, rfl, haccepts⟩ := eq_leaf_of_isTokenOf h
  exact either_of_left _ _ (htest lexeme.token haccepts)

theorem starts_of_chain {operator : Token → Bool} {loose tight : Level} {parts : List Tree}
    (hle : loose.rank ≤ tight.rank) (h : Chain operator tight parts) :
    parts.head?.any (starts loose) := by
  obtain ⟨⟨first, rest, rfl, hfirst, -⟩, -⟩ := h
  exact starts_of_bindsAt hle hfirst

theorem starts_of_row {tests : List (Tree → Bool)} {test : Tree → Bool} {level : Level}
    {parts : List Tree} (hstarts : ∀ tree, test tree → tree.starts level)
    (h : Row (test :: tests) parts) : parts.head?.any (starts level) := by
  cases h with
  | cons hfirst hrest => exact hstarts _ hfirst

theorem starts_of_predicate {tests : List (Tree → Bool)} {parts : List Tree}
    (h : Predicate tests parts) : parts.head?.any (starts .comparison) := by
  rcases h with h | h
  · exact starts_of_row (fun _ => starts_of_bindsAt (by decide)) h
  · exact starts_of_row (fun _ => starts_of_bindsAt (by decide)) h

/-- The first part of an expression starts an expression of its level. -/
theorem starts_of_allows {rule : Rule} {span : Span} {parts : List Tree} {own : Level}
    (hallows : rule.Allows parts) (hlevel : (node rule span parts).level? = some own) :
    parts.head?.any (starts own) := by
  have hsum {tests : List (Tree → Bool)} (hrow : Row (bindsAt .sum :: tests) parts) :
      parts.head?.any (starts .comparison) :=
    starts_of_row (fun _ => starts_of_bindsAt (by decide)) hrow
  have hleaf {test : Token → Bool} {tests : List (Tree → Bool)} {level : Level}
      (htest : ∀ token, test token → level.startsAt token)
      (hrow : Row (isTokenOf test :: tests) parts) : parts.head?.any (starts level) :=
    starts_of_row (fun _ htree => starts_of_isTokenOf htree htest) hrow
  -- a column or a star starts with a name where it counts as an expression
  have hname (hany : parts.head?.any (isTokenOf startsColumn)) :
      parts.head?.any (starts .primary) := by
    obtain ⟨first, rest, rfl⟩ : ∃ first rest, parts = first :: rest := by
      cases parts with
      | nil => cases hany
      | cons first rest => exact ⟨first, rest, rfl⟩
    refine starts_of_isTokenOf hany fun token htoken => Level.startsAt_of_isName ?_
    exact (Bool.and_eq_true_iff.mp htoken).1
  cases rule with
  | orExpr => cases hlevel; exact starts_of_chain (by decide) hallows
  | andExpr => cases hlevel; exact starts_of_chain (by decide) hallows
  | bitwiseExpr => cases hlevel; exact starts_of_chain (by decide) hallows
  | additiveExpr => cases hlevel; exact starts_of_chain (by decide) hallows
  | multiplicativeExpr => cases hlevel; exact starts_of_chain (by decide) hallows
  | notExpr => cases hlevel; exact hleaf (by simp +contextual [Level.startsAt, Level.rank]) hallows
  | comparisonExpr => cases hlevel; exact hsum hallows
  | isNullExpr => cases hlevel; exact hallows.elim hsum hsum
  | inExpr => cases hlevel; exact starts_of_predicate hallows
  | likeExpr => cases hlevel; exact hallows.elim starts_of_predicate starts_of_predicate
  | betweenExpr => cases hlevel; exact starts_of_predicate hallows
  | unaryExpr =>
    cases hlevel
    exact hleaf (by simp +contextual [Level.startsAt, Level.rank]) hallows
  | parenExpr => cases hlevel; exact hleaf (by simp +contextual [Level.startsAt]) hallows
  | subquery => cases hlevel; exact hleaf (by simp +contextual [Level.startsAt]) hallows
  | literal => cases hlevel; exact hleaf (by simp +contextual [Level.startsAt]) hallows
  | placeholder => cases hlevel; exact hleaf (by simp +contextual [Level.startsAt]) hallows
  | functionCall =>
    cases hlevel
    rcases hallows with hrow | ⟨name, arguments, rfl, hplain, -⟩
    · exact hleaf (fun _ hword => Level.startsAt_of_isName (isName_of_isWordOf hword)) hrow
    · exact starts_of_isTokenOf hplain fun _ hword =>
        Level.startsAt_of_isName (isName_of_isPlainName hword)
  | columnName | allColumns =>
    simp only [level?] at hlevel
    split at hlevel
    · rename_i hany
      cases hlevel
      exact hname hany
    · cases hlevel
  | _ => cases hlevel

/-- **An expression starts with a token of its level.** The induction is on the derivation; the
first token of a node is the first token of its first part. -/
theorem IsDerivation.startsAt {tree : Tree} {level : Level} (h : tree.IsDerivation)
    (hlevel : tree.bindsAt level) :
    ∃ lexeme more, tree.terminals = lexeme :: more ∧ level.startsAt lexeme.token := by
  induction h generalizing level with
  | leaf => cases hlevel
  | @node rule span children hspan hallows hchildren ih =>
    obtain ⟨own, hown, hrank⟩ := bindsAt_iff.mp hlevel
    have hstarts := starts_of_allows hallows hown
    obtain ⟨first, rest, rfl⟩ : ∃ first rest, children = first :: rest := by
      cases children with
      | nil => cases hstarts
      | cons first rest => exact ⟨first, rest, rfl⟩
    rw [terminals, terminalsOf]
    rcases Bool.or_eq_true_iff.mp hstarts with htoken | hfirst
    · obtain ⟨lexeme, rfl, htoken⟩ := eq_leaf_of_isTokenOf htoken
      exact ⟨lexeme, _, rfl, Level.startsAt_mono hrank htoken⟩
    · obtain ⟨lexeme, more, hterminals, htoken⟩ := ih first (by simp) hfirst
      exact ⟨lexeme, more ++ terminalsOf rest, by rw [hterminals]; rfl,
        Level.startsAt_mono hrank htoken⟩

/-- The next token before an expression starts it. -/
theorem startsAt_current {tree : Tree} {level : Level} (h : tree.IsDerivation)
    (hlevel : tree.bindsAt level) (parts : List Tree) (rest : List Lexeme) :
    level.startsAt (current (terminalsOf (tree :: parts) ++ rest)) := by
  obtain ⟨lexeme, more, hterminals, hstarts⟩ := h.startsAt hlevel
  rw [terminalsOf, hterminals]
  exact hstarts

end Tree

end SqlFront
