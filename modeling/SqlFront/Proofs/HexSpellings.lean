import SqlFront.Proofs.ExpressionGrammar
import SqlFront.Proofs.StringUnits

/-!
The spellings of bytes by hexadecimal digits.

There are three of them: a number, a string of digits, and an escaped string with the digits in
groups, each behind a mark. Each dialect has some of them. Whatever the spelling is, the text is one
token, and the token is read as the bytes of all its digits, or refused for the first group that
ends inside a pair. Groups of an odd number of digits never join into pairs.
-/

namespace SqlFront

open Grammar Literal

/-! ### Spellings -/

/-- How a dialect spells bytes by groups of hexadecimal digits. Only an escaped string has more than
one group. -/
inductive Dialect.SpellsHex (dialect : Dialect) : List (List Char) → List Char → Prop where
  | number {letter : Char} {digits : List Char} : dialect = .mssql ∨ dialect = .mysql →
      letter = 'x' ∨ letter = 'X' → SpellsHex dialect [digits] ('0' :: letter :: digits)
  | string {letter : Char} {digits : List Char} : dialect = .mysql ∨ dialect = .postgres →
      letter = 'x' ∨ letter = 'X' →
      SpellsHex dialect [digits] (letter :: '\'' :: (digits ++ ['\'']))
  | escaped {letter : Char} {groups : List (List Char)} : dialect = .postgres →
      letter = 'e' ∨ letter = 'E' →
      SpellsHex dialect groups (letter :: '\'' :: (hexMarked groups ++ ['\'']))

/-- The text spells these digits, in groups of which none is empty. -/
structure Dialect.WritesHex (dialect : Dialect) (digits : List Char) (groups : List (List Char))
    (source : List Char) : Prop where
  digits : groups.flatten = digits
  filled : ∀ group ∈ groups, group ≠ []
  spells : dialect.SpellsHex groups source

/-! ### Tokens -/

/-- The token is a literal that is read as these groups of digits. -/
structure Token.StandsForHex (token : Token) (groups : List (List Char)) : Prop where
  isLiteral : Grammar.isLiteral token
  literal : ∀ (context : Build.Context) (rule : Rule), context.hexDigits.Lawful →
    context.literal rule (some token) = Built.ofMeaning (hexConstant groups)

section

variable {digits : List Char} {groups : List (List Char)}

theorem hexNumberPiece_digits (zero letter : Char) (hne : digits ≠ []) (h : AreHexDigits digits) :
    hexNumberPiece zero letter digits =
      .ok ⟨zero :: letter :: digits, .token (.hexNumber (String.ofList digits))⟩ := by
  have taken : digits.takeWhile isHexDigit = digits := List.takeWhile_eq_self_iff.mpr h
  have dropped : digits.dropWhile isHexDigit = [] := List.dropWhile_eq_nil_iff.mpr h
  simp [hexNumberPiece, taken, dropped, hne]

theorem hexStringPiece_digits (letter : Char) (h : AreHexDigits digits) :
    hexStringPiece letter (digits ++ ['\'']) =
      .ok ⟨letter :: '\'' :: (digits ++ ['\'']), .token (.hexString (String.ofList digits))⟩ := by
  have taken : (digits ++ ['\'']).takeWhile isHexDigit = digits := by
    rw [List.takeWhile_append_of_pos h]
    exact List.append_nil digits
  have dropped : (digits ++ ['\'']).dropWhile isHexDigit = ['\''] := by
    rw [List.dropWhile_append_of_pos h]
    rfl
  simp [hexStringPiece, taken, dropped]

/-- A mark is a backslash with the character after it, and digits stand for themselves. -/
theorem splitsInto_hexMarked (h : AreHexGroups groups) :
    SplitsInto '\'' true (hexMarked groups)
      (groups.flatMap fun group => .escape 'x' :: group.map .plain) where
  fits := by
    simp only [List.forall_mem_flatMap, List.forall_mem_cons, List.forall_mem_map]
    intro group hgroup
    refine ⟨rfl, fun c hc => ⟨?_, ?_⟩⟩
    · rintro rfl
      exact absurd ((h group hgroup).2 _ hc) (by decide)
    · rintro ⟨-, rfl⟩
      exact not_mem_of_areHexDigits (h group hgroup).2 hc
  text := by
    have plain (group : List Char) :
        StringUnit.textOf '\'' (group.map .plain) = group := by
      simp [StringUnit.textOf, List.flatMap_map, StringUnit.text, List.flatMap_singleton']
    rw [StringUnit.textOf, List.flatMap_assoc, hexMarked]
    congr 1
    funext group
    rw [List.flatMap_cons, ← StringUnit.textOf, plain]
    rfl

theorem stringPiece_hexMarked (lead : List Char) (h : AreHexGroups groups) :
    stringPiece lead .escaped true (hexMarked groups ++ ['\'']) =
      .ok ⟨lead ++ '\'' :: hexMarked groups ++ ['\''],
        .token (.string (String.ofList (hexMarked groups)) .escaped)⟩ := by
  have read := (splitsInto_hexMarked h).stringBody StringKind.escaped.quote_ne_backslash
  simp only [stringPiece, StringKind.quote] at read ⊢
  rw [read]

/-- Where the dialect has it, a spelling is one piece, and its token stands for the groups. -/
theorem Lexer.cuts_of_spellsHex (lexer : Lexer) {source : List Char} (hne : groups ≠ [])
    (h : AreHexGroups groups) (spells : lexer.dialect.SpellsHex groups source) :
    ∃ token : Token, lexer.Cuts [⟨source, .token token⟩] ∧ token.StandsForHex groups := by
  cases spells with
  | @number letter digits hdialect hletter =>
    obtain ⟨filled, hdigits⟩ := h digits (List.mem_singleton_self _)
    refine ⟨.hexNumber (String.ofList digits), .cons ?_ .nil, rfl, fun context rule lawful => ?_⟩
    · have read := hexNumberPiece_digits '0' letter filled hdigits
      rw [Piece.textOf_nil, List.append_nil]
      obtain hdialect | hdialect := hdialect <;> obtain rfl | rfl := hletter <;>
        simpa [Lexer.piece, gap?, isBlank, tokenPiece, hdialect, Dialect.hexNumbers] using read
    · exact congrArg Built.ofMeaning (map_hex lawful hdigits)
  | @string letter digits hdialect hletter =>
    obtain ⟨-, hdigits⟩ := h digits (List.mem_singleton_self _)
    refine ⟨.hexString (String.ofList digits), .cons ?_ .nil, rfl, fun context rule lawful => ?_⟩
    · have read := hexStringPiece_digits letter hdigits
      rw [Piece.textOf_nil, List.append_nil]
      obtain hdialect | hdialect := hdialect <;> obtain rfl | rfl := hletter <;>
        simpa [Lexer.piece, gap?, isBlank, tokenPiece, hdialect, Dialect.hexStrings] using read
    · exact congrArg Built.ofMeaning (map_hex lawful hdigits)
  | @escaped letter groups hdialect hletter =>
    refine ⟨.string (String.ofList (hexMarked groups)) .escaped, .cons ?_ .nil, rfl,
      fun context rule lawful => ?_⟩
    · have lead : StringKind.escaped.Lead [letter] := by
        simpa [StringKind.Lead, or_comm] using hletter
      have offered : lexer.dialect.offers .escaped = true := decide_eq_true hdialect
      obtain ⟨c, rest, start, read⟩ :=
        lexer.piece_of_lead offered lead (hexMarked groups ++ ['\''])
      obtain ⟨rfl, rfl⟩ := List.cons.inj start
      rw [StringKind.escapes_escaped, stringPiece_hexMarked _ h] at read
      rw [Piece.textOf_nil, List.append_nil]
      exact read
    · exact congrArg Built.ofMeaning (string_hexMarked lawful hne h _)

end

/-! ### Expressions -/

/-- A literal over one token builds the constant of the token. -/
theorem Build.Context.expression_literal (context : Context) (span : Span) (lexeme : Lexeme) :
    context.expression (.node .literal span [.leaf lexeme]) =
      (context.literal .literal (some lexeme.token)).map
        (Expr.constant (some (context.source.slice span))) := by
  have isExpression : Rule.literal.isExpression = true := rfl
  simp only [expression, isExpression, if_true, Node.build, Node.bare, Node.headToken?, Node.trees,
    parts, List.map_cons, List.head?_cons, Option.bind_some, Tree.token?]
  cases context.literal .literal (some lexeme.token) <;> rfl

/-- The expression of a text with one token, which is a literal. -/
theorem Build.Context.parseExpression_of_literal (context : Context) {token : Token}
    (cuts : context.config.lexer.Cuts [⟨context.source, .token token⟩])
    (literal : isLiteral token) :
    context.parseExpression =
      (context.literal .literal (some token)).map
        (Expr.constant (some (String.ofList context.source))) := by
  let config := context.config
  let source := context.source
  let leaf : Tree := .leaf ⟨token, ⟨0, byteLength source⟩⟩
  let tree : Tree := .ofParts .literal [leaf]
  have lexemes : config.lexer.lexemes source = .ok (tree.terminals ++ [endOf source 0]) :=
    Lexer.lexemes_of_cuts cuts
  have derived : tree.IsDerivation := by
    refine .node rfl (.cons literal .nil) fun child hchild => ?_
    obtain rfl := List.mem_singleton.mp hchild
    exact .leaf
  have free : tree.SubqueryFree :=
    Tree.subqueryFree_node.mpr ⟨Rule.noConfusion,
      fun child hchild => List.mem_singleton.mp hchild ▸ Tree.subqueryFree_leaf _⟩
  have read : readExpression config.dialect config.maxNestingDepth
      (tree.terminals ++ [endOf source 0]) = .ok (tree, [endOf source 0]) :=
    readExpression_of_derivation derived rfl free (Nat.zero_le _) rfl
  have covers : source.slice ⟨0, byteLength source⟩ = String.ofList source := by
    simpa using (Source.HasAt.whole source).slice
  have parsed : config.expressionTree source = .ok tree :=
    mapError_eq_ok.mpr
      (bind_eq_ok.mpr ⟨_, lexemes, bind_eq_ok.mpr ⟨_, read, pure_eq_ok.mpr rfl⟩⟩)
  have spans : Tree.cover [leaf] = ⟨0, byteLength source⟩ := by
    simp [Tree.cover, leaf, Tree.span, Span.join]
  change (context.config.expressionTree context.source).bind context.expression = _
  rw [parsed, ← covers, ← spans]
  exact context.expression_literal _ _

/-! ### What the spellings stand for -/

section

variable {digits : List Char} {groups : List (List Char)} {source : List Char}

theorem Dialect.WritesHex.areHexGroups {dialect : Dialect} (h : AreHexDigits digits)
    (writes : dialect.WritesHex digits groups source) : AreHexGroups groups :=
  fun group hgroup => ⟨writes.filled group hgroup, fun c hc =>
    h c (writes.digits ▸ List.mem_flatten_of_mem hgroup hc)⟩

theorem Dialect.WritesHex.ne_nil {dialect : Dialect} (hne : digits ≠ [])
    (writes : dialect.WritesHex digits groups source) : groups ≠ [] := by
  rintro rfl
  exact hne writes.digits.symm

/-- A spelling is one token. -/
theorem Lexer.tokenize_of_writesHex (lexer : Lexer) (hne : digits ≠ []) (h : AreHexDigits digits)
    (writes : lexer.dialect.WritesHex digits groups source) :
    let stop := byteLength source
    ∃ token, tokenize lexer source = .ok [⟨token, ⟨0, stop⟩⟩, ⟨.eof, ⟨stop, stop⟩⟩] := by
  intro stop
  obtain ⟨token, cuts, -⟩ :=
    lexer.cuts_of_spellsHex (writes.ne_nil hne) (writes.areHexGroups h) writes.spells
  refine ⟨token, ?_⟩
  rw [tokenize, mapError_eq_ok, lexemes_of_cuts cuts, endOf, Nat.zero_add]

/-- A spelling is read as what its groups stand for. -/
theorem Build.Context.parseExpression_of_writesHex {context : Context}
    (lawful : context.hexDigits.Lawful) (hne : digits ≠ []) (h : AreHexDigits digits)
    (writes : context.config.dialect.WritesHex digits groups context.source) :
    context.parseExpression =
      (Built.ofMeaning (hexConstant groups)).map
        (Expr.constant (some (String.ofList context.source))) := by
  obtain ⟨token, cuts, stands⟩ :=
    context.config.lexer.cuts_of_spellsHex (writes.ne_nil hne) (writes.areHexGroups h)
      writes.spells
  rw [context.parseExpression_of_literal cuts stands.isLiteral, stands.literal _ _ lawful]

end

/-- **The spellings of bytes by hexadecimal digits agree, and they lose no byte.** Take digits that
are hexadecimal, in any mix of cases, but at least one. Whatever the dialect is, and whatever its
rule on backslashes is, each way it has to spell them is one token.
- An even number of digits stands for bytes which, written out in lower case, are the digits again
  in lower case. Every spelling is read as the constant of these bytes, as long as no group of an
  escaped string ends inside a pair of digits. Any decoder that keeps its promises about pairs of
  digits may be used.
- Where a group ends inside a pair, and so wherever the number of digits is odd, the text is refused
  for the first such group. -/
theorem hexSpellings_agree {digits : List Char} (hne : digits ≠ []) (h : AreHexDigits digits) :
    (∀ (config : Config) groups source, config.dialect.WritesHex digits groups source →
      let stop := byteLength source
      ∃ token, tokenize config.lexer source =
        .ok [⟨token, ⟨0, stop⟩⟩, ⟨.eof, ⟨stop, stop⟩⟩]) ∧
      (digits.length % 2 = 0 → ∃ bytes : List UInt8,
        bytes.flatMap byteDigits = digits.map Char.toLower ∧
          ∀ (context : Build.Context) groups, context.hexDigits.Lawful →
            context.config.dialect.WritesHex digits groups context.source →
            (∀ group ∈ groups, group.length % 2 = 0) →
            context.parseExpression =
              .ok (.constant (some (String.ofList context.source)) (.binary bytes))) ∧
      ∀ (context : Build.Context) groups, context.hexDigits.Lawful →
        context.config.dialect.WritesHex digits groups context.source →
        (digits.length % 2 = 1 ∨ ∃ group ∈ groups, group.length % 2 = 1) →
        ∃ group, oddGroup? groups = some group ∧
          context.parseExpression = .error (.semantic (.oddHexDigits (String.ofList group))) := by
  refine ⟨fun config groups source writes => ?_, fun heven => ?_,
    fun context groups lawful writes hodd => ?_⟩
  · exact config.lexer.tokenize_of_writesHex hne h writes
  · refine ⟨pairBytes digits, flatMap_byteDigits_pairBytes h heven,
      fun context groups lawful writes whole => ?_⟩
    rw [Build.Context.parseExpression_of_writesHex lawful hne h writes, hexConstant,
      oddGroup?_eq_none_iff.mpr whole, writes.digits]
    rfl
  · obtain ⟨group, first⟩ : ∃ group, oddGroup? groups = some group := by
      refine Option.ne_none_iff_exists'.mp fun none => ?_
      have whole := oddGroup?_eq_none_iff.mp none
      rcases hodd with hodd | ⟨group, hgroup, hodd⟩
      · have := length_flatten_of_even whole
        rw [writes.digits] at this
        omega
      · have := whole group hgroup
        omega
    refine ⟨group, first, ?_⟩
    rw [Build.Context.parseExpression_of_writesHex lawful hne h writes, hexConstant, first]
    rfl

/-- Four digits are the same bytes as a number and as an escaped string with two groups; in two
groups that end inside a pair they are refused for the first one. -/
theorem hexSpellings_agree_of_groups :
    let digits := ['4', 'a', 'B', '0']
    let whole := ['0', 'x', '4', 'a', 'B', '0']
    let halves := ['E', '\'', '\\', 'x', '4', 'a', '\\', 'x', 'B', '0', '\'']
    let parts := ['e', '\'', '\\', 'x', '4', '\\', 'x', 'a', 'B', '0', '\'']
    digits ≠ [] ∧ AreHexDigits digits ∧
      (∃ bytes : List UInt8, bytes.flatMap byteDigits = ['4', 'a', 'b', '0'] ∧
        (Config.ofDialect .mysql).parseExpression whole =
          .ok (.constant (some (String.ofList whole)) (.binary bytes)) ∧
        (Config.ofDialect .postgres).parseExpression halves =
          .ok (.constant (some (String.ofList halves)) (.binary bytes))) ∧
      (Config.ofDialect .postgres).parseExpression parts =
        .error (.semantic (.oddHexDigits "4")) := by
  intro digits whole halves parts
  have hne : digits ≠ [] := List.cons_ne_nil _ _
  have h : AreHexDigits digits := by simp [AreHexDigits, digits, isHexDigit]
  have number : Dialect.mysql.WritesHex digits [digits] whole :=
    ⟨rfl, by simp [digits], .number (.inr rfl) (.inl rfl)⟩
  have even : Dialect.postgres.WritesHex digits [['4', 'a'], ['B', '0']] halves :=
    ⟨rfl, by simp, .escaped rfl (.inr rfl)⟩
  have odd : Dialect.postgres.WritesHex digits [['4'], ['a', 'B', '0']] parts :=
    ⟨rfl, by simp, .escaped rfl (.inl rfl)⟩
  obtain ⟨-, agree, refused⟩ := hexSpellings_agree hne h
  obtain ⟨bytes, written, read⟩ := agree (by simp [digits])
  have lawful := HexDecoder.pairwise_lawful
  obtain ⟨group, first, complaint⟩ := refused
    { config := Config.ofDialect .postgres, source := parts } _ lawful odd
    (.inr ⟨['4'], by simp, rfl⟩)
  obtain rfl : ['4'] = group := Option.some.inj first
  exact ⟨hne, h, ⟨bytes, written,
    read { config := Config.ofDialect .mysql, source := whole } _ lawful number (by simp [digits]),
    read { config := Config.ofDialect .postgres, source := halves } _ lawful even (by simp)⟩,
    complaint⟩

end SqlFront
