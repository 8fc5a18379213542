import SqlFront.Literal.Text
import SqlFront.Parse
import SqlFront.Proofs.Cutting
import SqlFront.Proofs.Spelling

/-!
Any text can be written as a string and is read back.

A text is written between quotes with every quote in it doubled, and with every backslash doubled
where backslashes escape. Two readers go over what is written so: the lexer, which looks for the
quote that ends the string, and the decoder, which takes the doubling back. They agree on every
text and every kind of string, as neither ever sees one character of a pair without the other.
-/

namespace SqlFront

/-- The kinds of strings that a dialect has. -/
def Dialect.offers (dialect : Dialect) : StringKind → Bool
  | .single => true
  | .double => dialect = .mysql
  | .national => dialect = .mssql
  | .escaped => dialect = .postgres

/-- Backslashes escape in strings of this kind, under a rule for the ordinary ones. -/
def StringKind.escapes (kind : StringKind) (backslashEscapes : Bool) : Bool :=
  backslashEscapes || kind = .escaped

theorem StringKind.escapes_escaped (backslashEscapes : Bool) :
    StringKind.escaped.escapes backslashEscapes = true :=
  Bool.or_true _

/-- A character as it is written between quotes. -/
def quotedChar (quote : Char) (escapes : Bool) (c : Char) : List Char :=
  if c = quote || (escapes && c = '\\') then [c, c] else [c]

/-- A text as it is written between quotes. -/
def quotedBody (quote : Char) (escapes : Bool) (text : List Char) : List Char :=
  text.flatMap (quotedChar quote escapes)

/-- A text as a string, the letter of its kind in front. -/
def quotedText (kind : StringKind) (lead : List Char) (body : List Char) : List Char :=
  lead ++ kind.quote :: (body ++ [kind.quote])

theorem StringKind.quote_ne_backslash (kind : StringKind) : kind.quote ≠ '\\' := by
  cases kind <;> decide

/-! ### What stands between the quotes -/

section Body

variable {quote : Char} {escapes : Bool}

/-- The three ways in which a character is written: as a pair of quotes, as a pair of backslashes,
or as itself. -/
theorem quotedChar_cases (quote : Char) (escapes : Bool) (c : Char) :
    (c = quote ∧ quotedChar quote escapes c = [quote, quote]) ∨
      (escapes = true ∧ c = '\\' ∧ quotedChar quote escapes c = ['\\', '\\']) ∨
      (c ≠ quote ∧ (escapes && decide (c = '\\')) = false ∧ quotedChar quote escapes c = [c]) := by
  unfold quotedChar
  by_cases hquote : c = quote
  · exact .inl ⟨hquote, by simp [hquote]⟩
  · by_cases hescape : (escapes && decide (c = '\\')) = true
    · obtain ⟨hescapes, hc⟩ := Bool.and_eq_true_iff.mp hescape
      obtain rfl := of_decide_eq_true hc
      exact .inr (.inl ⟨hescapes, rfl, by simp [hescapes]⟩)
    · have hplain := Bool.eq_false_iff.mpr hescape
      exact .inr (.inr ⟨hquote, hplain, by simp [hquote, hplain]⟩)

theorem quotedBody_cons (c : Char) (text : List Char) :
    quotedBody quote escapes (c :: text) =
      quotedChar quote escapes c ++ quotedBody quote escapes text :=
  List.flatMap_cons

/-- The lexer takes a text that is written between quotes for the whole body, up to the quote that
ends it. -/
theorem stringBody_quotedBody (hquote : quote ≠ '\\') (text : List Char) :
    stringBody quote escapes (quotedBody quote escapes text ++ [quote]) =
      some (quotedBody quote escapes text) := by
  induction text with
  | nil => simp [quotedBody, stringBody, hquote]
  | cons c text ih =>
    rw [quotedBody_cons]
    obtain ⟨rfl, hc⟩ | ⟨rfl, rfl, hc⟩ | ⟨hne, hplain, hc⟩ := quotedChar_cases quote escapes c
    · simp [hc, stringBody, hquote, ih]
    · simp [hc, stringBody, ih]
    · rw [hc, List.singleton_append, List.cons_append, stringBody.eq_def]
      simp [hplain, hne, ih]

/-- The decoder takes the doubling back. -/
theorem unescape_quotedBody (hquote : quote ≠ '\\') (text : List Char) :
    Literal.unescape quote escapes (quotedBody quote escapes text) = text := by
  induction text with
  | nil => rfl
  | cons c text ih =>
    rw [quotedBody_cons]
    obtain ⟨rfl, hc⟩ | ⟨rfl, rfl, hc⟩ | ⟨hne, hplain, hc⟩ := quotedChar_cases quote escapes c
    · simp [hc, Literal.unescape, ih]
    · simp [hc, Literal.unescape, Literal.escapedChar, hquote.symm, ih]
    · rw [Bool.and_comm] at hplain
      rw [hc, List.singleton_append, Literal.unescape.eq_def]
      simp [hplain, hne, ih]

/-- A text with nothing in front of its first hexadecimal mark starts with that mark. -/
theorem starts_with_mark {body group : List Char} {groups : List (List Char)}
    (h : Literal.splitHexMarks body = [] :: group :: groups) :
    ∃ rest, body = '\\' :: 'x' :: rest := by
  fun_cases Literal.splitHexMarks body with
  | case1 => cases h
  | case2 c hmark => simp at hmark
  | case3 c d rest hmark =>
    simp only [List.head?_cons, Option.some.injEq, Bool.and_eq_true, decide_eq_true_eq] at hmark
    obtain ⟨rfl, rfl⟩ := hmark
    exact ⟨rest, rfl⟩
  | case4 c cs hmark hrest =>
    rw [Literal.splitHexMarks.eq_def] at h
    simp [hmark, hrest] at h
  | case5 c cs hmark part parts hrest =>
    rw [Literal.splitHexMarks.eq_def] at h
    simp [hmark, hrest] at h

/-- Where backslashes are doubled nothing is taken for bytes: a backslash at the front is followed
by another one. -/
theorem hexGroups?_quotedBody (hquote : quote ≠ '\\') (text : List Char) :
    Literal.hexGroups? (quotedBody quote true text) = none := by
  have unmarked (rest : List Char) : quotedBody quote true text ≠ '\\' :: 'x' :: rest := by
    intro heq
    cases text with
    | nil => cases heq
    | cons c text =>
      rw [quotedBody_cons] at heq
      obtain ⟨rfl, hc⟩ | ⟨-, rfl, hc⟩ | ⟨-, hplain, hc⟩ := quotedChar_cases quote true c
      · rw [hc] at heq
        exact hquote (List.cons.inj heq).1
      · rw [hc] at heq
        exact absurd (List.cons.inj (List.cons.inj heq).2).1 (by decide)
      · rw [hc] at heq
        rw [(List.cons.inj heq).1] at hplain
        cases hplain
  unfold Literal.hexGroups?
  split
  · rename_i group groups hsplit
    obtain ⟨rest, hrest⟩ := starts_with_mark hsplit
    exact absurd hrest (unmarked rest)
  · rfl

end Body

/-! ### Strings -/

/-- The body of a string that is written so stands for the text, and never for bytes. -/
theorem string_quotedBody (decoder : Literal.HexDecoder) (kind : StringKind)
    (backslashEscapes : Bool) (text : List Char) :
    Literal.stringBy decoder
      (String.ofList (quotedBody kind.quote (kind.escapes backslashEscapes) text)) kind
      backslashEscapes = .ok (.string (String.ofList text)) := by
  have decoded : Literal.unescape kind.quote (kind.escapes backslashEscapes)
      (quotedBody kind.quote (kind.escapes backslashEscapes) text) = text :=
    unescape_quotedBody kind.quote_ne_backslash text
  unfold Literal.stringBy
  rw [String.toList_ofList]
  split
  · rename_i groups hgroups
    rw [StringKind.escapes_escaped, hexGroups?_quotedBody StringKind.escaped.quote_ne_backslash]
      at hgroups
    cases hgroups
  · exact congrArg (fun text => Except.ok (Constant.string (String.ofList text))) decoded

namespace Lexer

variable (lexer : Lexer)

/-- Where a dialect has a kind of strings, its letter and its quote at the start of a text start
a string of that kind. -/
theorem piece_of_lead {kind : StringKind} (offered : lexer.dialect.offers kind = true)
    {lead : List Char} (hlead : kind.Lead lead) (tail : List Char) :
    ∃ c rest, lead ++ kind.quote :: tail = c :: rest ∧
      lexer.piece c rest =
        stringPiece lead kind (kind.escapes lexer.backslashEscapes) tail := by
  cases kind with
  | single =>
    obtain rfl := hlead
    refine ⟨'\'', tail, rfl, ?_⟩
    simp [Lexer.piece, gap?, isBlank, tokenPiece, StringKind.escapes]
  | double =>
    obtain rfl := hlead
    have hdialect : lexer.dialect = .mysql := of_decide_eq_true offered
    refine ⟨'"', tail, rfl, ?_⟩
    simp [Lexer.piece, gap?, isBlank, tokenPiece, StringKind.escapes, hdialect,
      Dialect.doubleQuotedStrings]
  | national =>
    have hdialect : lexer.dialect = .mssql := of_decide_eq_true offered
    obtain rfl | rfl := hlead
    all_goals
      refine ⟨_, _, rfl, ?_⟩
      simp [Lexer.piece, gap?, isBlank, tokenPiece, StringKind.escapes, StringKind.quote, hdialect,
        Dialect.nationalStrings]
  | escaped =>
    have hdialect : lexer.dialect = .postgres := of_decide_eq_true offered
    obtain rfl | rfl := hlead
    all_goals
      refine ⟨_, _, rfl, ?_⟩
      simp [Lexer.piece, gap?, isBlank, tokenPiece, StringKind.escapes, StringKind.quote, hdialect,
        Dialect.escapeStrings]

/-- A string that is written so is one piece, and all of its text. -/
theorem cuts_quotedText {kind : StringKind} (offered : lexer.dialect.offers kind = true)
    {lead : List Char} (hlead : kind.Lead lead) (text : List Char) :
    let body := quotedBody kind.quote (kind.escapes lexer.backslashEscapes) text
    lexer.Cuts [⟨quotedText kind lead body, .token (.string (String.ofList body) kind)⟩] := by
  intro body
  obtain ⟨c, rest, hstart, hpiece⟩ := lexer.piece_of_lead offered hlead (body ++ [kind.quote])
  have hwhole : quotedText kind lead body = c :: rest := hstart
  rw [stringPiece, stringBody_quotedBody kind.quote_ne_backslash] at hpiece
  rw [hwhole]
  refine .cons ?_ .nil
  rw [Piece.textOf_nil, List.append_nil, hpiece, ← hwhole, quotedText]
  simp [body]

end Lexer

/-- **Every text comes back from a string.** Whatever kind of string a dialect has and whatever its
rule for backslashes is, the text between quotes, with its quotes doubled, and its backslashes
where they escape, is one string token of that kind, with that body and the end of the text behind
it. The body stands for the text again. -/
theorem quotedText_roundTrip (lexer : Lexer) (decoder : Literal.HexDecoder) {kind : StringKind}
    (offered : lexer.dialect.offers kind = true) {lead : List Char} (hlead : kind.Lead lead)
    (text : String) :
    let body := quotedBody kind.quote (kind.escapes lexer.backslashEscapes) text.toList
    let source := quotedText kind lead body
    let stop := byteLength source
    tokenize lexer source =
        .ok [⟨.string (String.ofList body) kind, ⟨0, stop⟩⟩, ⟨.eof, ⟨stop, stop⟩⟩] ∧
      Literal.stringBy decoder (String.ofList body) kind lexer.backslashEscapes =
        .ok (.string text) := by
  intro body source stop
  constructor
  · have cut := lexer.cuts_quotedText offered hlead text.toList
    have lexemes := Lexer.lexemes_eq_ok.mpr ⟨_, cut, rfl, rfl⟩
    rw [tokenize, mapError_eq_ok]
    simpa [Piece.textOf, Piece.lexemesOf, Piece.lexeme?, endOf, source, stop] using lexemes
  · have decoded := string_quotedBody decoder kind lexer.backslashEscapes text.toList
    rwa [String.ofList_toList] at decoded

/-- A text that looks like bytes, with a quote and a backslash at its end, comes back from a string
of the kind that could stand for bytes. -/
theorem quotedText_roundTrip_of_hex :
    let lexer := Lexer.ofDialect .postgres
    let text := "\\x42'\\"
    let body := quotedBody '\'' true text.toList
    tokenize lexer (quotedText .escaped ['E'] body) =
        .ok [⟨.string (String.ofList body) .escaped, ⟨0, 12⟩⟩, ⟨.eof, ⟨12, 12⟩⟩] ∧
      Literal.stringBy .pairwise (String.ofList body) .escaped false = .ok (.string text) :=
  have lead : StringKind.escaped.Lead ['E'] := .inl rfl
  quotedText_roundTrip (Lexer.ofDialect .postgres) .pairwise rfl lead "\\x42'\\"

end SqlFront
