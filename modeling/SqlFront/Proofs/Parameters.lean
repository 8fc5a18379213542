import SqlFront.Proofs.StatementLabels
import SqlFront.Proofs.Tiling

/-!
The parameters of a batch: each question mark of the text has a number, and the queries have the
parameters that the text has.

A question mark is found in the text by what the lexer leaves there as a token of its own. All
others stand in comments, in strings and in quoted names.
-/

namespace SqlFront

open Piece

/-- The token is a string or a name between delimiters: what stands in it is no token. -/
def Token.isQuoted : Token → Bool
  | .string _ _ | .quotedName _ => true
  | _ => false

/-- The tokens that are a question mark and nothing else. -/
def Source.questionMarks (source : Source) (lexemes : List Lexeme) : List Lexeme :=
  lexemes.filter fun lexeme => source.slice lexeme.span = "?"

/-! ### Question marks in pieces -/

section Scanners

variable {rest : List Char} {piece : Piece}

theorem isQuoted_of_stringPiece {lead : List Char} {kind : StringKind} {escapes : Bool}
    (h : stringPiece lead kind escapes rest = .ok piece) :
    ∃ token, piece.kind = .token token ∧ token.isQuoted := by
  unfold stringPiece at h
  split at h
  · cases h
    exact ⟨_, rfl, rfl⟩
  · cases h

theorem isQuoted_of_quotedNamePiece {first close : Char}
    (h : quotedNamePiece first close rest = .ok piece) :
    ∃ token, piece.kind = .token token ∧ token.isQuoted := by
  unfold quotedNamePiece at h
  split at h
  · cases h
  · cases h
    exact ⟨_, rfl, rfl⟩
  · cases h

/-- What is taken as long as a test holds has no question mark if the test does not hold of it. -/
theorem question_not_mem_takeWhile {test : Char → Bool} (h : test '?' = false)
    (input : List Char) : '?' ∉ input.takeWhile test := by
  intro hmem
  rw [List.mem_takeWhile_imp hmem] at h
  cases h

theorem question_not_mem_hexStringPiece {letter : Char} (hletter : letter = 'x' ∨ letter = 'X')
    (h : hexStringPiece letter rest = .ok piece) : '?' ∉ piece.text := by
  have hdigits : '?' ∉ rest.takeWhile isHexDigit := question_not_mem_takeWhile rfl rest
  simp only [hexStringPiece] at h
  split at h
  · cases h
  · split at h
    · cases h
      rcases hletter with rfl | rfl <;> simpa using hdigits
    · cases h

theorem question_not_mem_hexNumberPiece {letter : Char} (hletter : letter = 'x' ∨ letter = 'X')
    (h : hexNumberPiece '0' letter rest = .ok piece) : '?' ∉ piece.text := by
  have hdigits : '?' ∉ rest.takeWhile isHexDigit := question_not_mem_takeWhile rfl rest
  simp only [hexNumberPiece] at h
  split at h
  · cases h
  · cases h
    rcases hletter with rfl | rfl <;> simpa using hdigits

theorem question_not_mem_fractionText (input : List Char) : '?' ∉ fractionText input := by
  unfold fractionText
  split
  · simpa using question_not_mem_takeWhile rfl _
  · simp

theorem question_not_mem_signText (input : List Char) : '?' ∉ signText input := by
  unfold signText
  split <;> simp

theorem question_not_mem_exponentText {input text : List Char}
    (h : exponentText input = some text) : '?' ∉ text := by
  cases input with
  | nil =>
    cases h
    simp
  | cons c cs =>
    have hdigits : '?' ∉ (cs.drop (signText cs).length).takeWhile Char.isDigit :=
      question_not_mem_takeWhile rfl _
    have hsign := question_not_mem_signText cs
    simp only [exponentText] at h
    split at h
    · rename_i hletter
      split at h
      · cases h
      · cases h
        have hne : '?' ≠ c := by
          rintro rfl
          cases hletter
        simp [hne, hsign, hdigits]
    · cases h
      simp

theorem question_not_mem_numberPiece (h : numberPiece rest = .ok piece) : '?' ∉ piece.text := by
  have hwhole : '?' ∉ rest.takeWhile Char.isDigit := question_not_mem_takeWhile rfl rest
  simp only [numberPiece] at h
  split at h
  · rename_i exponent hexponent
    cases h
    simp only [List.mem_append, not_or]
    exact ⟨⟨hwhole, question_not_mem_fractionText _⟩, question_not_mem_exponentText hexponent⟩
  · cases h

theorem question_not_mem_placeholderPiece {mark : Char} {inLabel : Char → Bool}
    {missing : SyntaxCause} (hmark : mark ≠ '?') (hlabel : inLabel '?' = false)
    (h : placeholderPiece mark inLabel missing rest = .ok piece) : '?' ∉ piece.text := by
  have hrest := question_not_mem_takeWhile hlabel rest
  simp only [placeholderPiece] at h
  split at h
  · cases h
  · cases h
    simp [hmark.symm, hrest]

theorem question_not_mem_wordPiece (input : List Char) : '?' ∉ (wordPiece input).text := by
  have htext : '?' ∉ input.takeWhile isNameChar := question_not_mem_takeWhile rfl input
  simp only [wordPiece]
  split
  · exact htext
  · exact htext

theorem question_not_mem_symbolPiece {c : Char} (h : symbolPiece c rest = .ok piece) :
    '?' ∉ piece.text := by
  unfold symbolPiece at h
  split at h
  · rename_i text symbol hpair
    obtain ⟨d, -, hmap⟩ := Option.bind_eq_some_iff.mp hpair
    obtain ⟨found, hfound, heq⟩ := Option.map_eq_some_iff.mp hmap
    cases heq
    cases h
    unfold symbolOfPair? at hfound
    split at hfound <;> simp_all
  · split at h
    · rename_i symbol hsymbol
      cases h
      intro hmem
      obtain rfl := List.mem_singleton.mp hmem
      cases hsymbol
    · cases h

/-- **A question mark in a piece is all of it**, or the piece is quoted. -/
theorem Scanned.question {input : List Char} (h : Scanned input piece) (hmem : '?' ∈ piece.text) :
    piece.text = ['?'] ∨ ∃ token, piece.kind = .token token ∧ token.isQuoted := by
  cases h with
  | string _ h => exact .inr (isQuoted_of_stringPiece h)
  | quotedName h => exact .inr (isQuoted_of_quotedNamePiece h)
  | hexString hletter h => exact absurd hmem (question_not_mem_hexStringPiece hletter h)
  | hexNumber hletter h => exact absurd hmem (question_not_mem_hexNumberPiece hletter h)
  | number _ h => exact absurd hmem (question_not_mem_numberPiece h)
  | parameter => exact .inl rfl
  | labelled hmark h =>
    rcases hmark with ⟨rfl, rfl⟩ | ⟨rfl, rfl⟩
    · exact absurd hmem (question_not_mem_placeholderPiece (by decide) rfl h)
    · exact absurd hmem (question_not_mem_placeholderPiece (by decide) rfl h)
  | word => exact absurd hmem (question_not_mem_wordPiece _)
  | symbol h => exact absurd hmem (question_not_mem_symbolPiece h)

end Scanners

/-- No token but a parameter is a question mark and nothing else. -/
theorem Lexer.kind_eq_parameter_iff {lexer : Lexer} {c : Char} {text rest : List Char}
    {kind : PieceKind} (h : lexer.piece c rest = .ok ⟨c :: text, kind⟩) :
    kind = .parameter ↔ c :: text = ['?'] := by
  constructor
  · rintro rfl
    rcases lexer.piece_spelled h with hgap | hspelled
    · cases hgap
    · cases hspelled
      rfl
  · intro htext
    obtain ⟨rfl, rfl⟩ := List.cons.inj htext
    rw [lexer.piece_question] at h
    cases h
    rfl

/-! ### Numbers of question marks -/

namespace Source

theorem questionMarks_append (source : Source) (left right : List Lexeme) :
    source.questionMarks (left ++ right) =
      source.questionMarks left ++ source.questionMarks right :=
  List.filter_append _ _

theorem slice_empty (source : Source) (stop : Nat) : source.slice ⟨stop, stop⟩ = "" := by
  simp only [slice, Nat.le_refl, if_true, Nat.sub_self, takeBytes]
  split <;> rfl

/-- The end of a text is no question mark. -/
theorem questionMarks_eof (source : Source) (stop : Nat) :
    source.questionMarks [⟨.eof, ⟨stop, stop⟩⟩] = [] := by
  simp [questionMarks, slice_empty]

end Source

/-- The number of a piece, if it has one, is the next after those before it. -/
theorem Piece.numbered {source : Source} {offset : Nat} {piece : Piece} (parameters : Nat)
    (hkind : piece.kind = .parameter ↔ piece.text = ['?'])
    (hslice : source.slice ⟨offset, offset + byteLength piece.text⟩ = String.ofList piece.text) :
    (source.questionMarks (piece.lexeme? parameters offset).toList).map Lexeme.token =
      (List.range' (parameters + 1) (parametersOf [piece])).map fun number =>
        .placeholder ("?" ++ toString number) := by
  obtain ⟨text, kind⟩ := piece
  cases kind with
  | gap => rfl
  | token token =>
    have hne : source.slice ⟨offset, offset + byteLength text⟩ ≠ "?" := by
      intro heq
      rw [hslice] at heq
      have htext : text = ['?'] := by simpa using congrArg String.toList heq
      cases hkind.mpr htext
    simp [lexeme?, parametersOf, Source.questionMarks, hne]
  | parameter =>
    obtain rfl : text = ['?'] := hkind.mp rfl
    simp [lexeme?, parametersOf, Source.questionMarks, hslice]

namespace Lexer

variable {lexer : Lexer} {pieces : List Piece} {source : Source} {lexemes : List Lexeme}

/-- **The question marks among some pieces are numbered one after the other.** -/
theorem Cuts.numbered {offset : Nat} (h : lexer.Cuts pieces)
    (hsource : source.HasAt offset (textOf pieces)) (parameters : Nat) :
    (source.questionMarks (lexemesOf parameters offset pieces)).map Lexeme.token =
      (List.range' (parameters + 1) (parametersOf pieces)).map fun number =>
        .placeholder ("?" ++ toString number) := by
  induction h generalizing parameters offset with
  | nil => rfl
  | @cons c text kind pieces hpiece hrest ih =>
    have hfirst := Piece.numbered parameters (kind_eq_parameter_iff hpiece)
      hsource.left.slice
    rw [lexemesOf, Source.questionMarks_append, List.map_append, hfirst, ih hsource.right,
      ← List.map_append, Nat.add_right_comm, List.range'_append_1, ← parametersOf_cons]

/-- **Every question mark of a text has its number.** -/
theorem lexemes_numbered (h : lexer.lexemes source = .ok lexemes) {k : Nat} {lexeme : Lexeme}
    (hmark : (source.questionMarks lexemes)[k]? = some lexeme) :
    lexeme.token = .placeholder ("?" ++ toString (k + 1)) := by
  obtain ⟨pieces, hcuts, rfl, rfl⟩ := lexemes_eq_ok.mp h
  have hnumbered := congrArg (·[k]?) (hcuts.numbered (Source.HasAt.whole _) 0)
  rw [endOf, Source.questionMarks_append, Source.questionMarks_eof, List.append_nil] at hmark
  simp only [List.getElem?_map, hmark, Option.map_some] at hnumbered
  obtain ⟨number, hnumber, htoken⟩ := Option.map_eq_some_iff.mp hnumbered.symm
  obtain ⟨_, rfl⟩ := List.getElem?_eq_some_iff.mp hnumber
  rw [← htoken, List.getElem_range', Nat.zero_add, Nat.one_mul, Nat.add_comm]

/-- The question marks of a text stand in it one after the other. -/
theorem questionMarks_apart (h : lexer.lexemes source = .ok lexemes) :
    (source.questionMarks lexemes).Pairwise fun left right =>
      left.span.stop ≤ right.span.start := by
  obtain ⟨tokens, stop, rfl, hspaced⟩ := lexer.lexemes_spaced h
  rw [Source.questionMarks_append, Source.questionMarks_eof, List.append_nil]
  exact hspaced.apart.filter _

/-- A token with a question mark in its text is one, or it is quoted. -/
theorem Cuts.question (h : lexer.Cuts pieces) {lexeme : Lexeme}
    (hmem : lexeme ∈ lexemesOf 0 0 pieces)
    (hquestion : '?' ∈ (Source.slice (textOf pieces) lexeme.span).toList) :
    Source.slice (textOf pieces) lexeme.span = "?" ∨ lexeme.token.isQuoted := by
  obtain ⟨left, right, hsplit⟩ := List.append_of_mem hmem
  obtain ⟨before, piece, after, rfl, -, hlexeme⟩ := exists_piece_of_lexemesOf hsplit
  have hat : Source.HasAt (textOf (before ++ piece :: after)) (byteLength (textOf before))
      piece.text := ⟨textOf before, textOf after, by simp, rfl⟩
  rw [span_of_lexeme? hlexeme, Nat.zero_add, hat.slice] at hquestion ⊢
  rcases h.scanned piece (by simp) with hgap | ⟨input, hscanned⟩
  · rw [lexeme?, hgap] at hlexeme
    cases hlexeme
  · rw [String.toList_ofList] at hquestion
    rcases hscanned.question hquestion with htext | ⟨token, hkind, hquoted⟩
    · exact .inl (by rw [htext])
    · rw [lexeme?, hkind] at hlexeme
      cases hlexeme
      exact .inr hquoted

theorem question_of_lexemes (h : lexer.lexemes source = .ok lexemes) :
    ∀ lexeme ∈ lexemes, '?' ∈ (source.slice lexeme.span).toList →
      lexeme ∈ source.questionMarks lexemes ∨ lexeme.token.isQuoted := by
  intro lexeme hmem hquestion
  obtain ⟨pieces, hcuts, rfl, rfl⟩ := lexemes_eq_ok.mp h
  rcases List.mem_append.mp hmem with htoken | hend
  · refine (hcuts.question htoken hquestion).imp_left fun htext => ?_
    exact List.mem_filter.mpr ⟨hmem, decide_eq_true htext⟩
  · obtain rfl := List.mem_singleton.mp hend
    rw [endOf, Source.slice_empty] at hquestion
    cases hquestion

end Lexer

/-! ### Parameters of a batch -/

open Grammar

/-- **No parameter is lost, invented or renumbered** in a batch of statements that read or change
rows. The question marks of the text that are tokens by themselves are numbered in the order in
which they stand there; all others are in quoted tokens or between the tokens. The labels of the
parameters in the queries are those of the placeholders in the text. -/
theorem Config.parseBatch_parameters {config : Config} {source : Source} {queries : List Query}
    (h : config.parseBatch source = .ok queries) (hrows : ∀ query ∈ queries, query.handlesRows) :
    ∃ lexemes, tokenize config.lexer source = .ok lexemes ∧
      (∀ lexeme ∈ lexemes, '?' ∈ (source.slice lexeme.span).toList →
        lexeme ∈ source.questionMarks lexemes ∨ lexeme.token.isQuoted) ∧
      ((source.questionMarks lexemes).Pairwise fun left right =>
        left.span.stop ≤ right.span.start) ∧
      (∀ (k : Nat) (lexeme : Lexeme), (source.questionMarks lexemes)[k]? = some lexeme →
        lexeme.token = .placeholder ("?" ++ toString (k + 1))) ∧
      ∀ label, (∃ query ∈ queries, label ∈ query.labels) ↔
        ∃ lexeme ∈ lexemes, lexeme.token = .placeholder label := by
  obtain ⟨tree, htree, hbuilt⟩ := bind_eq_ok.mp h
  obtain ⟨lexemes, parts, rest, hlexemes, hread, rfl⟩ := parseTree_eq_ok htree
  obtain ⟨stop, hterminals, -⟩ := lexemes_of_readForm hlexemes hread
  have htokens : tokenize config.lexer source = .ok lexemes := mapError_eq_ok.mpr hlexemes
  have hlabels : Tree.labelsOf parts = labelsOfLexemes lexemes := by
    rw [hterminals, labelsOfLexemes_append, Tree.labelsOf_eq]
    exact (List.append_nil _).symm
  have hsame := sameLabels_of_readForm { config, source } hread (mapError_eq_ok.mp hbuilt) hrows
  refine ⟨lexemes, htokens, Lexer.question_of_lexemes hlexemes,
    Lexer.questionMarks_apart hlexemes, fun k lexeme => Lexer.lexemes_numbered hlexemes, ?_⟩
  intro label
  rw [← List.mem_flatMap, hsame label, hlabels, mem_labelsOfLexemes]

/-- The question mark in the string is no parameter. The subject of `BETWEEN` is one, and no less so
for being repeated. -/
theorem Config.parseBatch_parameters_of_between :
    let config := Config.ofDialect .mysql
    let source : Source := ['D', 'E', 'L', 'E', 'T', 'E', ' ', 't', ' ', 'W', 'H', 'E', 'R', 'E',
      ' ', '?', ' ', 'B', 'E', 'T', 'W', 'E', 'E', 'N', ' ', '\'', '?', '\'', ' ', 'A', 'N', 'D',
      ' ', '?']
    ∃ queries, config.parseBatch source = .ok queries ∧
      (∀ query ∈ queries, query.handlesRows) ∧
      ∀ label, (∃ query ∈ queries, label ∈ query.labels) ↔ label = "?1" ∨ label = "?2" := by
  intro config source
  suffices found : ∀ queries, config.parseBatch source = .ok queries →
      (∀ query ∈ queries, query.handlesRows) →
      ∀ label, (∃ query ∈ queries, label ∈ query.labels) ↔ label = "?1" ∨ label = "?2" by
    have rows : ∀ query : DeleteQuery, ∀ other ∈ [Query.delete query], other.handlesRows := by
      simp [Query.handlesRows]
    exact ⟨_, rfl, rows _, found _ rfl (rows _)⟩
  intro queries parsed rows label
  obtain ⟨lexemes, tokens, -, -, -, labels⟩ := parseBatch_parameters parsed rows
  have read : (tokenize config.lexer source).map labelsOfLexemes = .ok ["?1", "?2"] := by rfl
  rw [tokens] at read
  rw [labels label, ← mem_labelsOfLexemes, Except.ok.inj read]
  simp

end SqlFront
