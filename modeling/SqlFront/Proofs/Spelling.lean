import SqlFront.Proofs.Outcome
import SqlFront.Token.Lexer

/-!
How tokens are written.

`Token.Spelled` says which texts stand for a token, and that what the token keeps is a part of its
text. Every piece that the lexer makes of a token is such a text.
-/

namespace SqlFront

/-- The letter before a string of this kind. -/
def StringKind.Lead : StringKind → List Char → Prop
  | single, lead | double, lead => lead = []
  | national, lead => lead = ['N'] ∨ lead = ['n']
  | escaped, lead => lead = ['E'] ∨ lead = ['e']

theorem StringKind.lead_single : StringKind.single.Lead [] := rfl

theorem StringKind.lead_double : StringKind.double.Lead [] := rfl

/-- A quoted name between its delimiters: the closing one stands for itself where it is doubled. -/
def doubled (close : Char) (name : List Char) : List Char :=
  name.flatMap fun c => if c = close then [c, c] else [c]

/-- The texts that stand for a token. -/
inductive Token.Spelled : Token → List Char → Prop where
  | keyword {word : Keyword} {text : List Char} :
      sameWord word.word (String.ofList text) → Spelled (.keyword word) text
  | name {text : List Char} : Spelled (.name (String.ofList text)) text
  | quotedName {first close : Char} {name : List Char} : name ≠ [] →
      Spelled (.quotedName (String.ofList name)) (first :: (doubled close name ++ [close]))
  | number {text : List Char} : Spelled (.number (String.ofList text)) text
  | hexNumber {letter : Char} {digits : List Char} : letter = 'x' ∨ letter = 'X' →
      Spelled (.hexNumber (String.ofList digits)) ('0' :: letter :: digits)
  | hexString {letter : Char} {digits : List Char} : letter = 'x' ∨ letter = 'X' →
      Spelled (.hexString (String.ofList digits)) (letter :: '\'' :: (digits ++ ['\'']))
  | string {kind : StringKind} {lead body : List Char} : kind.Lead lead →
      Spelled (.string (String.ofList body) kind) (lead ++ kind.quote :: (body ++ [kind.quote]))
  | symbol {symbol : Symbol} : Spelled (.symbol symbol) symbol.text.toList
  | otherNotEqual : Spelled (.symbol .notEqual) ['!', '=']
  | labelled {mark : Char} {label : List Char} : mark = '$' ∨ mark = '@' →
      Spelled (.placeholder (String.ofList (mark :: label))) (mark :: label)
  | numbered {number : Nat} : Spelled (.placeholder ("?" ++ toString number)) ['?']

theorem Token.Spelled.ne_eof {token : Token} {text : List Char} (h : token.Spelled text) :
    token ≠ .eof := by
  cases h <;> exact Token.noConfusion

/-- The text of a piece stands for what the piece is. -/
inductive Piece.Spelled : Piece → Prop where
  | token {text : List Char} {token : Token} : token.Spelled text → Spelled ⟨text, .token token⟩
  | parameter : Spelled ⟨['?'], .parameter⟩

theorem Piece.Spelled.ne_gap {piece : Piece} (h : piece.Spelled) : piece.kind ≠ .gap := by
  cases h <;> exact PieceKind.noConfusion

variable {piece : Piece} {rest : List Char}

theorem stringPiece_spelled {lead : List Char} {kind : StringKind} {escapes : Bool}
    (hlead : kind.Lead lead) (h : stringPiece lead kind escapes rest = .ok piece) :
    piece.Spelled := by
  unfold stringPiece at h
  split at h
  · cases h
    rw [List.append_assoc]
    exact .token (.string hlead)
  · cases h

theorem text_of_quotedName {close : Char} {name text : List Char}
    (h : quotedName close rest = some (name, text)) : text = doubled close name ++ [close] := by
  fun_induction quotedName close rest generalizing name text with
  | case1 => cases h
  | case2 =>
    cases h
    rfl
  | case3 rest ih =>
    obtain ⟨⟨inner, innerText⟩, hinner, heq⟩ := Option.map_eq_some_iff.mp h
    cases heq
    simp [doubled, ih hinner]
  | case4 d rest hd =>
    cases h
    rfl
  | case5 c cs hc ih =>
    obtain ⟨⟨inner, innerText⟩, hinner, heq⟩ := Option.map_eq_some_iff.mp h
    cases heq
    simp [doubled, hc, ih hinner]

theorem quotedNamePiece_spelled {first close : Char}
    (h : quotedNamePiece first close rest = .ok piece) : piece.Spelled := by
  unfold quotedNamePiece at h
  split at h
  · cases h
  · rename_i name text hne hname
    cases h
    obtain rfl := text_of_quotedName hname
    exact .token (.quotedName hne)
  · cases h

theorem hexStringPiece_spelled {letter : Char} (hletter : letter = 'x' ∨ letter = 'X')
    (h : hexStringPiece letter rest = .ok piece) : piece.Spelled := by
  simp only [hexStringPiece] at h
  split at h
  · cases h
  · split at h
    · cases h
      exact .token (.hexString hletter)
    · cases h

theorem hexNumberPiece_spelled {letter : Char} (hletter : letter = 'x' ∨ letter = 'X')
    (h : hexNumberPiece '0' letter rest = .ok piece) : piece.Spelled := by
  simp only [hexNumberPiece] at h
  split at h
  · cases h
  · cases h
    exact .token (.hexNumber hletter)

theorem numberPiece_spelled (h : numberPiece rest = .ok piece) : piece.Spelled := by
  simp only [numberPiece] at h
  split at h
  · cases h
    exact .token .number
  · cases h

theorem placeholderPiece_spelled {mark : Char} {inLabel : Char → Bool} {missing : SyntaxCause}
    (hmark : mark = '$' ∨ mark = '@')
    (h : placeholderPiece mark inLabel missing rest = .ok piece) : piece.Spelled := by
  simp only [placeholderPiece] at h
  split at h
  · cases h
  · cases h
    exact .token (.labelled hmark)

theorem sameWord_of_ofWord? {word : String} {keyword : Keyword}
    (h : Keyword.ofWord? word = some keyword) : sameWord keyword.word word := by
  unfold Keyword.ofWord? at h
  have hfound := List.find?_some h
  exact hfound

theorem wordPiece_spelled (input : List Char) : (wordPiece input).Spelled := by
  simp only [wordPiece]
  split
  · rename_i keyword hkeyword
    exact .token (.keyword (sameWord_of_ofWord? hkeyword))
  · exact .token .name

theorem symbolPiece_spelled {c : Char} (h : symbolPiece c rest = .ok piece) : piece.Spelled := by
  unfold symbolPiece at h
  split at h
  · rename_i text symbol hpair
    obtain ⟨d, -, hmap⟩ := Option.bind_eq_some_iff.mp hpair
    obtain ⟨found, hfound, heq⟩ := Option.map_eq_some_iff.mp hmap
    cases heq
    cases h
    unfold symbolOfPair? at hfound
    split at hfound <;> cases hfound
    · exact .token .otherNotEqual
    all_goals exact .token .symbol
  · split at h
    · rename_i symbol hsymbol
      cases h
      unfold symbolOfChar? at hsymbol
      split at hsymbol <;> cases hsymbol <;> exact .token .symbol
    · cases h

/-- A text that starts with a quote, as it does after the mark of a literal. -/
theorem eq_quote_cons (h : rest.head? = some '\'') : rest = '\'' :: rest.drop 1 := by
  obtain ⟨cs, rfl⟩ := List.head?_eq_some_iff.mp h
  rfl

/-- The scanner that takes a token off the front of a text, with what it makes of it. -/
inductive Scanned : List Char → Piece → Prop where
  | string {kind : StringKind} {escapes : Bool} {lead rest : List Char} {piece : Piece} :
      kind.Lead lead → stringPiece lead kind escapes rest = .ok piece →
      Scanned (lead ++ kind.quote :: rest) piece
  | quotedName {first close : Char} {rest : List Char} {piece : Piece} :
      quotedNamePiece first close rest = .ok piece → Scanned (first :: rest) piece
  | hexString {letter : Char} {rest : List Char} {piece : Piece} : letter = 'x' ∨ letter = 'X' →
      hexStringPiece letter rest = .ok piece → Scanned (letter :: '\'' :: rest) piece
  | hexNumber {letter : Char} {rest : List Char} {piece : Piece} : letter = 'x' ∨ letter = 'X' →
      hexNumberPiece '0' letter rest = .ok piece → Scanned ('0' :: letter :: rest) piece
  | number {c : Char} {rest : List Char} {piece : Piece} :
      c.isDigit || (c = '.' && rest.head?.any Char.isDigit) →
      numberPiece (c :: rest) = .ok piece → Scanned (c :: rest) piece
  | parameter {rest : List Char} : Scanned ('?' :: rest) ⟨['?'], .parameter⟩
  | labelled {mark : Char} {inLabel : Char → Bool} {missing : SyntaxCause} {rest : List Char}
      {piece : Piece} : mark = '$' ∧ inLabel = Char.isDigit ∨ mark = '@' ∧ inLabel = isNameChar →
      placeholderPiece mark inLabel missing rest = .ok piece → Scanned (mark :: rest) piece
  | word {c : Char} {rest : List Char} : isNameStart c →
      Scanned (c :: rest) (wordPiece (c :: rest))
  | symbol {c : Char} {rest : List Char} {piece : Piece} : symbolPiece c rest = .ok piece →
      Scanned (c :: rest) piece

/-- Every token is taken by one of the scanners. -/
theorem Lexer.scanned_of_tokenPiece (lexer : Lexer) {c : Char}
    (h : lexer.tokenPiece c rest = .ok piece) : Scanned (c :: rest) piece := by
  unfold tokenPiece at h
  rcases ite_eq_iff.mp h with ⟨rfl, h⟩ | ⟨-, h⟩
  · exact .string StringKind.lead_single h
  rcases ite_eq_iff.mp h with ⟨rfl, h⟩ | ⟨-, h⟩
  · rcases ite_eq_iff.mp h with ⟨-, h⟩ | ⟨-, h⟩
    · exact .string StringKind.lead_double h
    · exact .quotedName h
  rcases ite_eq_iff.mp h with ⟨-, h⟩ | ⟨-, h⟩
  · exact .quotedName h
  rcases ite_eq_iff.mp h with ⟨-, h⟩ | ⟨-, h⟩
  · exact .quotedName h
  rcases ite_eq_iff.mp h with ⟨hmark, h⟩ | ⟨-, h⟩
  · simp only [Bool.and_eq_true, Bool.or_eq_true, decide_eq_true_eq] at hmark
    rw [eq_quote_cons hmark.1.2]
    have hlead : StringKind.national.Lead [c] := by simpa [StringKind.Lead] using hmark.1.1
    exact .string hlead h
  rcases ite_eq_iff.mp h with ⟨hmark, h⟩ | ⟨-, h⟩
  · simp only [Bool.and_eq_true, Bool.or_eq_true, decide_eq_true_eq] at hmark
    rw [eq_quote_cons hmark.1.2]
    have hlead : StringKind.escaped.Lead [c] := by simpa [StringKind.Lead] using hmark.1.1
    exact .string hlead h
  rcases ite_eq_iff.mp h with ⟨hmark, h⟩ | ⟨-, h⟩
  · simp only [Bool.and_eq_true, Bool.or_eq_true, decide_eq_true_eq] at hmark
    rw [eq_quote_cons hmark.1.2]
    exact .hexString hmark.1.1.symm h
  rcases ite_eq_iff.mp h with ⟨hmark, h⟩ | ⟨-, h⟩
  · simp only [Bool.and_eq_true, Bool.or_eq_true, decide_eq_true_eq] at hmark
    obtain ⟨⟨rfl, hnext⟩, -⟩ := hmark
    cases rest with
    | nil => simp at hnext
    | cons letter rest => exact .hexNumber (by simpa using hnext) h
  rcases ite_eq_iff.mp h with ⟨hstart, h⟩ | ⟨-, h⟩
  · exact .number hstart h
  rcases ite_eq_iff.mp h with ⟨rfl, h⟩ | ⟨-, h⟩
  · cases h
    exact .parameter
  rcases ite_eq_iff.mp h with ⟨hmark, h⟩ | ⟨-, h⟩
  · exact .labelled (.inl ⟨of_decide_eq_true (Bool.and_eq_true_iff.mp hmark).1, rfl⟩) h
  rcases ite_eq_iff.mp h with ⟨hmark, h⟩ | ⟨-, h⟩
  · exact .labelled (.inr ⟨of_decide_eq_true (Bool.and_eq_true_iff.mp hmark).1, rfl⟩) h
  rcases ite_eq_iff.mp h with ⟨hstart, h⟩ | ⟨-, h⟩
  · cases h
    exact .word hstart
  · exact .symbol h

/-- **What the lexer makes of a text is spelled so.** -/
theorem Scanned.spelled {input : List Char} (h : Scanned input piece) : piece.Spelled := by
  cases h with
  | string hlead h => exact stringPiece_spelled hlead h
  | quotedName h => exact quotedNamePiece_spelled h
  | hexString hletter h => exact hexStringPiece_spelled hletter h
  | hexNumber hletter h => exact hexNumberPiece_spelled hletter h
  | number _ h => exact numberPiece_spelled h
  | parameter => exact .parameter
  | labelled hmark h => exact placeholderPiece_spelled (hmark.imp And.left And.left) h
  | word => exact wordPiece_spelled _
  | symbol h => exact symbolPiece_spelled h

/-- A piece is a gap, or it is taken by one of the scanners. -/
theorem Lexer.scanned_of_piece (lexer : Lexer) {c : Char} (h : lexer.piece c rest = .ok piece) :
    piece.kind = .gap ∨ Scanned (c :: rest) piece := by
  unfold Lexer.piece at h
  split at h
  · rename_i found hfound
    cases found with
    | error misfit => cases h
    | ok found =>
      cases h
      exact .inl rfl
  · exact .inr (lexer.scanned_of_tokenPiece h)

/-- A question mark at the start of a text is a parameter. -/
theorem Lexer.piece_question (lexer : Lexer) (rest : List Char) :
    lexer.piece '?' rest = .ok ⟨['?'], .parameter⟩ := by
  simp [Lexer.piece, gap?, tokenPiece, isBlank]

/-- A piece is a gap, or its text stands for what it is. -/
theorem Lexer.piece_spelled (lexer : Lexer) {c : Char} (h : lexer.piece c rest = .ok piece) :
    piece.kind = .gap ∨ piece.Spelled :=
  (lexer.scanned_of_piece h).imp_right Scanned.spelled

end SqlFront
