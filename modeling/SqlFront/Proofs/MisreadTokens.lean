import SqlFront.Proofs.HexadecimalText
import SqlFront.Proofs.TextPlaces

/-!
Tokens and comments that cannot be read, and the places in them that the faults point to.

Most faults point to the start of what cannot be read. A string is pointed to at its opening quote,
behind the letter that marks its kind; a hexadecimal string at the character that does not belong in
it; a number at the exponent that has no digits. What stands in front of the place, and after the
tokens and gaps of the text before that, is ASCII, so that it has as many bytes as characters.
-/

namespace SqlFront

open Piece Literal

/-- The letter of a hexadecimal literal. -/
def IsHexLetter (letter : Char) : Prop := letter = 'x' ∨ letter = 'X'

/-- The delimiters of a name in quotes. -/
inductive NameDelimiters : Char → Char → Prop where
  | quotes : NameDelimiters '"' '"'
  | brackets : NameDelimiters '[' ']'
  | backticks : NameDelimiters '`' '`'

/-- What keeps a token or a comment from being read, with the part of it in front of the place that
this is reported at, and the text from that place on. -/
inductive Misread : SyntaxCause → List Char → List Char → Prop where
  /-- The start of a comment that does not end. -/
  | comment {rest : List Char} : blockText rest = none →
      Misread .unterminatedComment [] ('/' :: '*' :: rest)
  /-- The opening quote of a string that does not end. -/
  | string {kind : StringKind} {escapes : Bool} {lead rest : List Char} : kind.Lead lead →
      stringBody kind.quote escapes rest = none →
      Misread .unterminatedString lead (kind.quote :: rest)
  /-- The start of a name that does not end. -/
  | name {first close : Char} {rest : List Char} : NameDelimiters first close →
      quotedName close rest = none → Misread .unterminatedName [] (first :: rest)
  /-- The start of a name without characters. -/
  | emptyName {first close : Char} {text rest : List Char} : NameDelimiters first close →
      quotedName close rest = some ([], text) → Misread .emptyName [] (first :: rest)
  /-- The start of a hexadecimal string that does not end. -/
  | hexString {letter : Char} {digits : List Char} : IsHexLetter letter → AreHexDigits digits →
      Misread .unterminatedHexString [] (letter :: '\'' :: digits)
  /-- A character that is no digit and ends no hexadecimal string. -/
  | hexDigit {letter c : Char} {digits rest : List Char} : IsHexLetter letter →
      AreHexDigits digits → isHexDigit c = false → c ≠ '\'' →
      Misread (.notHexDigit (leadingByte c)) (letter :: '\'' :: digits) (c :: rest)
  /-- The start of a hexadecimal number without digits, or one that goes on as a name. -/
  | hexNumber {letter : Char} {rest : List Char} : IsHexLetter letter →
      rest.takeWhile isHexDigit = [] ∨ (rest.dropWhile isHexDigit).head?.any isNameChar →
      Misread .invalidHexNumber [] ('0' :: letter :: rest)
  /-- The letter of an exponent that has no digits. -/
  | exponent {mantissa rest : List Char} {letter : Char} : mantissa ≠ [] →
      (∀ c ∈ mantissa, c.isDigit ∨ c = '.') → letter = 'e' ∨ letter = 'E' →
      (rest.drop (signText rest).length).takeWhile Char.isDigit = [] →
      Misread .missingExponent mantissa (letter :: rest)
  /-- The start of a placeholder without a number. -/
  | parameterNumber {rest : List Char} : rest.takeWhile Char.isDigit = [] →
      Misread .missingParameterNumber [] ('$' :: rest)
  /-- The start of a placeholder without a name. -/
  | parameterName {rest : List Char} : rest.takeWhile isNameChar = [] →
      Misread .missingParameterName [] ('@' :: rest)
  /-- A character that starts no token. -/
  | character {c : Char} {rest : List Char} : symbolOfChar? c = none →
      Misread (.unexpectedCharacter c) [] (c :: rest)

/-- A text starts with what cannot be read, and this is reported so many bytes further on. -/
def MisreadAfter (input : List Char) (cause : SyntaxCause) (before : Nat) : Prop :=
  ∃ front back, input = front ++ back ∧ Misread cause front back ∧ before = byteLength front

theorem Misread.atStart {cause : SyntaxCause} {input : List Char} (h : Misread cause [] input) :
    MisreadAfter input cause 0 :=
  ⟨[], input, rfl, h, rfl⟩

/-! ### The scanners -/

section

variable {cause : SyntaxCause} {before : Nat} {rest : List Char}

theorem byteLength_of_ascii {text : List Char} (h : ∀ c ∈ text, c.toNat < 128) :
    byteLength text = text.length := by
  induction text with
  | nil => rfl
  | cons c text ih =>
    obtain ⟨hfirst, hothers⟩ := List.forall_mem_cons.mp h
    have hsize : c.utf8Size = 1 := Char.utf8Size_eq_one_iff.mpr (Nat.le_of_lt_succ hfirst)
    rw [byteLength, ih hothers, hsize, List.length_cons, Nat.add_comm]

theorem toNat_lt_of_isDigit {c : Char} (h : c.isDigit) : c.toNat < 128 :=
  toNat_lt_of_isHexDigit (by simp [isHexDigit, h])

theorem StringKind.Lead.byteLength_eq {kind : StringKind} {lead : List Char}
    (h : kind.Lead lead) : byteLength lead = lead.length := by
  cases kind with
  | single | double => obtain rfl : lead = [] := h; rfl
  | national | escaped => rcases h with rfl | rfl <;> rfl

theorem stringPiece_misread {kind : StringKind} {escapes : Bool} {lead : List Char}
    (hlead : kind.Lead lead) (h : stringPiece lead kind escapes rest = .error (cause, before)) :
    MisreadAfter (lead ++ kind.quote :: rest) cause before := by
  unfold stringPiece at h
  split at h
  · cases h
  · rename_i hbody
    cases h
    exact ⟨lead, _, rfl, .string hlead hbody, hlead.byteLength_eq.symm⟩

theorem quotedNamePiece_misread {first close : Char} (hquotes : NameDelimiters first close)
    (h : quotedNamePiece first close rest = .error (cause, before)) :
    MisreadAfter (first :: rest) cause before := by
  unfold quotedNamePiece at h
  split at h
  · rename_i hname
    cases h
    exact (Misread.emptyName hquotes hname).atStart
  · cases h
  · rename_i hname
    cases h
    exact (Misread.name hquotes hname).atStart

theorem hexStringPiece_misread {letter : Char} (hletter : IsHexLetter letter)
    (h : hexStringPiece letter rest = .error (cause, before)) :
    MisreadAfter (letter :: '\'' :: rest) cause before := by
  have hdigits : AreHexDigits (rest.takeWhile isHexDigit) := fun c hmem =>
    List.mem_takeWhile_imp hmem
  have hsplit := List.takeWhile_append_dropWhile (p := isHexDigit) (l := rest)
  simp only [hexStringPiece] at h
  split at h
  · rename_i hnil
    cases h
    rw [hnil, List.append_nil] at hsplit
    rw [← hsplit]
    exact (Misread.hexString hletter hdigits).atStart
  · rename_i c more hmore
    split at h
    · cases h
    · rename_i hquote
      cases h
      have hc : isHexDigit c = false := by
        have hhead := List.head?_dropWhile_not isHexDigit rest
        rw [hmore] at hhead
        simpa using hhead
      rw [hmore] at hsplit
      refine ⟨letter :: '\'' :: rest.takeWhile isHexDigit, c :: more, by simp [hsplit],
        .hexDigit hletter hdigits hc hquote, ?_⟩
      have hascii : ∀ d ∈ letter :: '\'' :: rest.takeWhile isHexDigit, d.toNat < 128 := by
        have hsmall : letter.toNat < 128 := by rcases hletter with rfl | rfl <;> decide
        exact List.forall_mem_cons.mpr ⟨hsmall, List.forall_mem_cons.mpr ⟨by decide, fun d hmem =>
          toNat_lt_of_isHexDigit (hdigits d hmem)⟩⟩
      rw [byteLength_of_ascii hascii]
      rfl

theorem hexNumberPiece_misread {letter : Char} (hletter : IsHexLetter letter)
    (h : hexNumberPiece '0' letter rest = .error (cause, before)) :
    MisreadAfter ('0' :: letter :: rest) cause before := by
  simp only [hexNumberPiece] at h
  split at h
  · rename_i hwrong
    cases h
    exact (Misread.hexNumber hletter (by simpa using hwrong)).atStart
  · cases h

theorem isDigit_or_point_of_fractionText {c : Char} {input : List Char}
    (h : c ∈ fractionText input) : c.isDigit ∨ c = '.' := by
  unfold fractionText at h
  split at h
  · rcases List.mem_cons.mp h with rfl | h
    · exact .inr rfl
    · exact .inl (List.mem_takeWhile_imp h)
  · cases h

theorem exponentText_eq_none {input : List Char} (h : exponentText input = none) :
    ∃ letter rest, input = letter :: rest ∧ (letter = 'e' ∨ letter = 'E') ∧
      (rest.drop (signText rest).length).takeWhile Char.isDigit = [] := by
  cases input with
  | nil => cases h
  | cons letter rest =>
    simp only [exponentText] at h
    split at h
    · rename_i hletter
      split at h
      · rename_i hdigits
        exact ⟨letter, rest, rfl, by simpa using hletter, by simpa using hdigits⟩
      · cases h
    · cases h

theorem numberPiece_misread {c : Char}
    (hstart : c.isDigit || (c = '.' && rest.head?.any Char.isDigit))
    (h : numberPiece (c :: rest) = .error (cause, before)) :
    MisreadAfter (c :: rest) cause before := by
  have hprefix := append_isPrefix (List.takeWhile_prefix (l := c :: rest) Char.isDigit)
    (fractionText_isPrefix _)
  have hne := mantissa_ne_nil hstart
  have hall : ∀ d ∈ (c :: rest).takeWhile Char.isDigit ++
      fractionText ((c :: rest).drop ((c :: rest).takeWhile Char.isDigit).length),
      d.isDigit ∨ d = '.' := by
    intro d hmem
    rcases List.mem_append.mp hmem with hmem | hmem
    · exact .inl (List.mem_takeWhile_imp hmem)
    · exact isDigit_or_point_of_fractionText hmem
  simp only [numberPiece] at h
  generalize (c :: rest).takeWhile Char.isDigit ++
    fractionText ((c :: rest).drop ((c :: rest).takeWhile Char.isDigit).length) = mantissa at *
  split at h
  · cases h
  · rename_i hexponent
    cases h
    obtain ⟨letter, tail, htail, hletter, hdigits⟩ := exponentText_eq_none hexponent
    obtain ⟨more, hmore⟩ := hprefix
    rw [← hmore, List.drop_left] at htail
    refine ⟨mantissa, letter :: tail, by rw [← htail, hmore],
      .exponent hne hall hletter hdigits, ?_⟩
    refine (byteLength_of_ascii fun d hmem => ?_).symm
    rcases hall d hmem with hdigit | rfl
    · exact toNat_lt_of_isDigit hdigit
    · decide

theorem symbolPiece_misread {c : Char} (h : symbolPiece c rest = .error (cause, before)) :
    MisreadAfter (c :: rest) cause before := by
  unfold symbolPiece at h
  split at h
  · cases h
  · split at h
    · cases h
    · rename_i hsymbol
      cases h
      exact (Misread.character hsymbol).atStart

end

namespace Lexer

variable (lexer : Lexer) {c : Char} {rest : List Char} {cause : SyntaxCause} {before : Nat}

/-- Where no scanner takes a token, the one that tried says what is wrong, and where. -/
theorem misread_of_tokenPiece (h : lexer.tokenPiece c rest = .error (cause, before)) :
    MisreadAfter (c :: rest) cause before := by
  unfold tokenPiece at h
  rcases ite_eq_iff.mp h with ⟨rfl, h⟩ | ⟨-, h⟩
  · exact stringPiece_misread StringKind.lead_single h
  rcases ite_eq_iff.mp h with ⟨rfl, h⟩ | ⟨-, h⟩
  · rcases ite_eq_iff.mp h with ⟨-, h⟩ | ⟨-, h⟩
    · exact stringPiece_misread StringKind.lead_double h
    · exact quotedNamePiece_misread .quotes h
  rcases ite_eq_iff.mp h with ⟨hmark, h⟩ | ⟨-, h⟩
  · obtain rfl : c = '[' := of_decide_eq_true (Bool.and_eq_true_iff.mp hmark).1
    exact quotedNamePiece_misread .brackets h
  rcases ite_eq_iff.mp h with ⟨hmark, h⟩ | ⟨-, h⟩
  · obtain rfl : c = '`' := of_decide_eq_true (Bool.and_eq_true_iff.mp hmark).1
    exact quotedNamePiece_misread .backticks h
  rcases ite_eq_iff.mp h with ⟨hmark, h⟩ | ⟨-, h⟩
  · simp only [Bool.and_eq_true, Bool.or_eq_true, decide_eq_true_eq] at hmark
    rw [eq_quote_cons hmark.1.2]
    have hlead : StringKind.national.Lead [c] := by simpa [StringKind.Lead] using hmark.1.1
    exact stringPiece_misread hlead h
  rcases ite_eq_iff.mp h with ⟨hmark, h⟩ | ⟨-, h⟩
  · simp only [Bool.and_eq_true, Bool.or_eq_true, decide_eq_true_eq] at hmark
    rw [eq_quote_cons hmark.1.2]
    have hlead : StringKind.escaped.Lead [c] := by simpa [StringKind.Lead] using hmark.1.1
    exact stringPiece_misread hlead h
  rcases ite_eq_iff.mp h with ⟨hmark, h⟩ | ⟨-, h⟩
  · simp only [Bool.and_eq_true, Bool.or_eq_true, decide_eq_true_eq] at hmark
    rw [eq_quote_cons hmark.1.2]
    exact hexStringPiece_misread hmark.1.1.symm h
  rcases ite_eq_iff.mp h with ⟨hmark, h⟩ | ⟨-, h⟩
  · simp only [Bool.and_eq_true, Bool.or_eq_true, decide_eq_true_eq] at hmark
    obtain ⟨⟨rfl, hnext⟩, -⟩ := hmark
    cases rest with
    | nil => simp at hnext
    | cons letter rest => exact hexNumberPiece_misread (by simpa [IsHexLetter] using hnext) h
  rcases ite_eq_iff.mp h with ⟨hstart, h⟩ | ⟨-, h⟩
  · exact numberPiece_misread hstart h
  rcases ite_eq_iff.mp h with ⟨rfl, h⟩ | ⟨-, h⟩
  · cases h
  rcases ite_eq_iff.mp h with ⟨hmark, h⟩ | ⟨-, h⟩
  · obtain rfl : c = '$' := of_decide_eq_true (Bool.and_eq_true_iff.mp hmark).1
    simp only [placeholderPiece] at h
    split at h
    · rename_i hlabel
      cases h
      exact (Misread.parameterNumber (by simpa using hlabel)).atStart
    · cases h
  rcases ite_eq_iff.mp h with ⟨hmark, h⟩ | ⟨-, h⟩
  · obtain rfl : c = '@' := of_decide_eq_true (Bool.and_eq_true_iff.mp hmark).1
    simp only [placeholderPiece] at h
    split at h
    · rename_i hlabel
      cases h
      exact (Misread.parameterName (by simpa using hlabel)).atStart
    · cases h
  rcases ite_eq_iff.mp h with ⟨-, h⟩ | ⟨-, h⟩
  · cases h
  · exact symbolPiece_misread h

theorem comment_of_gap? {misfit : Misfit} (h : lexer.gap? c rest = some (.error misfit)) :
    misfit = (.unterminatedComment, 0) ∧
      ∃ body, rest = '*' :: body ∧ c = '/' ∧ blockText body = none := by
  simp only [gap?] at h
  split at h
  · cases h
  · split at h
    · cases h
    · split at h
      · rename_i hopen
        obtain ⟨rfl, hnext⟩ : c = '/' ∧ rest.head? = some '*' := by simpa using hopen
        obtain ⟨body, rfl⟩ := List.head?_eq_some_iff.mp hnext
        split at h
        · cases h
        · rename_i hbody
          cases h
          exact ⟨rfl, body, rfl, rfl, hbody⟩
      · cases h

/-- **Where a text has no first piece, it starts with what cannot be read**, and the fault points to
the place in it. -/
theorem misread_of_piece (h : lexer.piece c rest = .error (cause, before)) :
    MisreadAfter (c :: rest) cause before := by
  unfold piece at h
  split at h
  · rename_i found hgap
    cases found with
    | ok text => cases h
    | error misfit =>
      obtain ⟨rfl, body, rfl, rfl, hbody⟩ := lexer.comment_of_gap? hgap
      cases h
      exact (Misread.comment hbody).atStart
  · exact lexer.misread_of_tokenPiece h

variable {lexer}

/-- The tokens of a text cannot be told because of its first piece, or because of the text after
that. -/
theorem lexemesFrom_cons_eq_error {parameters offset : Nat} {fault : Fault} :
    lexer.lexemesFrom parameters offset 0 (c :: rest) = .error fault ↔
      (∃ cause before, lexer.piece c rest = .error (cause, before) ∧
        fault = ⟨cause, some (offset + before)⟩) ∨
      ∃ text kind tail, rest = text ++ tail ∧ lexer.piece c rest = .ok ⟨c :: text, kind⟩ ∧
        lexer.lexemesFrom (parameters + parametersOf [⟨c :: text, kind⟩])
          (offset + byteLength (c :: text)) 0 tail = .error fault := by
  rw [lexemesFrom]
  cases hpiece : lexer.piece c rest with
  | error misfit =>
    obtain ⟨cause, before⟩ := misfit
    simp [and_comm, eq_comm]
  | ok piece =>
    obtain ⟨text, kind, tail, rfl, rfl⟩ := exists_split_of_piece hpiece
    simp only [lexemesFrom_next]
    constructor
    · intro h
      refine .inr ⟨text, kind, tail, rfl, rfl, ?_⟩
      cases kind <;> simpa [parametersOf, map_eq_error] using h
    · rintro (⟨_, _, hfails, -⟩ | ⟨_, _, tail', htail, ⟨⟩, h⟩)
      · cases hfails
      · obtain rfl := List.append_cancel_left htail
        cases kind <;> simpa [parametersOf, map_eq_error] using h

variable (lexer) in
/-- The lexer reads these tokens and gaps at the front of a text, each with all of the text behind
it, and this is left of the text. -/
inductive ReadsUpTo : List Char → List Piece → List Char → Prop where
  | nil {rest : List Char} : ReadsUpTo rest [] rest
  | cons {c : Char} {text input rest : List Char} {kind : PieceKind} {pieces : List Piece} :
      lexer.piece c (text ++ input) = .ok ⟨c :: text, kind⟩ → ReadsUpTo input pieces rest →
      ReadsUpTo (c :: (text ++ input)) (⟨c :: text, kind⟩ :: pieces) rest

theorem ReadsUpTo.eq_append {input : List Char} {pieces : List Piece}
    (h : lexer.ReadsUpTo input pieces rest) : input = textOf pieces ++ rest := by
  induction h with
  | nil => rfl
  | cons _ _ ih => rw [textOf_cons, List.append_assoc, ← ih, List.cons_append]

/-- What keeps the rest of a text from being read keeps the text from it. -/
theorem ReadsUpTo.lexemesFrom_eq_error {input : List Char} {pieces : List Piece}
    (h : lexer.ReadsUpTo input pieces (c :: rest))
    (hpiece : lexer.piece c rest = .error (cause, before)) (parameters offset : Nat) :
    lexer.lexemesFrom parameters offset 0 input =
      .error ⟨cause, some (offset + (byteLength (textOf pieces) + before))⟩ := by
  generalize hleft : c :: rest = left at h
  induction h generalizing parameters offset with
  | nil =>
    subst hleft
    exact lexemesFrom_cons_eq_error.mpr (.inl ⟨cause, before, hpiece, by simp [textOf, byteLength]⟩)
  | @cons d text input _ kind pieces hfirst _ ih =>
    refine lexemesFrom_cons_eq_error.mpr (.inr ⟨text, kind, input, rfl, hfirst, ?_⟩)
    rw [ih _ _ hleft, textOf_cons, byteLength_append, Nat.add_assoc, Nat.add_assoc]

variable (lexer) in
/-- The tokens and gaps at the front of the text are read. The text behind them is not, and this is
the place in it that the cause is reported at. -/
def MisreadAt (source : Source) (cause : SyntaxCause) (offset : Nat) : Prop :=
  ∃ pieces c rest front back, lexer.ReadsUpTo source pieces (c :: rest) ∧
    lexer.piece c rest = .error (cause, byteLength front) ∧ c :: rest = front ++ back ∧
    Misread cause front back ∧ offset = byteLength (textOf pieces ++ front)

theorem misreadAt_start (h : lexer.piece c rest = .error (cause, before)) :
    lexer.MisreadAt (c :: rest) cause before := by
  obtain ⟨front, back, hsplit, hmisread, rfl⟩ := lexer.misread_of_piece h
  exact ⟨[], c, rest, front, back, .nil, h, hsplit, hmisread, rfl⟩

theorem MisreadAt.cons {text : List Char} {kind : PieceKind} {offset : Nat}
    (hpiece : lexer.piece c (text ++ rest) = .ok ⟨c :: text, kind⟩)
    (h : lexer.MisreadAt rest cause offset) :
    lexer.MisreadAt (c :: (text ++ rest)) cause (byteLength (c :: text) + offset) := by
  obtain ⟨pieces, d, more, front, back, hreads, hfails, hsplit, hmisread, rfl⟩ := h
  refine ⟨⟨c :: text, kind⟩ :: pieces, d, more, front, back, .cons hpiece hreads, hfails, hsplit,
    hmisread, ?_⟩
  rw [textOf_cons, List.append_assoc, byteLength_append (c :: text)]

theorem lexemesFrom_eq_error {parameters offset : Nat} {input : List Char} {fault : Fault} :
    lexer.lexemesFrom parameters offset 0 input = .error fault ↔
      ∃ cause place, lexer.MisreadAt input cause place ∧
        fault = ⟨cause, some (offset + place)⟩ := by
  constructor
  · intro h
    induction hlength : input.length using Nat.strong_induction_on
      generalizing input parameters offset with
    | _ length ih =>
      cases input with
      | nil => cases h
      | cons c rest =>
        rcases lexemesFrom_cons_eq_error.mp h with ⟨cause, before, hpiece, rfl⟩ |
          ⟨text, kind, tail, rfl, hpiece, hfault⟩
        · exact ⟨cause, before, misreadAt_start hpiece, rfl⟩
        · have hshorter : tail.length < length := by
            simp only [← hlength, List.length_cons, List.length_append]
            omega
          obtain ⟨cause, place, hmisread, rfl⟩ := ih tail.length hshorter hfault rfl
          exact ⟨cause, _, hmisread.cons hpiece, by rw [Nat.add_assoc]⟩
  · rintro ⟨cause, _, ⟨pieces, c, rest, front, back, hreads, hfails, -, -, rfl⟩, rfl⟩
    rw [hreads.lexemesFrom_eq_error hfails, byteLength_append]

/-- **A text has no tokens exactly when it goes on, behind those that are read, with what cannot be
read**, and the fault is at a place in that. -/
theorem lexemes_eq_error {source : Source} {fault : Fault} :
    lexer.lexemes source = .error fault ↔
      ∃ cause offset, lexer.MisreadAt source cause offset ∧ fault = ⟨cause, some offset⟩ := by
  rw [lexemes, lexemesFrom_eq_error]
  simp only [Nat.zero_add]

theorem MisreadAt.isBoundary {source : Source} {offset : Nat}
    (h : lexer.MisreadAt source cause offset) : source.IsBoundary offset := by
  obtain ⟨pieces, c, rest, front, back, hreads, -, hsplit, -, rfl⟩ := h
  exact ⟨textOf pieces ++ front, back, by rw [hreads.eq_append, hsplit, List.append_assoc], rfl⟩

end Lexer

end SqlFront
