import SqlFront.Proofs.PieceLocality
import SqlFront.Proofs.Slices

/-!
How a text falls into pieces, and how its tokens follow from them.

`Lexer.Cuts` says of pieces that they are those of the text that they make up. Any pieces that
follow each other in it are the pieces of their own text, so a text that starts and ends with a
token of another one has the tokens that stand there.
-/

namespace SqlFront

namespace Piece

/-- The characters of some pieces. -/
def textOf (pieces : List Piece) : List Char := pieces.flatMap Piece.text

@[simp]
theorem textOf_nil : textOf [] = [] := rfl

@[simp]
theorem textOf_append (left right : List Piece) :
    textOf (left ++ right) = textOf left ++ textOf right :=
  List.flatMap_append

@[simp]
theorem textOf_cons (piece : Piece) (pieces : List Piece) :
    textOf (piece :: pieces) = piece.text ++ textOf pieces := rfl

/-- The token of a piece at a byte, after so many placeholders without a label. -/
def lexeme? (parameters offset : Nat) (piece : Piece) : Option Lexeme :=
  let span := ⟨offset, offset + byteLength piece.text⟩
  match piece.kind with
  | .gap => none
  | .token token => some ⟨token, span⟩
  | .parameter => some ⟨.placeholder ("?" ++ toString (parameters + 1)), span⟩

/-- How many placeholders without a label there are among some pieces. -/
def parametersOf (pieces : List Piece) : Nat := pieces.countP fun piece => piece.kind = .parameter

/-- The tokens of some pieces from a byte on, after so many placeholders without a label. -/
def lexemesOf (parameters offset : Nat) : List Piece → List Lexeme
  | [] => []
  | piece :: pieces =>
      (piece.lexeme? parameters offset).toList ++
        lexemesOf (parameters + parametersOf [piece]) (offset + byteLength piece.text) pieces

end Piece

open Piece

/-- The token at the end of a text. -/
def endOf (text : List Char) (offset : Nat) : Lexeme :=
  ⟨.eof, ⟨offset + byteLength text, offset + byteLength text⟩⟩

theorem endOf_append (left right : List Char) (offset : Nat) :
    endOf (left ++ right) offset = endOf right (offset + byteLength left) := by
  simp only [endOf, byteLength_append, Nat.add_assoc]

namespace Lexer

variable (lexer : Lexer)

/-- The pieces are those of the text that they make up. -/
inductive Cuts : List Piece → Prop where
  | nil : Cuts []
  | cons {c : Char} {text : List Char} {kind : PieceKind} {pieces : List Piece} :
      lexer.piece c (text ++ textOf pieces) = .ok ⟨c :: text, kind⟩ → Cuts pieces →
      Cuts (⟨c :: text, kind⟩ :: pieces)

variable {lexer}

theorem Cuts.right {left right : List Piece} (h : lexer.Cuts (left ++ right)) :
    lexer.Cuts right := by
  induction left with
  | nil => exact h
  | cons piece left ih =>
    cases h with
    | cons hpiece hrest => exact ih hrest

/-- The first pieces of a text are the pieces of their own text. -/
theorem Cuts.left {left right : List Piece} (h : lexer.Cuts (left ++ right)) :
    lexer.Cuts left := by
  induction left with
  | nil => exact .nil
  | cons piece left ih =>
    cases h with
    | cons hpiece hrest =>
      rw [List.append_eq, textOf_append] at hpiece
      exact .cons (lexer.piece_swap hpiece .of_append fun _ => .of_append) (ih hrest)

theorem lexemesFrom_passed {parameters offset passed : Nat} {input : List Char}
    (hpassed : passed ≤ input.length) :
    lexer.lexemesFrom parameters offset passed input =
      lexer.lexemesFrom parameters (offset + byteLength (input.take passed)) 0
        (input.drop passed) := by
  induction input generalizing offset passed with
  | nil =>
    obtain rfl : passed = 0 := Nat.le_zero.mp hpassed
    rfl
  | cons c rest ih =>
    cases passed with
    | zero => rfl
    | succ passed =>
      rw [lexemesFrom, ih (by simpa using hpassed)]
      simp only [List.take_succ_cons, List.drop_succ_cons, byteLength, Nat.add_assoc]

/-- Behind its first piece, a text goes on with what the piece leaves of it. -/
theorem lexemesFrom_next (parameters offset : Nat) (c : Char) (text tail : List Char) :
    lexer.lexemesFrom parameters (offset + c.utf8Size) ((c :: text).length - 1) (text ++ tail) =
      lexer.lexemesFrom parameters (offset + byteLength (c :: text)) 0 tail := by
  rw [lexemesFrom_passed (by simp)]
  simp [byteLength, Nat.add_assoc]

/-- A piece takes the first character of a text, and of the others as many as it likes. -/
theorem exists_split_of_piece {c : Char} {rest : List Char} {piece : Piece}
    (h : lexer.piece c rest = .ok piece) :
    ∃ text kind tail, piece = ⟨c :: text, kind⟩ ∧ rest = text ++ tail := by
  have hopens := lexer.piece_opens h
  obtain ⟨tail, htail⟩ := hopens.isPrefix
  obtain ⟨d, text, htext⟩ := List.exists_cons_of_ne_nil hopens.nonempty
  rw [htext, List.cons_append, List.cons.injEq] at htail
  obtain ⟨rfl, rfl⟩ := htail
  obtain ⟨_, kind⟩ := piece
  obtain rfl := htext
  exact ⟨text, kind, tail, rfl, rfl⟩

/-- The tokens of a text are the one of its first piece, if that has one, and those of the text
after it. -/
theorem lexemesFrom_cons_eq_ok {parameters offset : Nat} {c : Char} {rest : List Char}
    {lexemes : List Lexeme} :
    lexer.lexemesFrom parameters offset 0 (c :: rest) = .ok lexemes ↔
      ∃ text kind tail more, rest = text ++ tail ∧ lexer.piece c rest = .ok ⟨c :: text, kind⟩ ∧
        lexer.lexemesFrom (parameters + parametersOf [⟨c :: text, kind⟩])
          (offset + byteLength (c :: text)) 0 tail = .ok more ∧
        (lexeme? parameters offset ⟨c :: text, kind⟩).toList ++ more = lexemes := by
  rw [lexemesFrom]
  cases hpiece : lexer.piece c rest with
  | error misfit => simp
  | ok piece =>
    obtain ⟨text, kind, tail, rfl, rfl⟩ := exists_split_of_piece hpiece
    simp only [lexemesFrom_next]
    constructor
    · intro h
      have hmore : ∃ more, lexer.lexemesFrom (parameters + parametersOf [⟨c :: text, kind⟩])
          (offset + byteLength (c :: text)) 0 tail = .ok more ∧
          (lexeme? parameters offset ⟨c :: text, kind⟩).toList ++ more = lexemes := by
        cases kind <;> simpa [parametersOf, lexeme?] using h
      obtain ⟨more, hmore⟩ := hmore
      exact ⟨text, kind, tail, more, rfl, rfl, hmore⟩
    · rintro ⟨_, _, tail', more, htail, ⟨⟩, hmore, rfl⟩
      obtain rfl := List.append_cancel_left htail
      cases kind <;> simpa [parametersOf, lexeme?] using hmore

/-- **The tokens of a text are those of its pieces**, and then its end. -/
theorem lexemesFrom_eq_ok {parameters offset : Nat} {input : List Char} {lexemes : List Lexeme} :
    lexer.lexemesFrom parameters offset 0 input = .ok lexemes ↔
      ∃ pieces, lexer.Cuts pieces ∧ textOf pieces = input ∧
        lexemes = lexemesOf parameters offset pieces ++ [endOf input offset] := by
  constructor
  · intro h
    induction hlength : input.length using Nat.strong_induction_on
      generalizing input parameters offset lexemes with
    | _ length ih =>
      cases input with
      | nil =>
        cases h
        exact ⟨[], .nil, rfl, rfl⟩
      | cons c rest =>
        obtain ⟨text, kind, tail, more, rfl, hpiece, hmore, rfl⟩ := lexemesFrom_cons_eq_ok.mp h
        have hshorter : tail.length < length := by
          simp only [← hlength, List.length_cons, List.length_append]
          omega
        obtain ⟨pieces, hcuts, rfl, rfl⟩ := ih tail.length hshorter hmore rfl
        refine ⟨_, .cons hpiece hcuts, rfl, ?_⟩
        rw [lexemesOf, List.append_assoc, ← List.cons_append, endOf_append]
  · rintro ⟨pieces, hcuts, rfl, rfl⟩
    induction hcuts generalizing parameters offset with
    | nil => rfl
    | @cons c text kind pieces hpiece hcuts ih =>
      refine lexemesFrom_cons_eq_ok.mpr ⟨text, kind, _, _, rfl, hpiece, ih, ?_⟩
      rw [lexemesOf, textOf_cons, endOf_append, List.append_assoc]

theorem lexemes_eq_ok {source : Source} {lexemes : List Lexeme} :
    lexer.lexemes source = .ok lexemes ↔
      ∃ pieces, lexer.Cuts pieces ∧ textOf pieces = source ∧
        lexemes = lexemesOf 0 0 pieces ++ [endOf source 0] :=
  lexemesFrom_eq_ok

/-- A text that is one token has that token, and then its end. -/
theorem lexemes_of_cuts {source : Source} {token : Token}
    (h : lexer.Cuts [⟨source, .token token⟩]) :
    lexer.lexemes source = .ok [⟨token, ⟨0, byteLength source⟩⟩, endOf source 0] := by
  refine lexemes_eq_ok.mpr ⟨_, h, by simp, ?_⟩
  rw [lexemesOf, lexeme?, Nat.zero_add]
  rfl

end Lexer

/-! ### Tokens that follow each other -/

namespace Piece

variable {parameters offset : Nat} {pieces : List Piece}

theorem parametersOf_append (left right : List Piece) :
    parametersOf (left ++ right) = parametersOf left + parametersOf right :=
  List.countP_append

theorem parametersOf_cons (piece : Piece) (pieces : List Piece) :
    parametersOf (piece :: pieces) = parametersOf [piece] + parametersOf pieces :=
  parametersOf_append [piece] pieces

theorem lexemesOf_append (left right : List Piece) :
    lexemesOf parameters offset (left ++ right) =
      lexemesOf parameters offset left ++
        lexemesOf (parameters + parametersOf left) (offset + byteLength (textOf left)) right := by
  induction left generalizing parameters offset with
  | nil => simp [lexemesOf, parametersOf, textOf, byteLength]
  | cons piece left ih =>
    rw [List.cons_append, lexemesOf, lexemesOf, ih, parametersOf_cons piece left, textOf_cons,
      byteLength_append, List.append_assoc, Nat.add_assoc, Nat.add_assoc]

theorem span_of_lexeme? {piece : Piece} {lexeme : Lexeme}
    (h : piece.lexeme? parameters offset = some lexeme) :
    lexeme.span = ⟨offset, offset + byteLength piece.text⟩ := by
  unfold lexeme? at h
  split at h
  · cases h
  · cases h
    rfl
  · cases h
    rfl

/-- Where a token stands among those of some pieces, its piece stands among these. -/
theorem exists_piece_of_lexemesOf {left right : List Lexeme} {lexeme : Lexeme}
    (h : lexemesOf parameters offset pieces = left ++ lexeme :: right) :
    ∃ before piece after, pieces = before ++ piece :: after ∧
      lexemesOf parameters offset before = left ∧
      piece.lexeme? (parameters + parametersOf before) (offset + byteLength (textOf before)) =
        some lexeme := by
  induction pieces generalizing parameters offset left with
  | nil => simp [lexemesOf] at h
  | cons piece pieces ih =>
    -- the token is that of a later piece, after the token of this one, if it has any
    have later {others : List Lexeme} (hleft : (piece.lexeme? parameters offset).toList ++ others =
          left)
        (hothers : lexemesOf (parameters + parametersOf [piece])
          (offset + byteLength piece.text) pieces = others ++ lexeme :: right) :
        ∃ before found after, piece :: pieces = before ++ found :: after ∧
          lexemesOf parameters offset before = left ∧
          found.lexeme? (parameters + parametersOf before)
            (offset + byteLength (textOf before)) = some lexeme := by
      obtain ⟨before, found, after, rfl, rfl, hfound⟩ := ih hothers
      refine ⟨piece :: before, found, after, rfl, hleft, ?_⟩
      rwa [parametersOf_cons, textOf_cons, byteLength_append, ← Nat.add_assoc, ← Nat.add_assoc]
    rw [lexemesOf] at h
    cases hpiece : piece.lexeme? parameters offset with
    | none =>
      rw [hpiece] at h
      exact later (by simp [hpiece]) h
    | some own =>
      rw [hpiece] at h
      cases left with
      | nil =>
        obtain ⟨rfl, -⟩ := List.cons.inj h
        exact ⟨[], piece, pieces, rfl, rfl, hpiece⟩
      | cons first others =>
        obtain ⟨rfl, hothers⟩ := List.cons.inj h
        exact later (by simp [hpiece]) hothers

/-- **Tokens that follow each other are those of pieces that follow each other.** The text of these
starts where the first token does and stops where the last one does. -/
theorem exists_pieces_of_lexemesOf {left middle right : List Lexeme} (hne : middle ≠ [])
    (h : lexemesOf parameters offset pieces = left ++ middle ++ right) :
    ∃ before inner after, pieces = before ++ inner ++ after ∧
      lexemesOf (parameters + parametersOf before) (offset + byteLength (textOf before)) inner =
        middle ∧
      (∀ first ∈ middle.head?, first.span.start = offset + byteLength (textOf before)) ∧
      ∀ last ∈ middle.getLast?,
        last.span.stop = offset + byteLength (textOf before) + byteLength (textOf inner) := by
  -- the pieces up to the last token, and among them the piece of the first one
  obtain ⟨init, last, rfl⟩ : ∃ init last, middle = init ++ [last] :=
    ⟨_, _, (List.dropLast_append_getLast hne).symm⟩
  rw [← List.append_assoc, List.append_assoc, List.singleton_append] at h
  obtain ⟨front, lastPiece, after, rfl, hfront, hlast⟩ := exists_piece_of_lexemesOf h
  obtain ⟨first, others, hmiddle⟩ := List.exists_cons_of_ne_nil hne
  have hupto : lexemesOf parameters offset (front ++ [lastPiece]) = left ++ first :: others := by
    rw [lexemesOf_append, hfront, lexemesOf, hlast, ← hmiddle]
    simp [lexemesOf]
  obtain ⟨before, firstPiece, rest, hsplit, hbefore, hfirst⟩ := exists_piece_of_lexemesOf hupto
  refine ⟨before, firstPiece :: rest, after, by simp [← hsplit], ?_, ?_, ?_⟩
  · rw [hsplit, lexemesOf_append, hbefore] at hupto
    rw [List.append_cancel_left hupto, hmiddle]
  · rw [hmiddle]
    rintro _ ⟨⟩
    rw [span_of_lexeme? hfirst]
  · rw [List.getLast?_concat]
    rintro _ ⟨⟩
    have hlength := congrArg (fun pieces => byteLength (textOf pieces)) hsplit
    simp only [textOf_append, byteLength_append] at hlength
    rw [span_of_lexeme? hlast, Nat.add_assoc, Nat.add_assoc, ← hlength]
    simp [textOf]

end Piece

end SqlFront
