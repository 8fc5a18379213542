import SqlFront.Proofs.Spacing

/-!
Another name in the place of a name.

Words without quotes do not touch each other: the first one would go on with the second one. So
there is a gap between a reserved word and a name behind it, and in place of the name another one
can stand. The tokens around it stay the same ones, those behind it at other places.
-/

namespace SqlFront

open Piece

/-- The token is a word without quotes. -/
def Token.isBare : Token → Bool
  | .keyword _ | .name _ => true
  | _ => false

/-- Only the scanner of words makes words without quotes. -/
theorem Scanned.eq_wordPiece {input : List Char} {piece : Piece} {token : Token}
    (h : Scanned input piece) (hkind : piece.kind = .token token) (hbare : token.isBare) :
    piece = wordPiece input ∧ input.head?.any isNameStart := by
  cases h with
  | word hstart => exact ⟨rfl, hstart⟩
  | parameter => cases hkind
  | quotedName h =>
    unfold quotedNamePiece at h
    split at h <;> cases h
    cases hkind
    cases hbare
  | string _ h | hexNumber _ h | number _ h | labelled _ h =>
    simp only [stringPiece, hexNumberPiece, numberPiece, placeholderPiece] at h
    split at h <;> cases h
    cases hkind
    cases hbare
  | hexString _ h =>
    simp only [hexStringPiece] at h
    split at h
    · cases h
    · split at h <;> cases h
      cases hkind
      cases hbare
  | symbol h =>
    unfold symbolPiece at h
    split at h
    · cases h
      cases hkind
      cases hbare
    · split at h <;> cases h
      cases hkind
      cases hbare

namespace Lexer

variable {lexer : Lexer} {text text' : List Char} {token token' : Token} {gaps pieces : List Piece}

/-- Behind a word without quotes stands nothing that it could go on with. -/
theorem Cuts.not_nameChar (h : lexer.Cuts (⟨text, .token token⟩ :: pieces))
    (hbare : token.isBare) {d : Char} (hd : (textOf pieces).head? = some d) :
    isNameChar d = false := by
  cases h with
  | cons hpiece _ =>
    obtain hgap | hscanned := lexer.scanned_of_piece hpiece
    · cases hgap
    · obtain ⟨hword, -⟩ := hscanned.eq_wordPiece rfl hbare
      have htext := congrArg Piece.text hword
      rw [wordPiece_text, ← List.cons_append] at htext
      exact (takeWhile_append_eq_left.mp htext.symm).2 d hd

/-- Words without quotes do not touch each other. -/
theorem Cuts.gap_ne_nil
    (h : lexer.Cuts (⟨text, .token token⟩ :: (gaps ++ ⟨text', .token token'⟩ :: pieces)))
    (hbare : token.isBare) (hbare' : token'.isBare) : gaps ≠ [] := by
  rintro rfl
  have hnext {d : Char} := h.not_nameChar (d := d) hbare
  cases h with
  | cons _ hrest =>
    cases hrest with
    | @cons c rest _ _ hpiece _ =>
      obtain hgap | hscanned := lexer.scanned_of_piece hpiece
      · cases hgap
      · obtain ⟨-, hstart⟩ := hscanned.eq_wordPiece rfl hbare'
        have hchar : isNameChar c = false := hnext rfl
        rw [isNameChar_of_isNameStart hstart] at hchar
        cases hchar

end Lexer

namespace Piece

variable {pieces : List Piece} {parameters offset : Nat} {lexeme : Lexeme}

theorem lexeme?_eq_none {piece : Piece} :
    piece.lexeme? parameters offset = none ↔ piece.kind = .gap := by
  unfold lexeme?
  split <;> simp_all

/-- Pieces without a token are gaps. -/
theorem lexemesOf_eq_nil :
    lexemesOf parameters offset pieces = [] ↔ ∀ piece ∈ pieces, piece.kind = .gap := by
  induction pieces generalizing parameters offset with
  | nil => simp [lexemesOf]
  | cons piece pieces ih =>
    rw [lexemesOf, List.append_eq_nil_iff, ih, List.forall_mem_cons, Option.toList_eq_nil_iff,
      lexeme?_eq_none]

theorem parametersOf_of_gaps (h : ∀ piece ∈ pieces, piece.kind = .gap) :
    parametersOf pieces = 0 := by
  refine List.countP_eq_zero.mpr fun piece hmem => ?_
  simp [h piece hmem]

theorem gap_textOf {dialect : Dialect} (hclosed : Closed dialect pieces)
    (h : ∀ piece ∈ pieces, piece.kind = .gap) : Gap dialect (textOf pieces) := by
  induction hclosed with
  | nil => exact .nil
  | cons hgap _ ih =>
    rw [List.forall_mem_cons] at h
    exact (hgap h.1).append (ih h.2)

/-- The piece of a word is a token. -/
theorem kind_of_lexeme? {piece : Piece} (h : piece.lexeme? parameters offset = some lexeme)
    (hbare : lexeme.token.isBare) : piece.kind = .token lexeme.token := by
  unfold lexeme? at h
  split at h
  · cases h
  · rename_i token hkind
    cases h
    exact hkind
  · cases h
    cases hbare

/-- Behind the piece of the last token there are gaps only. -/
theorem exists_gaps_of_lexemesOf {front : List Lexeme}
    (h : lexemesOf parameters offset pieces = front ++ [lexeme]) :
    ∃ init piece gaps, pieces = init ++ [piece] ++ gaps ∧
      piece.lexeme? (parameters + parametersOf init) (offset + byteLength (textOf init)) =
        some lexeme ∧
      lexemesOf parameters offset (init ++ [piece]) = front ++ [lexeme] ∧
      ∀ piece ∈ gaps, piece.kind = .gap := by
  obtain ⟨init, piece, gaps, rfl, hinit, hpiece⟩ := exists_piece_of_lexemesOf h
  have hupto : lexemesOf parameters offset (init ++ [piece]) = front ++ [lexeme] := by
    rw [lexemesOf_append, hinit, lexemesOf, hpiece]
    rfl
  rw [List.append_cons, lexemesOf_append, hupto, List.append_right_eq_self] at h
  exact ⟨init, piece, gaps, List.append_cons .., hpiece, hupto, lexemesOf_eq_nil.mp h⟩

end Piece

namespace Lexer

variable {lexer : Lexer} {pieces : List Piece} {before name after : List Char}
  {front back : List Lexeme} {word lexeme : Lexeme}

/-- The text of a name is the name. -/
theorem Cuts.text_of_name {text : List Char}
    (h : lexer.Cuts (⟨text, .token (.name (String.ofList name))⟩ :: pieces)) : text = name := by
  cases h with
  | cons hpiece _ =>
    obtain hgap | hspelled := lexer.piece_spelled hpiece
    · cases hgap
    · cases hspelled with
      | token hspelled =>
        generalize hsame : String.ofList name = whole at hspelled
        cases hspelled with
        | name => simpa using congrArg String.toList hsame.symm

/-- A name behind another word is a piece of its own, with gaps in front of it. -/
theorem Cuts.exists_name (h : lexer.Cuts pieces) (htext : textOf pieces = before ++ name ++ after)
    (hlexemes : lexemesOf 0 0 pieces = front ++ word :: lexeme :: back)
    (hword : word.token.isBare) (hname : lexeme.token = .name (String.ofList name))
    (hplace : lexeme.span.start = byteLength before) :
    ∃ left gaps right, pieces = left ++ gaps ++ ⟨name, .token lexeme.token⟩ :: right ∧
      gaps ≠ [] ∧ (∀ piece ∈ gaps, piece.kind = .gap) ∧ textOf (left ++ gaps) = before ∧
      textOf right = after ∧ lexemesOf 0 0 left = front ++ [word] ∧
      back = lexemesOf (parametersOf left) (byteLength (before ++ name)) right := by
  have hbare : lexeme.token.isBare := by
    rw [hname]
    rfl
  rw [← List.singleton_append, ← List.append_assoc] at hlexemes
  obtain ⟨init, ⟨text, kind⟩, right, rfl, hinit, hpiece⟩ := exists_piece_of_lexemesOf hlexemes
  obtain rfl : kind = .token lexeme.token := kind_of_lexeme? hpiece hbare
  -- the name starts where the first part of the text ends
  have hlength : byteLength (textOf init) = byteLength before := by
    rw [← hplace, span_of_lexeme? hpiece, Nat.zero_add]
  rw [textOf_append, List.append_assoc before] at htext
  obtain ⟨hbefore, hrest⟩ := append_inj_of_byteLength htext hlength
  have hbehind := h.right
  rw [hname] at hbehind
  obtain rfl := hbehind.text_of_name
  rw [lexemesOf_append, hinit, lexemesOf, hpiece, hbefore] at hlexemes
  have hback := List.append_cancel_left hlexemes
  obtain ⟨left, ⟨wordText, wordKind⟩, gaps, rfl, hwordPiece, hupto, hgaps⟩ :=
    exists_gaps_of_lexemesOf hinit
  obtain rfl : wordKind = .token word.token := kind_of_lexeme? hwordPiece hword
  refine ⟨_, gaps, right, rfl, ?_, hgaps, hbefore, List.append_cancel_left hrest, hupto, ?_⟩
  · rw [List.append_assoc, List.append_assoc] at h
    exact h.right.gap_ne_nil hword hbare
  · rw [parametersOf_append, parametersOf_of_gaps hgaps] at hback
    simpa [parametersOf, byteLength_append] using (List.cons.inj hback).2.symm

/-- Behind a gap, the tokens in front of it stay, whatever text follows. -/
theorem Cuts.lexemes_behind_gap {left gaps right : List Piece}
    (h : lexer.Cuts (left ++ gaps ++ right)) (hright : right ≠ []) (hne : gaps ≠ [])
    (hgaps : ∀ piece ∈ gaps, piece.kind = .gap) {rest : List Char} {lexemes : List Lexeme}
    (hrest : lexer.lexemesFrom (parametersOf left) (byteLength (textOf (left ++ gaps))) 0 rest =
      .ok lexemes) :
    lexer.lexemes (textOf (left ++ gaps) ++ rest) = .ok (lexemesOf 0 0 left ++ lexemes) := by
  rw [List.append_assoc] at h
  have hclosed : Closed lexer.dialect gaps := h.right.closed hright
  obtain ⟨c, text, hgap⟩ := List.exists_cons_of_ne_nil (h.right.left.textOf_ne_nil hne)
  have hstarts : StartsWithin (!isBlank ·) (textOf (gaps ++ right)) (textOf gaps ++ rest) := by
    rw [textOf_append, hgap]
    exact fun d hd _ => hd
  rw [textOf_append, List.append_assoc]
  refine (h.lexemesFrom_refill (h.closed (by simp [hright])) hstarts 0 0).mpr ⟨lexemes, ?_, rfl⟩
  rw [lexer.lexemesFrom_gap (gap_textOf hclosed hgaps), Nat.zero_add, Nat.zero_add,
    ← byteLength_append, ← textOf_append, hrest]

/-- **A name behind another word can be replaced by another name**: the tokens in front of it stay
the same ones, and those behind it are those of the same pieces from another byte on. -/
theorem lexemes_replaced {first : Char} {others : List Char}
    (h : lexer.lexemes (before ++ name ++ after) = .ok (front ++ word :: lexeme :: back))
    (hword : word.token.isBare) (hname : lexeme.token = .name (String.ofList name))
    (hplace : lexeme.span.start = byteLength before)
    (hother : ∀ rest, (∀ d, rest.head? = some d → isNameChar d = false) →
      lexer.piece first (others ++ rest) =
        .ok ⟨first :: others, .token (.name (String.ofList (first :: others)))⟩) :
    ∃ left right n, lexer.Cuts left ∧ lexer.Cuts right ∧ textOf left = before ∧
      textOf right = after ∧ lexemesOf 0 0 left = front ++ [word] ∧
      back = lexemesOf n (byteLength (before ++ name)) right ++
        [endOf after (byteLength (before ++ name))] ∧
      lexer.lexemes (before ++ (first :: others) ++ after) =
        .ok (front ++ word ::
          ⟨.name (String.ofList (first :: others)),
            ⟨byteLength before, byteLength (before ++ first :: others)⟩⟩ ::
          (lexemesOf n (byteLength (before ++ first :: others)) right ++
            [endOf after (byteLength (before ++ first :: others))])) := by
  obtain ⟨pieces, hcuts, htext, hlexemes⟩ := lexemes_eq_ok.mp h
  -- the end of the text stands behind the name
  obtain ⟨tokens, stop, rfl⟩ : ∃ tokens stop, back = tokens ++ [stop] := by
    obtain rfl | hback := back.eq_nil_or_concat'
    · have hlast : lexeme = endOf (before ++ name ++ after) 0 := by
        simpa using congrArg List.getLast? hlexemes
      rw [hlast] at hname
      cases hname
    · exact hback
  have hsplit : front ++ word :: lexeme :: (tokens ++ [stop]) =
      front ++ word :: lexeme :: tokens ++ [stop] := by simp
  rw [hsplit] at hlexemes
  obtain ⟨hlexemes, hstop⟩ := List.append_inj' hlexemes rfl
  obtain ⟨left, gaps, right, rfl, hne, hgaps, hbefore, hafter, hleft, rfl⟩ :=
    hcuts.exists_name htext hlexemes.symm hword hname hplace
  have hbare : lexeme.token.isBare := by
    rw [hname]
    rfl
  have hpiece := hother after fun d hd => hcuts.right.not_nameChar hbare (hafter.symm ▸ hd)
  have hright : lexer.Cuts right := by
    cases hcuts.right with
    | cons _ hrest => exact hrest
  refine ⟨left ++ gaps, right, parametersOf left, hcuts.left, hright, hbefore, hafter, ?_, ?_, ?_⟩
  · rw [lexemesOf_append, hleft, lexemesOf_eq_nil.mpr hgaps, List.append_nil]
  · rw [(List.cons.inj hstop).1, endOf_append, Nat.zero_add]
  · have hbehind := hcuts.lexemes_behind_gap (List.cons_ne_nil _ _) hne hgaps
      ((lexemesFrom_piece_eq_ok hpiece).mpr ⟨_, lexemesFrom_eq_ok.mpr ⟨right, hright, hafter, rfl⟩,
        rfl⟩)
    rw [hleft, hbefore, List.append_assoc] at hbehind
    rw [byteLength_append, List.append_assoc]
    exact hbehind

end Lexer

end SqlFront
