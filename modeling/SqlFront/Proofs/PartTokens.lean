import SqlFront.Proofs.Cutting
import SqlFront.Proofs.ParseTree

/-!
The tokens of a part of a text.

Tokens that follow each other in a text are those of pieces that follow each other, and these are
the pieces of their own text, too. Only the placeholders that are numbered by their place in the
text may get other labels there.
-/

namespace SqlFront

/-- A placeholder that is written without a label. Its label is the number of its place among those
of the text. -/
def Token.isNumbered : Token → Bool
  | .placeholder label => label.toList.head? == some '?'
  | _ => false

namespace Piece

variable {parameters offset : Nat} {pieces : List Piece}

theorem parametersOf_eq_zero (h : ∀ lexeme ∈ lexemesOf parameters offset pieces,
    lexeme.token.isNumbered = false) : parametersOf pieces = 0 := by
  induction pieces generalizing parameters offset with
  | nil => rfl
  | cons piece pieces ih =>
    rw [lexemesOf, List.forall_mem_append] at h
    obtain ⟨hfirst, hrest⟩ := h
    have hpiece : parametersOf [piece] = 0 := by
      cases hkind : piece.kind with
      | parameter => simp [lexeme?, hkind, Token.isNumbered] at hfirst
      | _ => simp [parametersOf, hkind]
    rw [parametersOf_cons, hpiece, ih hrest]

end Piece

/-- **Tokens that follow each other in a text are those of a part of it.** The part starts with the
first one of them and stops with the last one. -/
theorem Lexer.pieces_of_part {lexer : Lexer} {source : Source} {left middle right : List Lexeme}
    {stop : Lexeme} (h : lexer.lexemes source = .ok (left ++ middle ++ right ++ [stop]))
    (hne : middle ≠ []) :
    ∃ n offset pieces, lexer.Cuts pieces ∧ source.HasAt offset (Piece.textOf pieces) ∧
      Piece.lexemesOf n offset pieces = middle ∧
      Tree.Bounds middle ⟨offset, offset + byteLength (Piece.textOf pieces)⟩ := by
  obtain ⟨pieces, hcuts, rfl, hlexemes⟩ := lexemes_eq_ok.mp h
  obtain ⟨htokens, -⟩ := List.append_inj' hlexemes rfl
  obtain ⟨before, inner, after, rfl, hinner, hfirst, hlast⟩ :=
    Piece.exists_pieces_of_lexemesOf hne htokens.symm
  simp only [Nat.zero_add] at hfirst hlast hinner
  refine ⟨_, _, inner, hcuts.left.right, ⟨Piece.textOf before, Piece.textOf after, by simp, rfl⟩,
    hinner, ?_⟩
  refine ⟨middle.head hne, middle.getLast hne, List.head?_eq_some_head hne,
    List.getLast?_eq_some_getLast hne, ?_⟩
  rw [hfirst _ (List.head?_eq_some_head hne), hlast _ (List.getLast?_eq_some_getLast hne)]

end SqlFront
