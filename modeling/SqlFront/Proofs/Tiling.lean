import SqlFront.Parse
import SqlFront.Proofs.Gaps

/-!
How the tokens of a text lie in it.

The tokens and the gaps between them follow each other from the first character of the text to the
last. No place between two of them lies inside a character, and no gap holds anything but blanks
and comments.
-/

namespace SqlFront

open Piece

/-- A place in front of a character of the text, or at its end. -/
def Source.IsBoundary (source : Source) (offset : Nat) : Prop :=
  ∃ before after, source = before ++ after ∧ offset = byteLength before

/-- The range is that of a part of the text, and these are its characters. -/
def Source.Covers (source : Source) (span : Span) (text : List Char) : Prop :=
  ∃ before after, source = before ++ text ++ after ∧
    span = ⟨byteLength before, byteLength before + byteLength text⟩

namespace Source.Covers

variable {source : Source} {span : Span} {text : List Char}

theorem boundaries (h : source.Covers span text) :
    source.IsBoundary span.start ∧ source.IsBoundary span.stop := by
  obtain ⟨before, after, rfl, rfl⟩ := h
  refine ⟨⟨before, text ++ after, List.append_assoc .., rfl⟩, before ++ text, after, rfl, ?_⟩
  rw [byteLength_append]

theorem stop_le (h : source.Covers span text) : span.stop ≤ byteLength source := by
  obtain ⟨before, after, rfl, rfl⟩ := h
  rw [byteLength_append, byteLength_append]
  exact Nat.le_add_right _ _

end Source.Covers

/-- The ranges in front of the tokens, from a place on. -/
def gapsBefore (start : Nat) : List Lexeme → List Span
  | [] => []
  | lexeme :: lexemes => ⟨start, lexeme.span.start⟩ :: gapsBefore lexeme.span.stop lexemes

/-- The range in front of a token holds a gap, which the end of the text may cut short. -/
def GapBefore (dialect : Dialect) (source : Source) (lexeme : Lexeme) (span : Span) : Prop :=
  ∃ text, source.Covers span text ∧
    if lexeme.token = .eof then LastGap dialect text else Gap dialect text

/-- The token is written at its range. -/
def Lexeme.WrittenIn (source : Source) (lexeme : Lexeme) : Prop :=
  ∃ text, source.Covers lexeme.span text ∧ lexeme.token.Spelled text

/-- The tokens tile a text. The last of them is its end, at the length of the text. All others cover
a part of it that is not empty and has no half of a character at either end; they lie apart from
each other and in order, and each of them is spelled by the part that it covers. In front of each
token, and of the end, there are only blanks and comments. -/
def Source.TiledBy (source : Source) (dialect : Dialect) (lexemes : List Lexeme) : Prop :=
  ∃ tokens, lexemes = tokens ++ [⟨.eof, ⟨byteLength source, byteLength source⟩⟩] ∧
    (∀ lexeme ∈ tokens, lexeme.token ≠ .eof ∧ lexeme.span.start < lexeme.span.stop ∧
      lexeme.span.stop ≤ byteLength source ∧
      source.IsBoundary lexeme.span.start ∧ source.IsBoundary lexeme.span.stop ∧
      lexeme.WrittenIn source) ∧
    (tokens.Pairwise fun left right => left.span.stop ≤ right.span.start) ∧
    List.Forall₂ (GapBefore dialect source) lexemes (gapsBefore 0 lexemes)

theorem Piece.exists_lexeme? (piece : Piece) (parameters offset : Nat) (h : piece.kind ≠ .gap) :
    ∃ lexeme, piece.lexeme? parameters offset = some lexeme := by
  unfold lexeme?
  split
  · contradiction
  · exact ⟨_, rfl⟩
  · exact ⟨_, rfl⟩

/-- The text of a piece stands for its token. -/
theorem Piece.spelled_of_lexeme? {parameters offset : Nat} {lexeme : Lexeme} {piece : Piece}
    (hpiece : piece.kind = .gap ∨ piece.Spelled)
    (h : piece.lexeme? parameters offset = some lexeme) : lexeme.token.Spelled piece.text := by
  rcases hpiece with hgap | hspelled
  · rw [lexeme?, hgap] at h
    cases h
  · cases hspelled with
    | token htoken =>
      cases h
      exact htoken
    | parameter =>
      cases h
      exact .numbered

namespace Lexer

variable {lexer : Lexer} {pieces : List Piece} {source : Source}

/-- The pieces of a text are gaps, and tokens that are taken by the scanners. -/
theorem Cuts.scanned (h : lexer.Cuts pieces) :
    ∀ piece ∈ pieces, piece.kind = .gap ∨ ∃ input, Scanned input piece := by
  induction h with
  | nil => simp
  | cons hpiece _ ih =>
    exact List.forall_mem_cons.mpr ⟨(lexer.scanned_of_piece hpiece).imp_right (⟨_, ·⟩), ih⟩

theorem Cuts.spelled (h : lexer.Cuts pieces) :
    ∀ piece ∈ pieces, piece.kind = .gap ∨ piece.Spelled := by
  intro piece hmem
  rcases h.scanned piece hmem with hgap | ⟨input, hscanned⟩
  · exact .inl hgap
  · exact .inr hscanned.spelled

/-- The tokens of a text are written in it where they stand. -/
theorem Cuts.writtenIn (h : lexer.Cuts pieces) :
    ∀ lexeme ∈ lexemesOf 0 0 pieces, lexeme.WrittenIn (textOf pieces) := by
  intro lexeme hmem
  obtain ⟨left, right, hsplit⟩ := List.append_of_mem hmem
  obtain ⟨before, piece, after, rfl, -, hpiece⟩ := exists_piece_of_lexemesOf hsplit
  have hspelled := h.spelled piece (List.mem_append_cons_self)
  refine ⟨piece.text, ⟨textOf before, textOf after, by simp, ?_⟩,
    spelled_of_lexeme? hspelled hpiece⟩
  rw [span_of_lexeme? hpiece, Nat.zero_add]

/-- In front of every token there is a gap. The text in front of the pieces ends with a gap as well,
which belongs to the first of their tokens. -/
theorem Cuts.forall_gapsBefore {before gap : List Char} {start offset : Nat} (h : lexer.Cuts pieces)
    (hsource : source = before ++ gap ++ textOf pieces) (hgap : Gap lexer.dialect gap)
    (hstart : start = byteLength before) (hoffset : offset = start + byteLength gap)
    (parameters : Nat) :
    List.Forall₂ (GapBefore lexer.dialect source)
      (lexemesOf parameters offset pieces ++ [endOf (textOf pieces) offset])
      (gapsBefore start
        (lexemesOf parameters offset pieces ++ [endOf (textOf pieces) offset])) := by
  induction h generalizing before gap start offset parameters with
  | nil =>
    subst hstart hoffset
    exact .cons ⟨gap, ⟨before, [], hsource, rfl⟩, .closed hgap⟩ .nil
  | @cons c text kind pieces hpiece hrest ih =>
    have hoffset' : offset + byteLength (c :: text) = start + byteLength (gap ++ c :: text) := by
      rw [hoffset, byteLength_append, Nat.add_assoc]
    rw [lexemesOf, textOf_cons, endOf_append, List.append_assoc]
    by_cases hkind : kind = .gap
    · -- the piece joins the gap that is still open
      subst hkind
      rcases lexer.gap_of_piece hpiece with htext | ⟨htext, hnil⟩
      · exact ih (by simp [hsource]) (hgap.append htext) hstart hoffset' _
      · cases hrest with
        | cons _ _ => simp at hnil
        | nil =>
          rw [hoffset']
          subst hstart
          exact .cons ⟨gap ++ c :: text, ⟨before, [], by simp [hsource], rfl⟩,
            .unclosed hgap htext⟩ .nil
    · obtain ⟨lexeme, hlexeme⟩ := exists_lexeme? ⟨c :: text, kind⟩ parameters offset hkind
      have hspan := span_of_lexeme? hlexeme
      have hspelled := spelled_of_lexeme? (lexer.piece_spelled hpiece) hlexeme
      have hcovers : source.Covers ⟨start, offset⟩ gap :=
        ⟨before, c :: text ++ textOf pieces, by simp [hsource], by rw [hoffset, hstart]⟩
      have htail : offset + byteLength (c :: text) = byteLength (before ++ gap ++ c :: text) := by
        rw [byteLength_append, byteLength_append, hoffset, hstart]
      rw [hlexeme, Option.toList_some, List.singleton_append, gapsBefore, hspan]
      refine .cons ⟨gap, hcovers, ?_⟩ (ih (by simp [hsource]) .nil htail rfl _)
      rwa [if_neg hspelled.ne_eof]

/-- The tokens of a text tile it, up to its end. -/
theorem tiledBy_of_lexemes {lexemes : List Lexeme} (h : lexer.lexemes source = .ok lexemes) :
    source.TiledBy lexer.dialect lexemes := by
  obtain ⟨pieces, hcuts, rfl, rfl⟩ := lexemes_eq_ok.mp h
  obtain ⟨tokens, stop, hsplit, hspaced⟩ := lexer.lexemes_spaced h
  obtain ⟨rfl, -⟩ := List.append_inj' hsplit rfl
  refine ⟨_, by simp [endOf], fun lexeme hmem => ?_, hspaced.apart, ?_⟩
  · obtain ⟨text, hcovers, hspelled⟩ := hcuts.writtenIn lexeme hmem
    exact ⟨hspaced.proper lexeme hmem, hspaced.filled lexeme hmem, hcovers.stop_le,
      hcovers.boundaries.1, hcovers.boundaries.2, text, hcovers, hspelled⟩
  · have hsource : textOf pieces = [] ++ [] ++ textOf pieces := rfl
    exact hcuts.forall_gapsBefore hsource .nil rfl rfl 0

end Lexer

end SqlFront
