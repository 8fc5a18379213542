import SqlFront.Proofs.Cutting
import SqlFront.Proofs.Parallel

/-!
One text in two sources.

A text that stands in two sources has the same tokens in both of them, apart from their places and
from the numbers of placeholders.
-/

namespace SqlFront

open Piece

namespace Parallel

/-- A text that stands in two sources, and what it stands for in each of them. -/
def ofPart {config larger : Config} (hlimits : config.AtMost larger) {source source' : Source}
    {offset offset' : Nat} {text : List Char} (hsource : source.HasAt offset text)
    (hsource' : source'.HasAt offset' text) (view view' : View)
    (haliases : view.aliasName = view'.aliasName) : Parallel where
  left := { config, source }
  right := { config := larger, source := source' }
  leftView := view
  rightView := view'
  Ranges := Span.Corresponds offset offset' (byteLength text)
  limits := hlimits
  decimals := Build.Context.decimals_eq config larger source source'
  hexDigits := Build.Context.hexDigits_eq config larger source source'
  aliases := haliases
  join := .join
  slice h := by rw [haliases, h.slice_eq hsource hsource']

variable {p : Parallel}

/-- The tokens of a text that stands in both sources are related. -/
theorem lexemesOf_rel {pieces : List Piece} {n n' offset offset' : Nat}
    (hleft : p.left.source.HasAt offset (textOf pieces))
    (hright : p.right.source.HasAt offset' (textOf pieces))
    (hranges : ∀ low high, high ≤ byteLength (textOf pieces) →
      p.Ranges ⟨offset + low, offset + high⟩ ⟨offset' + low, offset' + high⟩)
    (hlabels : ∀ k < parametersOf pieces, p.leftView.label ("?" ++ toString (n + k + 1)) =
      p.rightView.label ("?" ++ toString (n' + k + 1)))
    (hothers : ∀ piece ∈ pieces, ∀ token, piece.kind = .token token →
      p.Alike Token.seen token token) :
    List.Forall₂ p.Lexemes (lexemesOf n offset pieces) (lexemesOf n' offset' pieces) := by
  induction pieces generalizing n n' offset offset' with
  | nil => exact .nil
  | cons piece pieces ih =>
    rw [textOf_cons] at hleft hright hranges
    rw [byteLength_append] at hranges
    rw [List.forall_mem_cons] at hothers
    rw [parametersOf_cons] at hlabels
    have htext : p.left.source.slice ⟨offset, offset + byteLength piece.text⟩ =
        p.right.source.slice ⟨offset', offset' + byteLength piece.text⟩ :=
      hleft.left.slice.trans hright.left.slice.symm
    have hrange : p.Ranges ⟨offset, offset + byteLength piece.text⟩
        ⟨offset', offset' + byteLength piece.text⟩ :=
      hranges 0 (byteLength piece.text) (Nat.le_add_right _ _)
    refine List.rel_append ?_ (ih hleft.right hright.right ?_ ?_ hothers.2)
    · unfold lexeme?
      cases hkind : piece.kind with
      | gap => exact .nil
      | token token => exact .cons ⟨hothers.1 token hkind, htext, hrange⟩ .nil
      | parameter =>
        have hpos : 0 < parametersOf [piece] := by simp [parametersOf, hkind]
        have hlabel := hlabels 0 (Nat.add_pos_left hpos _)
        exact .cons ⟨congrArg Token.placeholder hlabel, htext, hrange⟩ .nil
    · intro low high hfits
      rw [Nat.add_assoc, Nat.add_assoc, Nat.add_assoc, Nat.add_assoc]
      exact hranges _ _ (Nat.add_le_add_left hfits _)
    · intro k hk
      rw [Nat.add_assoc n, Nat.add_assoc n']
      exact hlabels _ (Nat.add_lt_add_left hk _)

/-- **A text has the same tokens in two sources**, apart from their places. -/
theorem ofPart_lexemesOf {config larger : Config} (hlimits : config.AtMost larger)
    {source source' : Source} {pieces : List Piece} {offset offset' : Nat}
    (hsource : source.HasAt offset (textOf pieces))
    (hsource' : source'.HasAt offset' (textOf pieces)) {view view' : View}
    (haliases : view.aliasName = view'.aliasName) (n n' : Nat)
    (hlabels : ∀ k < parametersOf pieces,
      view.label ("?" ++ toString (n + k + 1)) = view'.label ("?" ++ toString (n' + k + 1)))
    (hothers : ∀ piece ∈ pieces, ∀ token, piece.kind = .token token →
      token.seen view = token.seen view') :
    List.Forall₂ (ofPart hlimits hsource hsource' view view' haliases).Lexemes
      (lexemesOf n offset pieces) (lexemesOf n' offset' pieces) :=
  lexemesOf_rel hsource hsource' (fun _ _ => .of_le) hlabels hothers

end Parallel

end SqlFront
