import SqlFront.Proofs.Tiling
import Mathlib.Data.List.Induction

/-!
Places in a text, by byte and by line and column.

A line ends with its end of line, wherever that stands, and columns count characters, while places
count bytes. The positions of the places between characters are in the order of the places all the
same, so a position is that of one place only.
-/

namespace SqlFront

namespace Position

/-- In front of another position: on an earlier line, or further left on the same one. -/
def Before (here there : Position) : Prop :=
  here.line < there.line ∨ here.line = there.line ∧ here.column < there.column

theorem Before.trans {here there beyond : Position} (h : here.Before there)
    (hbeyond : there.Before beyond) : here.Before beyond := by
  unfold Before at *
  omega

theorem Before.ne {here there : Position} (h : here.Before there) : here ≠ there := by
  rintro rfl
  unfold Before at h
  omega

theorem advance_append (here : Position) (left right : List Char) :
    here.advance (left ++ right) = (here.advance left).advance right := by
  induction left generalizing here with
  | nil => rfl
  | cons c left ih =>
    rw [List.cons_append, advance, advance]
    split
    · exact ih _
    · exact ih _

theorem before_advance_single (here : Position) (c : Char) : here.Before (here.advance [c]) := by
  simp only [advance]
  split
  · exact .inl (Nat.lt_succ_self _)
  · exact .inr ⟨rfl, Nat.lt_succ_self _⟩

/-- Every character is a step forward. -/
theorem before_advance (here : Position) {text : List Char} (h : text ≠ []) :
    here.Before (here.advance text) := by
  obtain ⟨c, rest, rfl⟩ := List.exists_cons_of_ne_nil h
  clear h
  induction rest generalizing here c with
  | nil => exact before_advance_single here c
  | cons d rest ih =>
    have first : here.advance (c :: d :: rest) = (here.advance [c]).advance (d :: rest) :=
      advance_append here [c] (d :: rest)
    rw [first]
    exact (before_advance_single here c).trans (ih _ d)

/-- Lines are counted by the ends of line in front of the place, and columns by the characters after
the last of these. -/
theorem advance_start (text : List Char) : advance ⟨1, 1⟩ text =
    ⟨text.count '\n' + 1, (text.reverse.takeWhile (· ≠ '\n')).length + 1⟩ := by
  induction text using List.reverseRecOn with
  | nil => rfl
  | append_singleton text c ih =>
    rw [advance_append, ih, advance]
    split
    · rename_i hline
      simp [hline, advance]
    · rename_i hline
      simp [hline, advance]

end Position

namespace Source

variable {source : Source} {offset other : Nat}

theorem position_of_append (before after : List Char) :
    Source.position (before ++ after) (byteLength before) = Position.advance ⟨1, 1⟩ before := by
  rw [position, takeBytes_append after (Nat.le_refl _), takeBytes_byteLength, Option.getD_some]

theorem IsBoundary.le (h : source.IsBoundary offset) : offset ≤ byteLength source := by
  obtain ⟨before, after, rfl, rfl⟩ := h
  rw [byteLength_append]
  exact Nat.le_add_right _ _

/-- **Positions are in the order of places.** -/
theorem IsBoundary.position_before (h : source.IsBoundary offset) (hother : source.IsBoundary other)
    (hlt : offset < other) : (source.position offset).Before (source.position other) := by
  obtain ⟨before, after, rfl, rfl⟩ := h
  obtain ⟨front, back, hsplit, rfl⟩ := hother
  rw [position_of_append, hsplit, position_of_append]
  rcases List.append_eq_append_iff.mp hsplit with ⟨more, rfl, -⟩ | ⟨more, rfl, -⟩
  · rw [Position.advance_append]
    refine Position.before_advance _ ?_
    rintro rfl
    simp at hlt
  · rw [byteLength_append] at hlt
    omega

/-- A position is that of one place. -/
theorem IsBoundary.eq_of_position (h : source.IsBoundary offset) (hother : source.IsBoundary other)
    (hsame : source.position other = source.position offset) : other = offset := by
  rcases Nat.lt_trichotomy other offset with hlt | rfl | hlt
  · exact absurd hsame (hother.position_before h hlt).ne
  · rfl
  · exact absurd hsame.symm (h.position_before hother hlt).ne

end Source

end SqlFront
