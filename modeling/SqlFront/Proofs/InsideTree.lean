import SqlFront.Proofs.Derivation
import SqlFront.Proofs.TreeInduction

/-!
Trees inside a tree, and what these have from it.
-/

namespace SqlFront

namespace Tree

theorem Inside.trans {inner middle outer : Tree} (h : inner.Inside middle)
    (hmiddle : middle.Inside outer) : inner.Inside outer := by
  induction hmiddle with
  | self => exact h
  | part hmem _ ih => exact .part hmem ih

theorem Inside.of_mem {inner outer : Tree} (h : inner ∈ outer.children) : inner.Inside outer := by
  cases outer with
  | leaf lexeme => cases h
  | node rule span children => exact .part h .self

/-- All trees inside a derivation are derivations. -/
theorem IsDerivation.inside {inner outer : Tree} (h : outer.IsDerivation)
    (hinside : inner.Inside outer) : inner.IsDerivation := by
  induction hinside with
  | self => exact h
  | part hmem _ ih =>
    cases h with
    | node _ _ hparts => exact ih (hparts _ hmem)

theorem nesting_le_nestingOfChain {child : Tree} {children : List Tree} (h : child ∈ children) :
    child.nesting ≤ nestingOfChain children := by
  induction children with
  | nil => cases h
  | cons first children ih =>
    rw [nestingOfChain]
    rcases List.mem_cons.mp h with rfl | h
    · cases child with
      | leaf lexeme => exact Nat.zero_le _
      | node rule span children => exact Nat.le_max_left _ _
    · split
      · exact Nat.le_succ_of_le (ih h)
      · exact Nat.le_trans (ih h) (Nat.le_max_right _ _)

/-- A tree opens all levels that its parts open. -/
theorem nesting_le_of_mem {rule : Rule} {span : Span} {child : Tree} {children : List Tree}
    (h : child ∈ children) : child.nesting ≤ (node rule span children).nesting := by
  have hplain := nestingOf_le.mp (Nat.le_refl _) child h
  cases rule with
  | additiveExpr | multiplicativeExpr => exact nesting_le_nestingOfChain h
  | notExpr | unaryExpr | parenExpr | expressionList | subquery => exact Nat.le_succ_of_le hplain
  | functionCall =>
    rw [nesting]
    split
    · exact Nat.le_succ_of_le hplain
    · exact hplain
  | _ => exact hplain

theorem Inside.nesting_le {inner outer : Tree} (h : inner.Inside outer) :
    inner.nesting ≤ outer.nesting := by
  induction h with
  | self => exact Nat.le_refl _
  | part hmem _ ih => exact Nat.le_trans ih (nesting_le_of_mem hmem)

/-- What holds of a tree when it holds of every tree inside its parts holds of all trees. -/
theorem induct_inside {motive : Tree → Prop}
    (step : ∀ tree, (∀ child ∈ tree.children, ∀ inner, inner.Inside child → motive inner) →
      motive tree) (tree : Tree) : motive tree := by
  suffices all : ∀ inner, inner.Inside tree → motive inner from all tree .self
  induction tree using Tree.induct with
  | leaf lexeme =>
    rintro inner ⟨⟩
    exact step _ (by simp [children])
  | node rule span children ih =>
    intro inner hinside
    cases hinside with
    | self => exact step _ ih
    | part hmem hinside => exact ih _ hmem inner hinside

end Tree

end SqlFront
