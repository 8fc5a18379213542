import SqlFront.Parse
import SqlFront.Proofs.Conditions
import SqlFront.Proofs.StoredParts

/-!
Where `AND` and `OR` remain in what a batch stores, outside of conditions in normal form.

A condition that is written in place of an expression is stored as it is built. Its connectives
stay at its top: a value never has one in it.
-/

namespace SqlFront

open Build

namespace Expr

/-- `AND` or `OR`. -/
def isConnective (e : Expr) : Bool := e.isAnd || e.isOr

theorem IsValue.not_isConnective {e : Expr} (h : e.IsValue) :
    ∀ inner : Expr, inner.Within e → inner.isConnective = false := by
  intro inner hinner
  simp [isConnective, (h inner hinner).isAnd, (h inner hinner).isOr]

/-- A connective lies within a condition only below connectives, so the condition is one itself. -/
theorem IsAtom.not_isConnective {e : Expr} (h : e.IsAtom) :
    ∀ inner : Expr, inner.Within e → inner.isConnective = false := by
  intro inner hinner
  cases hinner with
  | self =>
    cases e with
    | and => cases h.isLeaf
    | or => cases h.isLeaf
    | _ => rfl
  | part hpart hinner => exact (h.operands _ hpart).not_isConnective inner hinner

/-- A connective lies within what a tree builds exactly where the whole of it is a connective. -/
theorem Formed.connective_iff {e : Expr} (h : e.Formed) :
    (∃ inner : Expr, inner.Within e ∧ inner.isConnective) ↔ e.isConnective := by
  constructor
  · rintro ⟨inner, hinner, hconnective⟩
    rcases h with h | h
    · unfold IsCondition at h
      split at h
      · rfl
      · rfl
      · rw [h.not_isConnective inner hinner] at hconnective
        cases hconnective
    · rw [h.not_isConnective inner hinner] at hconnective
      cases hconnective
  · intro hconnective
    exact ⟨e, .self, hconnective⟩

/-- A name changes an alias only. -/
theorem Formed.named {e : Expr} (h : e.Formed) (aliasName : String) :
    (Build.named aliasName e).Formed := by
  cases e with
  | column a c => exact .inr (IsOperation.isValue ⟨rfl, rfl, rfl⟩ rfl)
  | _ => exact h.imp isCondition_withAlias.mpr isValue_withAlias.mpr

end Expr

theorem Build.Context.StoresExpression.formed {context : Context} {tree : Tree} {e : Expr}
    (h : context.StoresExpression tree e) : e.Formed := by
  obtain ⟨part, built, hbuilt, rfl | ⟨aliasName, rfl⟩⟩ := h
  · exact context.buildsFormed part e hbuilt
  · exact (context.buildsFormed part built hbuilt).named aliasName

namespace Config

/-- **A connective is stored outside of a normal form only as a whole expression.** Whatever a batch
stores there is a condition or a value, and a connective lies within it exactly where it is a
connective itself. -/
theorem parseBatch_connectives {config : Config} {source : Source} {queries : List Query}
    (h : config.parseBatch source = .ok queries) :
    ∀ query ∈ queries, ∀ e ∈ query.expressions, e.Formed ∧
      ((∃ inner : Expr, inner.Within e ∧ inner.isConnective) ↔ e.isConnective) := by
  intro query hquery e he
  obtain ⟨tree, -, hbatch⟩ := bind_eq_ok.mp h
  rw [mapError_eq_ok] at hbatch
  have hstored := (Context.stores_of_batch _ hbatch query hquery).expressions e he
  exact ⟨hstored.formed, hstored.formed.connective_iff⟩

/-- `SELECT a BETWEEN 1 AND 2` stores a connective, and nothing else that has one in it. -/
theorem parseBatch_connectives_of_between :
    let config := ofDialect .mysql
    let source := ['S', 'E', 'L', 'E', 'C', 'T', ' ', 'a', ' ', 'B', 'E', 'T', 'W', 'E', 'E', 'N',
      ' ', '1', ' ', 'A', 'N', 'D', ' ', '2']
    ∃ queries e, config.parseBatch source = .ok queries ∧
      queries.flatMap Query.expressions = [e] ∧ e.isConnective ∧ e.Formed := by
  intro config source
  suffices stored : ∀ queries e, config.parseBatch source = .ok queries →
      queries.flatMap Query.expressions = [e] → e.Formed from
    ⟨_, _, rfl, rfl, rfl, stored _ _ rfl rfl⟩
  intro queries e parsed expressions
  have only : e ∈ queries.flatMap Query.expressions := by simp [expressions]
  obtain ⟨query, hquery, he⟩ := List.mem_flatMap.mp only
  exact (parseBatch_connectives parsed query hquery e he).1

/-- Not every stored expression outside of a normal form is free of connectives: the item of
`SELECT a BETWEEN 1 AND 2` is an `AND`. -/
theorem parseBatch_keeps_connective :
    let config := ofDialect .mysql
    let source := ['S', 'E', 'L', 'E', 'C', 'T', ' ', 'a', ' ', 'B', 'E', 'T', 'W', 'E', 'E', 'N',
      ' ', '1', ' ', 'A', 'N', 'D', ' ', '2']
    ¬ ∀ queries, config.parseBatch source = .ok queries →
      ∀ query ∈ queries, ∀ e ∈ query.expressions, ∀ inner : Expr, inner.Within e →
        inner.isAnd = false ∧ inner.isOr = false := by
  intro config source free
  have kept : ∃ query e, config.parseBatch source = .ok [query] ∧ query.expressions = [e] ∧
      e.isAnd := ⟨_, _, rfl, rfl, rfl⟩
  obtain ⟨query, e, parsed, stored, connective⟩ := kept
  have none := free [query] parsed query (by simp) e (by simp [stored]) e .self
  rw [none.1] at connective
  cases connective

end Config

end SqlFront
