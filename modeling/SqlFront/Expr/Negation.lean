import SqlFront.Error
import SqlFront.Expr.Basic

/-!
Negation of expressions: predicates change their flag, and conjunctions and disjunctions change
into each other.
-/

namespace SqlFront.Expr

/-- Changes the flag of a predicate; other expressions stay as they are. -/
def toggled : Expr → Expr
  | compare a n op l r => compare a (!n) op l r
  | inList a n c vs => inList a (!n) c vs
  | isNull a n c => isNull a (!n) c
  | like a n c p e => like a (!n) c p e
  | e => e

/-- Changes the flag of every predicate under `AND` and `OR`, and each of these into the
other. -/
def complement : Expr → Expr
  | and a l r => or a (complement l) (complement r)
  | or a l r => and a (complement l) (complement r)
  | e => e.toggled

/-- The negation of a condition; a value has none. -/
def negate (e : Expr) : Except SemanticCause Expr :=
  if e.isPredicate then .ok e.complement else .error (.notNegatable e.kindName)

@[simp]
theorem toggled_toggled (e : Expr) : e.toggled.toggled = e := by
  cases e <;> simp [toggled]

end SqlFront.Expr
