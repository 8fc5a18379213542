import Mathlib.Order.Defs.LinearOrder
import SqlFront.Proofs.Distribution
import SqlFront.Expr.Negation

/-!
What conditions mean over data with nulls: truth values with an unknown between no and yes, the
truth of an expression and of a normal form under an interpretation, and that negation and
normalization keep it.
-/

namespace SqlFront

universe u

/-- Truth values. A condition about a null is unknown. -/
inductive Truth where
  | no
  | unknown
  | yes
  deriving DecidableEq, Repr

namespace Truth

def not : Truth → Truth
  | no => yes
  | unknown => unknown
  | yes => no

def and : Truth → Truth → Truth
  | no, _ => no
  | _, no => no
  | yes, yes => yes
  | _, _ => unknown

def or : Truth → Truth → Truth
  | yes, _ => yes
  | _, yes => yes
  | no, no => no
  | _, _ => unknown

/-- The conjunction of any number of truth values. -/
def all (truths : List Truth) : Truth := truths.foldr and yes

/-- The disjunction of any number of truth values. -/
def any (truths : List Truth) : Truth := truths.foldr or no

def ofBool (b : Bool) : Truth := if b then yes else no

/-- A truth value, or its negation. -/
def signed (negated : Bool) (truth : Truth) : Truth :=
  if negated then truth.not else truth

/-- The truth of a relation between two values, which is unknown where one of them is null. -/
def compare {α : Type u} (holds : α → α → Bool) : Option α → Option α → Truth
  | some x, some y => ofBool (holds x y)
  | _, _ => unknown

@[simp]
theorem not_not (t : Truth) : t.not.not = t := by cases t <;> rfl

theorem not_and (s t : Truth) : (s.and t).not = s.not.or t.not := by cases s <;> cases t <;> rfl

theorem not_or (s t : Truth) : (s.or t).not = s.not.and t.not := by cases s <;> cases t <;> rfl

theorem or_comm (s t : Truth) : s.or t = t.or s := by cases s <;> cases t <;> rfl

theorem and_assoc (s t u : Truth) : (s.and t).and u = s.and (t.and u) := by
  cases s <;> cases t <;> cases u <;> rfl

theorem or_assoc (s t u : Truth) : (s.or t).or u = s.or (t.or u) := by
  cases s <;> cases t <;> cases u <;> rfl

/-- Distribution, which the unknown keeps. -/
theorem or_and (s t u : Truth) : s.or (t.and u) = (s.or t).and (s.or u) := by
  cases s <;> cases t <;> cases u <;> rfl

@[simp]
theorem yes_and (t : Truth) : yes.and t = t := by cases t <;> rfl

@[simp]
theorem and_yes (t : Truth) : t.and yes = t := by cases t <;> rfl

@[simp]
theorem no_or (t : Truth) : no.or t = t := by cases t <;> rfl

@[simp]
theorem or_no (t : Truth) : t.or no = t := by cases t <;> rfl

theorem signed_not (negated : Bool) (t : Truth) : t.signed (!negated) = (t.signed negated).not := by
  cases negated <;> simp [signed]

theorem all_append (left right : List Truth) :
    all (left ++ right) = (all left).and (all right) := by
  induction left with
  | nil => simp [all]
  | cons t left ih => simp only [all, List.cons_append, List.foldr_cons] at *; rw [ih, and_assoc]

theorem any_append (left right : List Truth) :
    any (left ++ right) = (any left).or (any right) := by
  induction left with
  | nil => simp [any]
  | cons t left ih => simp only [any, List.cons_append, List.foldr_cons] at *; rw [ih, or_assoc]

/-- A relation that holds exactly where another one fails is unknown where that is. -/
theorem compare_not {α : Type u} {holds fails : α → α → Bool}
    (h : ∀ x y, fails x y = !holds x y) (x y : Option α) :
    compare fails x y = (compare holds x y).not := by
  cases x with
  | none => rfl
  | some x =>
    cases y with
    | none => rfl
    | some y => cases hb : holds x y <;> simp [compare, ofBool, h, hb, not]

end Truth

/-- The relation that an operator stands for on ordered values. -/
def ComparisonOp.holds {α : Type u} [LinearOrder α] : ComparisonOp → α → α → Bool
  | equal, x, y => decide (x = y)
  | greater, x, y => decide (y < x)
  | less, x, y => decide (x < y)
  | greaterEqual, x, y => decide (y ≤ x)
  | lessEqual, x, y => decide (x ≤ y)

/-- What an expression is about: the value of each operand, or null, and the truth of each
predicate that is no comparison, before negation. -/
structure Interpretation (α : Type u) where
  value : Expr → Option α
  inList : ColumnRef → List Constant → Truth
  isNull : ColumnRef → Truth
  like : ColumnRef → Constant → Option Char → Truth

namespace Interpretation

variable {α : Type u} [LinearOrder α] (I : Interpretation α)

/-- The truth of a predicate without its flag; other expressions are no predicates. -/
def atom? : Expr → Option Truth
  | .compare _ _ op l r => some (Truth.compare op.holds (I.value l) (I.value r))
  | .inList _ _ c vs => some (I.inList c vs)
  | .isNull _ _ c => some (I.isNull c)
  | .like _ _ c p e => some (I.like c p e)
  | _ => none

/-- The truth of a condition. An expression that is no condition has none, so it is unknown. -/
def truth : Expr → Truth
  | .and _ l r => (truth l).and (truth r)
  | .or _ l r => (truth l).or (truth r)
  | e => (I.atom? e).elim .unknown (Truth.signed (e.negated?.getD false))

/-- The truth of a choice of predicates. -/
def choice (d : Disjunction) : Truth := .any (d.predicates.map I.truth)

/-- The truth of a normal form: all its clauses have to hold. -/
def ofCnf (cnf : Cnf) : Truth := .all (cnf.disjunctions.map I.choice)

@[simp]
theorem truth_withAlias (a : Option String) (e : Expr) : I.truth (e.withAlias a) = I.truth e := by
  cases e <;> rfl

/-! ### Negation -/

theorem truth_toggled {e : Expr} (hand : e.isAnd = false) (hor : e.isOr = false) :
    I.truth e.toggled = (I.truth e).not := by
  cases e with
  | and => cases hand
  | or => cases hor
  | compare a n op l r => exact Truth.signed_not n _
  | inList a n c vs => exact Truth.signed_not n _
  | isNull a n c => exact Truth.signed_not n _
  | like a n c p esc => exact Truth.signed_not n _
  | _ => rfl

/-- **The complement of an expression is its negation**, also where it is unknown. -/
theorem truth_complement (e : Expr) : I.truth e.complement = (I.truth e).not := by
  fun_induction Expr.complement e with
  | case1 a l r ihl ihr => simp only [truth, ihl, ihr, Truth.not_and]
  | case2 a l r ihl ihr => simp only [truth, ihl, ihr, Truth.not_or]
  | case3 e hand hor =>
    apply truth_toggled
    · cases e <;> first | rfl | exact absurd rfl (hand _ _ _)
    · cases e <;> first | rfl | exact absurd rfl (hor _ _ _)

/-! ### Normalization -/

theorem truth_distributeOnce (e : Expr) : I.truth e.distributeOnce = I.truth e := by
  fun_induction Expr.distributeOnce e with
  | case1 a b q s r ihq ihs =>
    simp only [truth] at ihq ihs ⊢
    rw [ihq, ihs, ← Truth.or_and, Truth.or_comm]
  | case2 a l b q s h ihq ihs =>
    simp only [truth] at ihq ihs ⊢
    rw [ihq, ihs, ← Truth.or_and]
  | case3 a l r h h' ihl ihr => simp only [truth, ihl, ihr]
  | case4 a l r ihl ihr => simp only [truth, ihl, ihr]
  | case5 => rfl

theorem truth_toCnf (e : Expr) : I.truth e.toCnf = I.truth e := by
  fun_induction Expr.toCnf e with
  | case1 => rfl
  | case2 e h ih => rw [ih, truth_distributeOnce]

theorem any_disjuncts (e : Expr) : Truth.any (e.disjuncts.map I.truth) = I.truth e := by
  fun_induction Expr.disjuncts e with
  | case1 a l r ihl ihr => rw [List.map_append, Truth.any_append, ihl, ihr, truth]
  | case2 e => simp [Truth.any]

theorem all_clauses (e : Expr) : Truth.all (e.clauses.map I.choice) = I.truth e := by
  fun_induction Expr.clauses e with
  | case1 a l r ihl ihr => rw [List.map_append, Truth.all_append, ihl, ihr, truth]
  | case2 e => simp [Truth.all, choice, any_disjuncts]

/-- **Normalization keeps the truth** of every expression. -/
theorem ofCnf_normalize (e : Expr) : I.ofCnf e.normalize = I.truth e := by
  rw [ofCnf, Expr.normalize, all_clauses, truth_toCnf]

end Interpretation

end SqlFront
