import SqlFront.Error
import SqlFront.Expr.Render

/-!
Conjunctive normal form: conditions as clauses, each of them a choice of predicates, and the way
of a condition into that form by distribution.

A pass turns `(q AND r) OR s` into `(s OR q) AND (s OR r)`, and `s OR (q AND r)` likewise, and
goes on inside the result. Passes are repeated until no `AND` is left under an `OR`. Each of them
keeps what the condition means and makes its weight smaller.
-/

namespace SqlFront

/-- Predicates of which one has to hold. -/
structure Disjunction where
  predicates : List Expr

/-- Clauses that all have to hold. -/
structure Cnf where
  disjunctions : List Disjunction

namespace Disjunction

def render (d : Disjunction) : String :=
  "(" ++ joined " OR " (d.predicates.map Expr.render) ++ ")"

def same (left right : Disjunction) : Bool :=
  Expr.sameAll left.predicates right.predicates

end Disjunction

namespace Cnf

/-- All predicates, clause by clause. -/
def predicates (cnf : Cnf) : List Expr :=
  cnf.disjunctions.flatMap Disjunction.predicates

/-- The columns that the predicates refer to, clause by clause. -/
def columns (cnf : Cnf) : List ColumnRef :=
  cnf.predicates.flatMap Expr.columns

def render (cnf : Cnf) : String :=
  joined " AND " (cnf.disjunctions.map Disjunction.render)

def same (left right : Cnf) : Bool :=
  left.disjunctions.isEqv right.disjunctions Disjunction.same

end Cnf

namespace Expr

/-- No `AND` is directly under an `OR`, and so none is under an `OR` at all. -/
def isCnf : Expr → Bool
  | or _ l r => !l.isAnd && !r.isAnd && isCnf l && isCnf r
  | and _ l r => isCnf l && isCnf r
  | _ => true

/-- The number of predicates and connectives. -/
def nodes : Expr → Nat
  | and _ l r => nodes l + nodes r + 1
  | or _ l r => nodes l + nodes r + 1
  | _ => 1

/-- A measure that every distribution makes smaller: an `AND` adds, an `OR` multiplies. -/
def weight : Expr → Nat
  | and _ l r => weight l + weight r + 1
  | or _ l r => weight l * weight r
  | _ => 2

/-- One pass of distribution over an expression, from the outside inwards. A distributed `OR`
gives its alias to the `AND` that takes its place. -/
def distributeOnce : Expr → Expr
  | or a (and _ q s) r => and a (distributeOnce (or none r q)) (distributeOnce (or none r s))
  | or a l (and _ q s) => and a (distributeOnce (or none l q)) (distributeOnce (or none l s))
  | or a l r => or a (distributeOnce l) (distributeOnce r)
  | and a l r => and a (distributeOnce l) (distributeOnce r)
  | e => e
termination_by e => nodes e
decreasing_by all_goals simp only [nodes]; omega

theorem two_le_weight (e : Expr) : 2 ≤ e.weight := by
  fun_induction weight e with
  | case1 _ l r hl hr => omega
  | case2 _ l r hl hr => exact Nat.le_trans hl (Nat.le_mul_of_pos_right _ (by omega))
  | case3 => omega

/-- A distributed `OR` is lighter than before. -/
theorem weight_distribute {q s r : Nat} (hr : 2 ≤ r) :
    r * q + r * s + 1 < (q + s + 1) * r := by
  have : (q + s + 1) * r = r * q + r * s + r := by
    rw [Nat.add_mul, Nat.add_mul, Nat.one_mul, Nat.mul_comm q, Nat.mul_comm s]
  omega

theorem weight_distributeOnce_le (e : Expr) : e.distributeOnce.weight ≤ e.weight := by
  fun_induction distributeOnce e with
  | case1 a b q s r ihq ihs =>
    have := weight_distribute (q := q.weight) (s := s.weight) (two_le_weight r)
    simp only [weight] at *
    omega
  | case2 a l b q s h ihq ihs =>
    have := weight_distribute (q := q.weight) (s := s.weight) (two_le_weight l)
    simp only [weight] at *
    rw [Nat.mul_comm l.weight]
    omega
  | case3 a l r h h' ihl ihr =>
    simp only [weight]
    exact Nat.mul_le_mul ihl ihr
  | case4 a l r ihl ihr =>
    simp only [weight]
    omega
  | case5 => exact Nat.le_refl _

/-- A pass makes every expression lighter that is not in normal form. -/
theorem weight_distributeOnce_lt {e : Expr} (h : e.isCnf = false) :
    e.distributeOnce.weight < e.weight := by
  fun_induction distributeOnce e with
  | case1 a b q s r ihq ihs =>
    have := weight_distribute (q := q.weight) (s := s.weight) (two_le_weight r)
    have hq := weight_distributeOnce_le (or none r q)
    have hs := weight_distributeOnce_le (or none r s)
    simp only [weight] at *
    omega
  | case2 a l b q s h' ihq ihs =>
    have := weight_distribute (q := q.weight) (s := s.weight) (two_le_weight l)
    have hq := weight_distributeOnce_le (or none l q)
    have hs := weight_distributeOnce_le (or none l s)
    simp only [weight] at *
    rw [Nat.mul_comm l.weight]
    omega
  | case3 a l r hl hr ihl ihr =>
    have hl' : l.isAnd = false := by
      cases l <;> first | rfl | exact absurd rfl (hl _ _ _)
    have hr' : r.isAnd = false := by
      cases r <;> first | rfl | exact absurd rfl (hr _ _ _)
    simp only [weight]
    have wl := weight_distributeOnce_le l
    have wr := weight_distributeOnce_le r
    have pl := two_le_weight l
    have pr := two_le_weight r.distributeOnce
    simp only [isCnf, hl', hr', Bool.not_false, Bool.true_and, Bool.and_eq_false_iff] at h
    rcases h with h | h
    · exact Nat.lt_of_lt_of_le (Nat.mul_lt_mul_of_pos_right (ihl h) (by omega))
        (Nat.mul_le_mul_left _ wr)
    · exact Nat.lt_of_le_of_lt (Nat.mul_le_mul_right _ wl)
        (Nat.mul_lt_mul_of_pos_left (ihr h) (by omega))
  | case4 a l r ihl ihr =>
    simp only [isCnf, Bool.and_eq_false_iff] at h
    have wl := weight_distributeOnce_le l
    have wr := weight_distributeOnce_le r
    simp only [weight]
    rcases h with h | h
    · have := ihl h
      omega
    · have := ihr h
      omega
  | case5 e h1 h2 h3 h4 =>
    cases e <;> simp_all [isCnf]

/-- Distribution until the expression is in normal form. -/
def toCnf (e : Expr) : Expr :=
  if e.isCnf then e else toCnf e.distributeOnce
termination_by e.weight
decreasing_by rename_i h; exact weight_distributeOnce_lt (by simpa using h)

/-- The predicates of a choice, from left to right. -/
def disjuncts : Expr → List Expr
  | or _ l r => disjuncts l ++ disjuncts r
  | e => [e]

/-- The clauses of an expression in normal form, from left to right. -/
def clauses : Expr → List Disjunction
  | and _ l r => clauses l ++ clauses r
  | e => [⟨disjuncts e⟩]

/-- The conjunctive normal form of a condition. -/
def normalize (e : Expr) : Cnf :=
  ⟨clauses (toCnf e)⟩

end Expr

end SqlFront
