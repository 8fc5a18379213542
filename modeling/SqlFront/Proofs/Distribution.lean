import Mathlib.Data.List.Perm.Basic
import Mathlib.Data.Multiset.Bind
import SqlFront.Cnf.Basic

/-!
The conjunctive normal form against distribution as textbooks write it.

`Expr.distributed` goes once through a condition, from the leaves up, and multiplies clauses out.
Normalization instead makes passes from the root down, which turn operands around. Both give the
same clauses with the same predicates, in another order: every pass keeps `Expr.clauseSet`, the
clauses with all order forgotten, and a condition in normal form reads off as its own
distribution.
-/

namespace SqlFront

/-- Clauses that differ only in their order and in the order of the predicates in each. -/
def SameClauses (left right : List (List Expr)) : Prop :=
  ∃ middle, left.Perm middle ∧ List.Forall₂ List.Perm middle right

/-- Clauses with all order forgotten. -/
def unordered (clauses : List (List Expr)) : Multiset (Multiset Expr) :=
  Multiset.ofList (clauses.map Multiset.ofList)

/-- Clauses that agree without an order only differ in it: a pairing of the unordered clauses
lifts to a reordering of the lists. -/
theorem sameClauses_of_unordered_eq {left right : List (List Expr)}
    (h : unordered left = unordered right) : SameClauses left right := by
  have images : (left.map Multiset.ofList).Perm (right.map Multiset.ofList) :=
    Multiset.coe_eq_coe.mp h
  have forget : List.Forall₂ (fun c m => Multiset.ofList c = m) left
      (left.map Multiset.ofList) := by
    rw [List.forall₂_map_right_iff, List.forall₂_same]
    exact fun _ _ => rfl
  have lifted : Relation.Comp (List.Forall₂ fun c m => Multiset.ofList c = m) List.Perm left
      (right.map Multiset.ofList) := ⟨_, forget, images⟩
  rw [List.forall₂_comp_perm_eq_perm_comp_forall₂] at lifted
  obtain ⟨middle, perm, pointwise⟩ := lifted
  rw [List.forall₂_map_right_iff] at pointwise
  exact ⟨middle, perm, pointwise.imp fun _ _ same => Multiset.coe_eq_coe.mp same⟩

theorem unordered_append (left right : List (List Expr)) :
    unordered (left ++ right) = unordered left + unordered right := by
  simp [unordered]

/-! ### Products of clauses -/

/-- One clause from each side, joined, in every way to choose them. -/
def products (left right : Multiset (Multiset Expr)) : Multiset (Multiset Expr) :=
  left.bind fun c => right.map fun d => c + d

theorem unordered_flatMap (left right : List (List Expr)) :
    unordered (left.flatMap fun c => right.map fun d => c ++ d) =
      products (unordered left) (unordered right) := by
  induction left with
  | nil => rfl
  | cons c left ih =>
    have first : unordered (right.map fun d => c ++ d) =
        (unordered right).map fun d => Multiset.ofList c + d := by
      simp [unordered, Function.comp_def]
    rw [List.flatMap_cons, unordered_append, ih, first]
    simp [unordered, products, ← Multiset.cons_coe]

theorem products_comm (left right : Multiset (Multiset Expr)) :
    products left right = products right left := by
  rw [products, Multiset.bind_map_comm]
  simp only [products, add_comm]

theorem products_add (left q s : Multiset (Multiset Expr)) :
    products left (q + s) = products left q + products left s := by
  simp [products, Multiset.bind_add]

namespace Expr

/-- Distribution by the book. Everything but `AND` and `OR` is a predicate by itself. -/
def distributed : Expr → List (List Expr)
  | and _ l r => distributed l ++ distributed r
  | or _ l r => (distributed l).flatMap fun c => (distributed r).map fun d => c ++ d
  | e => [[e]]

/-- The clauses of the distribution with all order forgotten. -/
def clauseSet (e : Expr) : Multiset (Multiset Expr) := unordered e.distributed

theorem clauseSet_and (a : Option String) (l r : Expr) :
    (and a l r).clauseSet = l.clauseSet + r.clauseSet := by
  rw [clauseSet, distributed, unordered_append, clauseSet, clauseSet]

theorem clauseSet_or (a : Option String) (l r : Expr) :
    (or a l r).clauseSet = products l.clauseSet r.clauseSet := by
  rw [clauseSet, distributed, unordered_flatMap, clauseSet, clauseSet]

/-! ### Normalization keeps the clauses -/

/-- **A pass keeps the clauses**, also where it turns the operands of an `OR` around. -/
theorem clauseSet_distributeOnce (e : Expr) : e.distributeOnce.clauseSet = e.clauseSet := by
  fun_induction distributeOnce e with
  | case1 a b q s r ihq ihs =>
    rw [clauseSet_and, ihq, ihs, clauseSet_or, clauseSet_or, clauseSet_or, clauseSet_and,
      products_comm (_ + _), products_add]
  | case2 a l b q s h ihq ihs =>
    rw [clauseSet_and, ihq, ihs, clauseSet_or, clauseSet_or, clauseSet_or, clauseSet_and,
      products_add]
  | case3 a l r h h' ihl ihr => rw [clauseSet_or, clauseSet_or, ihl, ihr]
  | case4 a l r ihl ihr => rw [clauseSet_and, clauseSet_and, ihl, ihr]
  | case5 => rfl

theorem clauseSet_toCnf (e : Expr) : e.toCnf.clauseSet = e.clauseSet := by
  fun_induction toCnf e with
  | case1 => rfl
  | case2 e h ih => rw [ih, clauseSet_distributeOnce]

theorem isCnf_toCnf (e : Expr) : e.toCnf.isCnf = true := by
  fun_induction toCnf e with
  | case1 e h => exact h
  | case2 e h ih => exact ih

/-! ### Expressions in normal form -/

/-- A choice in normal form is one clause: no `AND` is under its `OR`s. -/
theorem distributed_of_not_isAnd {e : Expr} (cnf : e.isCnf = true) (choice : e.isAnd = false) :
    e.distributed = [e.disjuncts] := by
  fun_induction distributed e with
  | case1 => cases choice
  | case2 a l r ihr ihl =>
    simp only [isCnf, Bool.and_eq_true, Bool.not_eq_true'] at cnf
    obtain ⟨⟨⟨hl, hr⟩, cl⟩, cr⟩ := cnf
    simp [ihl cl hl, ihr cr hr, disjuncts]
  | case3 e hand hor =>
    cases e <;> first | rfl | exact absurd rfl (hor _ _ _)

/-- The clauses of an expression in normal form are its distribution, in that order. -/
theorem clauses_of_isCnf {e : Expr} (cnf : e.isCnf = true) :
    e.clauses.map Disjunction.predicates = e.distributed := by
  fun_induction clauses e with
  | case1 a l r ihl ihr =>
    simp only [isCnf, Bool.and_eq_true] at cnf
    rw [List.map_append, ihl cnf.1, ihr cnf.2, distributed]
  | case2 e hand =>
    have choice : e.isAnd = false := by
      cases e <;> first | rfl | exact absurd rfl (hand _ _ _)
    rw [distributed_of_not_isAnd cnf choice]
    rfl

/-- **Normalization is distribution.** The clauses of the normal form are those of the
distribution by the book, each as often as there and each with the same predicates, alias and
flag included, up to the order of the clauses and of the predicates in a clause. -/
theorem normalize_sameClauses_distributed (e : Expr) :
    SameClauses (e.normalize.disjunctions.map Disjunction.predicates) e.distributed := by
  apply sameClauses_of_unordered_eq
  rw [normalize, clauses_of_isCnf (isCnf_toCnf e)]
  exact clauseSet_toCnf e

end Expr

end SqlFront
