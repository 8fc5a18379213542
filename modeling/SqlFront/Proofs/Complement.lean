import SqlFront.Proofs.Passes
import SqlFront.Proofs.Truth

/-!
Negation in place, and what it makes of a condition.

An expression is negated where it stands. The change itself asks nothing: on an expression that is a
condition in part only, it would be made in part, and nothing would take it back. So all that is
under the connectives is looked at beforehand, by a walk with a stack, and the change, which
recurses, is made only if the walk finds nothing but predicates.

`Expr.Dual` says what the change does to a condition: predicates have the other flag, and the
connectives change places. A condition and its dual have opposite truth, whatever the truth of
their predicates, and the dual of the dual is the condition again.
-/

namespace SqlFront

namespace Expr

/-! ### The walk before the change -/

theorem sizeOf_pos (e : Expr) : 0 < sizeOf e := by
  cases e <;> simp +arith

/-- All that is under the connectives of some expressions is predicates. An operand on the left is
put aside until the one on the right is done. -/
def arePredicates : List Expr → Bool
  | [] => true
  | and _ l r :: aside => arePredicates (r :: l :: aside)
  | or _ l r :: aside => arePredicates (r :: l :: aside)
  | e :: aside => e.isLeaf && arePredicates aside
termination_by exprs => exprs.foldr (fun e size => sizeOf e + size) 0
decreasing_by
  · simp only [List.foldr_cons, and.sizeOf_spec]
    omega
  · simp only [List.foldr_cons, or.sizeOf_spec]
    omega
  · exact Nat.lt_add_of_pos_left (sizeOf_pos e)

/-- The walk finds what the recursion finds, whatever is put aside. -/
theorem arePredicates_eq_all (exprs : List Expr) :
    arePredicates exprs = exprs.all isPredicate := by
  fun_induction arePredicates exprs with
  | case1 => rfl
  | case2 a l r aside ih | case3 a l r aside ih =>
    rw [ih, List.all_cons, List.all_cons, List.all_cons, isPredicate, ← Bool.and_assoc,
      Bool.and_comm r.isPredicate]
  | case4 e aside hand hor ih => rw [ih, List.all_cons, isPredicate.eq_3 e hand hor]

/-- A condition has a predicate wherever its connectives end. -/
theorem isPredicate_iff_under {e : Expr} : e.isPredicate = true ↔
    ∀ inner : Expr, inner.Under e → inner.isAnd = false → inner.isOr = false →
      inner.isLeaf = true := by
  constructor
  · intro h inner under hand hor
    induction under with
    | here =>
      cases inner with
      | and => cases hand
      | or => cases hor
      | _ => exact h
    | andLeft _ ih | orLeft _ ih => exact ih (Bool.and_eq_true_iff.mp h).1
    | andRight _ ih | orRight _ ih => exact ih (Bool.and_eq_true_iff.mp h).2
  · intro h
    induction e using isPredicate.induct with
    | case1 a l r ihl ihr =>
      exact Bool.and_eq_true_iff.mpr
        ⟨ihl fun inner under => h inner (.andLeft under),
          ihr fun inner under => h inner (.andRight under)⟩
    | case2 a l r ihl ihr =>
      exact Bool.and_eq_true_iff.mpr
        ⟨ihl fun inner under => h inner (.orLeft under),
          ihr fun inner under => h inner (.orRight under)⟩
    | case3 e hand hor =>
      rw [isPredicate.eq_3 e hand hor]
      exact h e .here (isAnd_eq_false hand) (isOr_eq_false hor)

/-! ### The change -/

/-- Negates the expression that is in place, or says why it is left there. -/
def negateInPlace : ExceptT SemanticCause (StateM Expr) Unit := do
  let e ← get
  if arePredicates [e] then set e.complement else throw (.notNegatable e.kindName)

/-- What a negation in place comes to, and what is in place after it. -/
theorem negateInPlace_run (e : Expr) : negateInPlace.run.run e =
    match e.negate with
    | .ok negated => (.ok (), negated)
    | .error cause => (.error cause, e) := by
  have walk : arePredicates [e] = e.isPredicate := by simp [arePredicates_eq_all]
  have run : negateInPlace.run.run e = (if arePredicates [e] then set e.complement
      else throw (.notNegatable e.kindName) : ExceptT SemanticCause (StateM Expr) Unit).run.run e :=
    rfl
  rw [run, walk, negate]
  split <;> rfl

/-! ### Duals -/

/-- A predicate without its negation. -/
def affirmed : Expr → Expr
  | compare a _ op l r => compare a false op l r
  | inList a _ c vs => inList a false c vs
  | isNull a _ c => isNull a false c
  | like a _ c p e => like a false c p e
  | e => e

/-- The same predicate but for its flag, which is the other one. -/
structure Opposite (e e' : Expr) : Prop where
  isLeaf : e.isLeaf = true
  same : e'.affirmed = e.affirmed
  flag : e'.negated? = e.negated?.map (!·)

/-- Opposite predicates in the same places, under connectives that have changed places and kept
their aliases. -/
inductive Dual : Expr → Expr → Prop
  | predicate {e e' : Expr} (h : e.Opposite e') : Dual e e'
  | and {a : Option String} {l r l' r' : Expr} (left : Dual l l') (right : Dual r r') :
      Dual (and a l r) (or a l' r')
  | or {a : Option String} {l r l' r' : Expr} (left : Dual l l') (right : Dual r r') :
      Dual (or a l r) (and a l' r')

/-- What stands under the connectives of an expression, from left to right. -/
def leaves : Expr → List Expr
  | and _ l r | or _ l r => leaves l ++ leaves r
  | e => [e]

/-- The truth of a condition, where predicates have any truth before they are negated. -/
def truthUnder (assignment : Expr → Truth) : Expr → Truth
  | and _ l r => (truthUnder assignment l).and (truthUnder assignment r)
  | or _ l r => (truthUnder assignment l).or (truthUnder assignment r)
  | e => (assignment e.affirmed).signed (e.negated?.getD false)

theorem opposite_toggled {e : Expr} (h : e.isLeaf = true) : e.Opposite e.toggled := by
  cases e with
  | compare | inList | isNull | like => exact ⟨rfl, rfl, rfl⟩
  | _ => cases h

/-- A predicate has one opposite. -/
theorem Opposite.eq_toggled {e e' : Expr} (h : e.Opposite e') : e' = e.toggled := by
  obtain ⟨leaf, same, flag⟩ := h
  cases e with
  | compare | inList | isNull | like =>
    cases e' <;> simp_all [affirmed, negated?, toggled]
  | _ => cases leaf

theorem dual_complement {e : Expr} (h : e.isPredicate = true) : e.Dual e.complement := by
  fun_induction complement e with
  | case1 a l r ihl ihr =>
    obtain ⟨left, right⟩ := Bool.and_eq_true_iff.mp h
    exact .and (ihl left) (ihr right)
  | case2 a l r ihl ihr =>
    obtain ⟨left, right⟩ := Bool.and_eq_true_iff.mp h
    exact .or (ihl left) (ihr right)
  | case3 e hand hor => exact .predicate (opposite_toggled (isPredicate.eq_3 e hand hor ▸ h))

namespace Dual

variable {e e' : Expr}

theorem isPredicate (h : e.Dual e') : e'.isPredicate = true := by
  induction h with
  | @predicate e e' h =>
    obtain rfl := h.eq_toggled
    have leaf := h.isLeaf
    cases e with
    | compare | inList | isNull | like => rfl
    | _ => cases leaf
  | and _ _ ihl ihr | or _ _ ihl ihr => exact Bool.and_eq_true_iff.mpr ⟨ihl, ihr⟩

/-- **Duals have opposite truth**, where the predicates may also be unknown. -/
theorem truthUnder (h : e.Dual e') (assignment : Expr → Truth) :
    e'.truthUnder assignment = (e.truthUnder assignment).not := by
  induction h with
  | @predicate e e' h =>
    obtain rfl := h.eq_toggled
    have leaf := h.isLeaf
    cases e with
    | compare | inList | isNull | like => exact Truth.signed_not _ _
    | _ => cases leaf
  | and _ _ ihl ihr => simp only [Expr.truthUnder, ihl, ihr, Truth.not_and]
  | or _ _ ihl ihr => simp only [Expr.truthUnder, ihl, ihr, Truth.not_or]

/-- The predicates of duals are opposites, one by one. -/
theorem leaves (h : e.Dual e') : List.Forall₂ Opposite e.leaves e'.leaves := by
  induction h with
  | @predicate e e' h =>
    obtain rfl := h.eq_toggled
    have leaf := h.isLeaf
    cases e with
    | compare | inList | isNull | like => exact .cons h .nil
    | _ => cases leaf
  | and _ _ ihl ihr | or _ _ ihl ihr => exact List.rel_append ihl ihr

/-- A dual has one dual, the condition that it is the dual of. -/
theorem complement (h : e.Dual e') : e'.complement = e := by
  induction h with
  | @predicate e e' h =>
    obtain rfl := h.eq_toggled
    have leaf := h.isLeaf
    cases e with
    | compare | inList | isNull | like => exact toggled_toggled _
    | _ => cases leaf
  | and _ _ ihl ihr | or _ _ ihl ihr => simp only [Expr.complement, ihl, ihr]

end Dual

theorem negate_eq_ok {e e' : Expr} :
    e.negate = .ok e' ↔ e.isPredicate = true ∧ e' = e.complement := by
  rw [negate]
  split
  · rename_i condition
    simp [condition, eq_comm]
  · rename_i value
    simp [value]

/-- **Negation is exact, and happens as a whole or not at all.** It succeeds on conditions, which
are the expressions with a predicate wherever their connectives end. Where it fails, what was in
place is still there. Where it succeeds, a condition is in place whose truth is the opposite of what
it was under every assignment, with the same predicates from left to right but for their flags, in
the dual shape; and another negation brings the first condition back. -/
theorem negate_complements (e : Expr) :
    ((∃ e', e.negate = .ok e') ↔ e.isPredicate = true) ∧
    (e.isPredicate = true ↔ ∀ inner : Expr, inner.Under e → inner.isAnd = false →
      inner.isOr = false → inner.isLeaf = true) ∧
    (∀ cause, e.negate = .error cause → negateInPlace.run.run e = (.error cause, e)) ∧
    ∀ e', e.negate = .ok e' →
      negateInPlace.run.run e = (.ok (), e') ∧ e'.isPredicate = true ∧
      (∀ assignment, e'.truthUnder assignment = (e.truthUnder assignment).not) ∧
      List.Forall₂ Opposite e.leaves e'.leaves ∧ e.Dual e' ∧ e'.negate = .ok e := by
  refine ⟨by simp [negate_eq_ok], isPredicate_iff_under, ?_, ?_⟩
  · intro cause h
    rw [negateInPlace_run, h]
  · intro e' h
    obtain ⟨condition, rfl⟩ := negate_eq_ok.mp h
    have dual := dual_complement condition
    have back : e.complement.negate = .ok e :=
      negate_eq_ok.mpr ⟨dual.isPredicate, dual.complement.symm⟩
    exact ⟨by rw [negateInPlace_run, h], dual.isPredicate, dual.truthUnder, dual.leaves, dual,
      back⟩

/-- On a condition in part, the change alone would turn the connective and one of the operands. -/
example (c : ColumnRef) :
    let mixed := and none (isNull none false c) (column none c)
    mixed.complement = or none (isNull none true c) (column none c) ∧
      negateInPlace.run.run mixed = (.error (.notNegatable "AND"), mixed) :=
  ⟨rfl, negateInPlace_run _⟩

end Expr

end SqlFront
