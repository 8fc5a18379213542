import Mathlib.Logic.ExistsUnique
import Mathlib.Logic.Function.Iterate
import SqlFront.Proofs.Distribution

/-!
The way into conjunctive normal form, pass by pass.

A pass recurses into choices that it has just made, with an operand turned around, and not only
into parts of the expression. `Expr.Pass` says what its recursion comes to without saying that it
ends, and that it does is a theorem. A choice that is distributed can leave others to distribute
behind, so that one pass need not be enough; passes go on while something is left to distribute,
and stop there: the expressions without an `AND` anywhere under an `OR` are those that a pass does
not change.
-/

namespace SqlFront

namespace Expr

/-! ### One pass -/

/-- What a pass makes of an expression, by the choices that it comes across. -/
inductive Pass : Expr → Expr → Prop
  | distributeLeft {a b : Option String} {q s r first second : Expr}
      (hfirst : Pass (or none r q) first) (hsecond : Pass (or none r s) second) :
      Pass (or a (and b q s) r) (and a first second)
  | distributeRight {a b : Option String} {l q s first second : Expr} (hl : l.isAnd = false)
      (hfirst : Pass (or none l q) first) (hsecond : Pass (or none l s) second) :
      Pass (or a l (and b q s)) (and a first second)
  | choice {a : Option String} {l r left right : Expr} (hl : l.isAnd = false)
      (hr : r.isAnd = false) (hleft : Pass l left) (hright : Pass r right) :
      Pass (or a l r) (or a left right)
  | both {a : Option String} {l r left right : Expr} (hleft : Pass l left)
      (hright : Pass r right) : Pass (and a l r) (and a left right)
  | predicate {e : Expr} (hand : e.isAnd = false) (hor : e.isOr = false) : Pass e e

theorem isAnd_eq_false {e : Expr} (h : ∀ a l r, e ≠ and a l r) : e.isAnd = false := by
  cases e <;> first | rfl | exact absurd rfl (h _ _ _)

theorem isOr_eq_false {e : Expr} (h : ∀ a l r, e ≠ or a l r) : e.isOr = false := by
  cases e <;> first | rfl | exact absurd rfl (h _ _ _)

/-- The recursion of a pass ends on every expression. -/
theorem pass_distributeOnce (e : Expr) : e.Pass e.distributeOnce := by
  fun_induction distributeOnce e with
  | case1 a b q s r ihq ihs => exact .distributeLeft ihq ihs
  | case2 a l b q s hl ihq ihs => exact .distributeRight (isAnd_eq_false hl) ihq ihs
  | case3 a l r hl hr ihl ihr => exact .choice (isAnd_eq_false hl) (isAnd_eq_false hr) ihl ihr
  | case4 a l r ihl ihr => exact .both ihl ihr
  | case5 e _ _ hor hand => exact .predicate (isAnd_eq_false hand) (isOr_eq_false hor)

/-- A pass has one result. -/
theorem Pass.eq_distributeOnce {e result : Expr} (h : e.Pass result) :
    result = e.distributeOnce := by
  induction h with
  | distributeLeft _ _ ihfirst ihsecond => rw [distributeOnce, ihfirst, ihsecond]
  | distributeRight hl _ _ ihfirst ihsecond =>
    rw [distributeOnce, ihfirst, ihsecond]
    rintro a q s rfl
    cases hl
  | choice hl hr _ _ ihleft ihright =>
    rw [distributeOnce, ihleft, ihright]
    · rintro a q s rfl
      cases hl
    · rintro a q s rfl
      cases hr
  | both _ _ ihleft ihright => rw [distributeOnce, ihleft, ihright]
  | @predicate e hand hor =>
    cases e with
    | and => cases hand
    | or => cases hor
    | _ => rw [distributeOnce] <;> simp

theorem existsUnique_pass (e : Expr) : ∃! result, e.Pass result :=
  ⟨e.distributeOnce, pass_distributeOnce e, fun _ h => h.eq_distributeOnce⟩

/-! ### Conditions without an `AND` under an `OR` -/

/-- The expression `inner` is reached from another one along `AND`s and `OR`s. -/
inductive Under (inner : Expr) : Expr → Prop
  | here : Under inner inner
  | andLeft {a : Option String} {l r : Expr} (h : Under inner l) : Under inner (and a l r)
  | andRight {a : Option String} {l r : Expr} (h : Under inner r) : Under inner (and a l r)
  | orLeft {a : Option String} {l r : Expr} (h : Under inner l) : Under inner (or a l r)
  | orRight {a : Option String} {l r : Expr} (h : Under inner r) : Under inner (or a l r)

/-- No `AND` has an `OR` above it, at any distance. -/
def NoAndUnderOr (e : Expr) : Prop :=
  ∀ choice inner : Expr, choice.Under e → choice.isOr = true → inner.Under choice →
    inner.isAnd = false

theorem isCnf_or {a : Option String} {l r : Expr} :
    (or a l r).isCnf = true ↔
      l.isAnd = false ∧ r.isAnd = false ∧ l.isCnf = true ∧ r.isCnf = true := by
  simp [isCnf, and_assoc]

theorem isCnf_and {a : Option String} {l r : Expr} :
    (and a l r).isCnf = true ↔ l.isCnf = true ∧ r.isCnf = true := by
  simp [isCnf]

theorem Under.isCnf {inner e : Expr} (h : inner.Under e) (cnf : e.isCnf = true) :
    inner.isCnf = true := by
  induction h with
  | here => exact cnf
  | andLeft _ ih => exact ih (isCnf_and.mp cnf).1
  | andRight _ ih => exact ih (isCnf_and.mp cnf).2
  | orLeft _ ih => exact ih (isCnf_or.mp cnf).2.2.1
  | orRight _ ih => exact ih (isCnf_or.mp cnf).2.2.2

/-- In normal form, being no `AND` is handed down from an expression to all that is under it:
its own operands are looked at, and theirs in turn. -/
theorem Under.isAnd_eq_false {inner e : Expr} (h : inner.Under e) (cnf : e.isCnf = true)
    (choice : e.isAnd = false) : inner.isAnd = false := by
  induction h with
  | here => exact choice
  | andLeft | andRight => cases choice
  | orLeft _ ih =>
    obtain ⟨hl, -, cl, -⟩ := isCnf_or.mp cnf
    exact ih cl hl
  | orRight _ ih =>
    obtain ⟨-, hr, -, cr⟩ := isCnf_or.mp cnf
    exact ih cr hr

/-- What no `AND` under an `OR` means for the operands of an expression. -/
theorem NoAndUnderOr.of_operand {operand e : Expr} (h : e.NoAndUnderOr)
    (lift : ∀ inner : Expr, inner.Under operand → inner.Under e) : operand.NoAndUnderOr :=
  fun choice inner hchoice => h choice inner (lift choice hchoice)

theorem NoAndUnderOr.isCnf {e : Expr} (h : e.NoAndUnderOr) : e.isCnf = true := by
  induction e using Expr.isCnf.induct with
  | case1 a l r ihl ihr =>
    have operands : ∀ inner : Expr, inner.Under (or a l r) → inner.isAnd = false :=
      fun inner => h (or a l r) inner .here rfl
    exact isCnf_or (a := a) |>.mpr ⟨operands l (.orLeft .here), operands r (.orRight .here),
      ihl (h.of_operand fun _ => .orLeft), ihr (h.of_operand fun _ => .orRight)⟩
  | case2 a l r ihl ihr =>
    exact isCnf_and (a := a) |>.mpr
      ⟨ihl (h.of_operand fun _ => .andLeft), ihr (h.of_operand fun _ => .andRight)⟩
  | case3 e noOr noAnd => exact Expr.isCnf.eq_3 e noOr noAnd

/-- Looking at the operands of each `OR` finds every `AND` under it. -/
theorem isCnf_iff_noAndUnderOr (e : Expr) : e.isCnf = true ↔ e.NoAndUnderOr := by
  constructor
  · intro cnf choice inner hchoice hor hinner
    refine hinner.isAnd_eq_false (hchoice.isCnf cnf) ?_
    cases choice <;> first | rfl | cases hor
  · exact NoAndUnderOr.isCnf

/-! ### All passes -/

/-- A pass changes exactly the expressions that are not in normal form yet: the others it makes
lighter. -/
theorem distributeOnce_eq_self_iff (e : Expr) : e.distributeOnce = e ↔ e.isCnf = true := by
  constructor
  · intro fixed
    by_contra unfinished
    have lighter := weight_distributeOnce_lt (Bool.eq_false_iff.mpr unfinished)
    rw [fixed] at lighter
    exact Nat.lt_irrefl _ lighter
  · intro cnf
    fun_induction distributeOnce e with
    | case1 => cases (isCnf_or.mp cnf).1
    | case2 => cases (isCnf_or.mp cnf).2.1
    | case3 a l r hl hr ihl ihr =>
      obtain ⟨-, -, cl, cr⟩ := isCnf_or.mp cnf
      rw [ihl cl, ihr cr]
    | case4 a l r ihl ihr =>
      obtain ⟨cl, cr⟩ := isCnf_and.mp cnf
      rw [ihl cl, ihr cr]
    | case5 => rfl

theorem toCnf_of_isCnf {e : Expr} (cnf : e.isCnf = true) : e.toCnf = e := by
  rw [toCnf, if_pos cnf]

/-- Passes are made until the expression is in normal form, and no further. Each of them takes
from the weight, so that there are fewer of them than that. -/
theorem exists_passes_toCnf (e : Expr) :
    ∃ passes ≤ e.weight, e.toCnf = distributeOnce^[passes] e ∧
      ∀ fewer < passes, (distributeOnce^[fewer] e).isCnf = false := by
  fun_induction toCnf e with
  | case1 e cnf => exact ⟨0, Nat.zero_le _, rfl, fun fewer h => absurd h (Nat.not_lt_zero _)⟩
  | case2 e unfinished ih =>
    have unfinished : e.isCnf = false := Bool.eq_false_iff.mpr unfinished
    obtain ⟨passes, bounded, reached, before⟩ := ih
    refine ⟨passes + 1, ?_, ?_, ?_⟩
    · exact Nat.lt_of_le_of_lt bounded (weight_distributeOnce_lt unfinished)
    · rw [reached, Function.iterate_succ_apply]
    · intro fewer hfewer
      cases fewer with
      | zero => exact unfinished
      | succ fewer =>
        rw [Function.iterate_succ_apply]
        exact before fewer (Nat.lt_of_succ_lt_succ hfewer)

/-- **Passes end at the fixpoint, and exactly there.** On every expression a pass has a result, and
one only; passes follow on each other until the expression is in normal form for the first time.
Being in normal form is to have no `AND` under an `OR` at any distance, and the same as not being
changed by a pass, so that a normal form is its own normal form. -/
theorem passes_end_at_fixpoint (e : Expr) :
    (∃! result, e.Pass result) ∧ e.Pass e.distributeOnce ∧
      (∃ passes ≤ e.weight, e.toCnf = distributeOnce^[passes] e ∧
        ∀ fewer < passes, (distributeOnce^[fewer] e).isCnf = false) ∧
      e.toCnf.isCnf = true ∧ (e.isCnf = true ↔ e.NoAndUnderOr) ∧
      (e.distributeOnce = e ↔ e.isCnf = true) ∧ e.toCnf.toCnf = e.toCnf :=
  ⟨existsUnique_pass e, pass_distributeOnce e, exists_passes_toCnf e, isCnf_toCnf e,
    isCnf_iff_noAndUnderOr e, distributeOnce_eq_self_iff e, toCnf_of_isCnf (isCnf_toCnf e)⟩

end Expr

end SqlFront
