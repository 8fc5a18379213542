import SqlFront.Proofs.Passes
import SqlFront.Proofs.SizeGuard

/-!
The limit on the size of a normal form holds for the way there as well.

The guard counts once, before the first pass, while passes copy operands. What they keep is the size
of the distribution, clauses and predicates counted exactly. No expression has more predicates than
its distribution, and so no pass makes more of them than the normal form has in the end.
-/

namespace SqlFront

namespace Expr

/-- The number of predicates: of all that is reached through `AND` and `OR` and is neither. -/
def leafCount : Expr → Nat
  | and _ l r => leafCount l + leafCount r
  | or _ l r => leafCount l + leafCount r
  | _ => 1

/-- The numbers of clauses and of predicates in the distribution by the book, however large. -/
def distributedSize (e : Expr) : CnfSize :=
  ⟨e.distributed.length, e.distributed.flatten.length⟩

theorem distributedSize_and (a : Option String) (l r : Expr) :
    (and a l r).distributedSize =
      ⟨l.distributedSize.clauses + r.distributedSize.clauses,
        l.distributedSize.leaves + r.distributedSize.leaves⟩ := by
  simp [distributedSize, distributed]

theorem distributedSize_or (a : Option String) (l r : Expr) :
    (or a l r).distributedSize =
      ⟨l.distributedSize.clauses * r.distributedSize.clauses,
        l.distributedSize.leaves * r.distributedSize.clauses +
          r.distributedSize.leaves * l.distributedSize.clauses⟩ := by
  rw [distributedSize, distributed, length_flatten_products]
  simp [distributedSize, List.length_flatMap]

/-- A distribution has a clause, and a clause has a predicate. -/
theorem distributedSize_pos (e : Expr) :
    0 < e.distributedSize.clauses ∧ 0 < e.distributedSize.leaves :=
  (filled_distributed e).length_pos

/-- The size only depends on the clauses, in whatever order they come. -/
theorem distributedSize_of_clauseSet {e other : Expr} (h : e.clauseSet = other.clauseSet) :
    e.distributedSize = other.distributedSize := by
  have clauses := congrArg Multiset.card h
  have leaves := congrArg (fun set => set.join.card) h
  simp only [clauseSet, unordered, Multiset.coe_join, Multiset.coe_card, List.length_map]
    at clauses leaves
  rw [distributedSize, distributedSize, clauses, leaves]

/-- **A pass keeps the size of the distribution**, wherever it copies an operand. -/
theorem distributedSize_distributeOnce (e : Expr) :
    e.distributeOnce.distributedSize = e.distributedSize :=
  distributedSize_of_clauseSet (clauseSet_distributeOnce e)

theorem distributedSize_passes (passes : Nat) (e : Expr) :
    (distributeOnce^[passes] e).distributedSize = e.distributedSize := by
  induction passes generalizing e with
  | zero => rfl
  | succ passes ih => rw [Function.iterate_succ_apply, ih, distributedSize_distributeOnce]

/-- Each predicate is in the distribution at least once: an `OR` repeats those of one operand for
every clause of the other, of which there is one. -/
theorem leafCount_le_distributedSize (e : Expr) : e.leafCount ≤ e.distributedSize.leaves := by
  fun_induction leafCount e with
  | case1 a l r ihl ihr =>
    rw [distributedSize_and]
    exact Nat.add_le_add ihl ihr
  | case2 a l r ihl ihr =>
    have repeated {count leaves clauses : Nat} (h : count ≤ leaves) (some : 0 < clauses) :
        count ≤ leaves * clauses := Nat.le_trans h (Nat.le_mul_of_pos_right leaves some)
    rw [distributedSize_or]
    exact Nat.add_le_add (repeated ihl (distributedSize_pos r).1)
      (repeated ihr (distributedSize_pos l).1)
  | case3 e => exact (distributedSize_pos e).2

/-- The size of the distribution is what the guard compares with a limit. -/
theorem distributedSize_leaves_le {limit : Nat} (countable : limit < maxCount) {e : Expr}
    {cnf : Cnf} (h : e.normalizeWithin limit = .ok cnf) : e.distributedSize.leaves ≤ limit := by
  have within : min maxCount e.distributedSize.leaves ≤ limit := by
    have counted := (normalizeWithin_eq_ok_iff.mp h).1
    rwa [cnfSize_eq] at counted
  omega

/-- **The limit bounds the work in progress.** A pass keeps the exact numbers of clauses and of
predicates of the distribution. Each expression that normalization holds comes from the first one by
passes, and none of them has more predicates than that distribution. So a condition that is
normalized within a limit never becomes one with more predicates than the limit. -/
theorem passes_within_limit (e : Expr) :
    e.distributeOnce.distributedSize = e.distributedSize ∧
      (∃ passes, e.toCnf = distributeOnce^[passes] e) ∧
      (∀ passes, (distributeOnce^[passes] e).leafCount ≤ e.distributedSize.leaves) ∧
      ∀ limit < maxCount, ∀ cnf, e.normalizeWithin limit = .ok cnf →
        ∀ passes, (distributeOnce^[passes] e).leafCount ≤ limit := by
  have bounded (passes : Nat) :
      (distributeOnce^[passes] e).leafCount ≤ e.distributedSize.leaves := by
    rw [← distributedSize_passes passes e]
    exact leafCount_le_distributedSize _
  refine ⟨distributedSize_distributeOnce e, ?_, bounded, ?_⟩
  · obtain ⟨passes, -, reached, -⟩ := exists_passes_toCnf e
    exact ⟨passes, reached⟩
  · intro limit countable cnf normalized passes
    exact Nat.le_trans (bounded passes) (distributedSize_leaves_le countable normalized)

/-- `((1 AND 2) OR 3) OR (4 AND 5)` has five operands, and its normal form has four clauses of
three. The limit twelve lets it through, and no pass goes beyond it. -/
theorem passes_within_limit_of_choice :
    let term (n : Int) := constant none (.int n)
    let e := or none (or none (and none (term 1) (term 2)) (term 3)) (and none (term 4) (term 5))
    e.leafCount = 5 ∧ (∃ cnf, e.normalizeWithin 12 = .ok cnf) ∧
      ∀ passes, (distributeOnce^[passes] e).leafCount ≤ 12 := by
  intro term e
  have normalized : ∃ cnf, e.normalizeWithin 12 = .ok cnf :=
    ⟨_, normalizeWithin_eq_ok_iff.mpr ⟨by decide, rfl⟩⟩
  obtain ⟨cnf, within⟩ := normalized
  exact ⟨rfl, ⟨cnf, within⟩, (passes_within_limit e).2.2.2 12 (by decide) cnf within⟩

end Expr

end SqlFront
