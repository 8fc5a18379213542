import SqlFront.Proofs.NormalForm

/-!
The guard in front of normalization is exact.

The size of a normal form is counted on the condition itself, on numbers that stay at the largest
count. The count of the clauses and that of the predicates are those of the normal form, unless
this has more of them than can be counted. So a limit below the largest count lets through the
conditions whose normal form keeps to it, and no others.
-/

namespace SqlFront

namespace Expr

/-- A normal form has as many clauses as the distribution by the book. -/
theorem length_disjunctions_normalize (e : Expr) :
    e.normalize.disjunctions.length = e.distributed.length := by
  have cards := congrArg Multiset.card (unordered_normalize e)
  simpa [unordered] using cards

/-- The size that is counted is that of the normal form, as far as the counts go. -/
theorem cnfSize_eq_normalize (e : Expr) :
    e.cnfSize = ⟨min maxCount e.normalize.disjunctions.length,
      min maxCount e.normalize.predicates.length⟩ := by
  rw [cnfSize_eq, length_disjunctions_normalize, (predicates_normalize_perm e).length_eq]

/-- A limit that can be counted past is compared with the number of predicates itself. -/
theorem limit_lt_leaves_iff {limit : Nat} (countable : limit < maxCount) (e : Expr) :
    limit < e.cnfSize.leaves ↔ limit < e.normalize.predicates.length := by
  rw [cnfSize_eq_normalize]
  constructor
  · intro past
    exact Nat.lt_of_lt_of_le past (Nat.min_le_right _ _)
  · intro past
    exact Nat.lt_min.mpr ⟨countable, past⟩

theorem normalizeWithin_eq_ok_iff {limit : Nat} {e : Expr} {cnf : Cnf} :
    e.normalizeWithin limit = .ok cnf ↔ e.cnfSize.leaves ≤ limit ∧ cnf = e.normalize := by
  rw [normalizeWithin]
  split
  · rename_i past
    simp [Nat.not_le.mpr past]
  · rename_i within
    simp [Nat.not_lt.mp within, eq_comm]

/-- **The guard is exact.** What is counted is the size of the normal form, up to the largest
count. A condition is normalized within a limit below that count exactly if its normal form has no
more predicates than the limit, and then into that normal form. -/
theorem cnfSize_exact (e : Expr) :
    e.cnfSize = ⟨min maxCount e.normalize.disjunctions.length,
        min maxCount e.normalize.predicates.length⟩ ∧
      ∀ limit < maxCount,
        ((∃ cnf, e.normalizeWithin limit = .ok cnf) ↔
          e.normalize.predicates.length ≤ limit) ∧
        ∀ cnf, e.normalizeWithin limit = .ok cnf → cnf = e.normalize := by
  refine ⟨cnfSize_eq_normalize e, fun limit countable => ⟨?_, ?_⟩⟩
  · have compared := not_congr (limit_lt_leaves_iff countable e)
    rw [Nat.not_lt, Nat.not_lt] at compared
    rw [← compared]
    constructor
    · rintro ⟨cnf, normalized⟩
      exact (normalizeWithin_eq_ok_iff.mp normalized).1
    · intro within
      exact ⟨_, normalizeWithin_eq_ok_iff.mpr ⟨within, rfl⟩⟩
  · intro cnf normalized
    exact (normalizeWithin_eq_ok_iff.mp normalized).2

/-- `(1 AND 2) OR 3` has two clauses of two operands each, so that the limit four lets it through
and the limit three does not. -/
theorem cnfSize_exact_of_choice :
    let e := or none (and none (constant none (.int 1)) (constant none (.int 2)))
      (constant none (.int 3))
    (∃ cnf, e.normalizeWithin 4 = .ok cnf) ∧ ¬ ∃ cnf, e.normalizeWithin 3 = .ok cnf := by
  intro e
  have four : e.normalize.predicates.length = 4 := (predicates_normalize_perm e).length_eq
  have guard := (cnfSize_exact e).2
  refine ⟨(guard 4 (by decide)).1.mpr (Nat.le_of_eq four), ?_⟩
  rw [(guard 3 (by decide)).1, four]
  decide

end Expr

end SqlFront
