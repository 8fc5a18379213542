import SqlFront.Cnf.Basic

/-!
The size of a conjunctive normal form, counted before anything is distributed, and normalization
within a limit. Counts are numbers of 64 bits that stay at the largest one instead of passing it.
-/

namespace SqlFront

/-- The largest count. -/
def maxCount : Nat := 18446744073709551615

/-- A sum that stays at the largest count. -/
def addCounts (m n : Nat) : Nat := min maxCount (m + n)

/-- A product that stays at the largest count. -/
def mulCounts (m n : Nat) : Nat := min maxCount (m * n)

/-- The numbers of clauses and of predicates in all clauses together. -/
structure CnfSize where
  clauses : Nat
  leaves : Nat
  deriving DecidableEq, Repr

namespace Expr

/-- The size of the normal form of an expression. -/
def cnfSize : Expr → CnfSize
  | and _ l r =>
      let l := cnfSize l
      let r := cnfSize r
      ⟨addCounts l.clauses r.clauses, addCounts l.leaves r.leaves⟩
  | or _ l r =>
      let l := cnfSize l
      let r := cnfSize r
      ⟨mulCounts l.clauses r.clauses,
        addCounts (mulCounts l.leaves r.clauses) (mulCounts r.leaves l.clauses)⟩
  | _ => ⟨1, 1⟩

/-- The normal form of a condition, if it has at most `limit` predicates. -/
def normalizeWithin (limit : Nat) (e : Expr) : Except UnsupportedCause Cnf :=
  if limit < e.cnfSize.leaves then .error (.tooManyTerms e.cnfSize.leaves limit)
  else .ok e.normalize

end Expr

end SqlFront
