import SqlFront.Cnf.Size
import SqlFront.Proofs.Conditions
import SqlFront.Proofs.Distribution
import SqlFront.Parse
import SqlFront.Proofs.StoredParts

/-!
Stored conditions are in normal form, within the limit on their size.

The size of a normal form is counted before anything is distributed, on counts that stay at the
largest one. Below that one the count is the number of predicates in the textbook distribution, and
the normal form has the same predicates in another order.
-/

namespace SqlFront

open Build

/-! ### Counts -/

theorem addCounts_min (m n : Nat) :
    addCounts (min maxCount m) (min maxCount n) = min maxCount (m + n) := by
  simp only [addCounts]
  omega

/-- A product of counts that stay at the largest one stays at it too, unless a factor is zero. -/
theorem mulCounts_min {m n : Nat} (hm : 0 < m) (hn : 0 < n) :
    mulCounts (min maxCount m) (min maxCount n) = min maxCount (m * n) := by
  have hmax : 0 < maxCount := by decide
  have hm' : m ≤ m * n := Nat.le_mul_of_pos_right m hn
  have hn' : n ≤ m * n := Nat.le_mul_of_pos_left n hm
  rw [mulCounts]
  rcases Nat.le_total maxCount m with h | h
  · rw [Nat.min_eq_left h, Nat.min_eq_left (Nat.le_trans h hm')]
    exact Nat.min_eq_left (Nat.le_mul_of_pos_right _ (by omega))
  rcases Nat.le_total maxCount n with h' | h'
  · rw [Nat.min_eq_left h', Nat.min_eq_left (Nat.le_trans h' hn')]
    exact Nat.min_eq_left (Nat.le_mul_of_pos_left _ (by omega))
  · rw [Nat.min_eq_right h, Nat.min_eq_right h']

/-! ### The distribution by the book -/

theorem length_flatten_products (left right : List (List Expr)) :
    (left.flatMap fun c => right.map fun d => c ++ d).flatten.length =
      left.flatten.length * right.length + right.flatten.length * left.length := by
  have one (c : List Expr) : (right.map fun d => c ++ d).flatten.length =
      c.length * right.length + right.flatten.length := by
    induction right with
    | nil => simp
    | cons d right ih =>
      simp only [List.map_cons, List.flatten_cons, List.length_append, List.length_cons, ih,
        Nat.mul_succ]
      omega
  induction left with
  | nil => simp
  | cons c left ih =>
    rw [List.flatMap_cons, List.flatten_append, List.length_append, one, ih, List.flatten_cons,
      List.length_append, List.length_cons, Nat.add_mul, Nat.mul_succ]
    omega

namespace Expr

/-- A distribution has a clause, and each of its clauses has a predicate. -/
structure Filled (clauses : List (List Expr)) : Prop where
  ne_nil : clauses ≠ []
  choices : ∀ clause ∈ clauses, clause ≠ []

theorem filled_distributed (e : Expr) : Filled e.distributed := by
  fun_induction distributed e with
  | case1 a l r ihl ihr =>
    refine ⟨List.append_ne_nil_of_left_ne_nil ihl.ne_nil _, ?_⟩
    exact List.forall_mem_append.mpr ⟨ihl.choices, ihr.choices⟩
  | case2 a l r ihr ihl =>
    constructor
    · obtain ⟨c, cs, hl⟩ := List.exists_cons_of_ne_nil ihl.ne_nil
      obtain ⟨d, ds, hr⟩ := List.exists_cons_of_ne_nil ihr.ne_nil
      simp [hl, hr]
    · intro clause hmem
      obtain ⟨c, hc, hmem⟩ := List.mem_flatMap.mp hmem
      obtain ⟨d, -, rfl⟩ := List.mem_map.mp hmem
      exact List.append_ne_nil_of_left_ne_nil (ihl.choices c hc) d
  | case3 e => exact ⟨by simp, by simp⟩

theorem Filled.length_pos {clauses : List (List Expr)} (h : Filled clauses) :
    0 < clauses.length ∧ 0 < clauses.flatten.length := by
  obtain ⟨clause, rest, rfl⟩ := List.exists_cons_of_ne_nil h.ne_nil
  have := List.length_pos_iff.mpr (h.choices clause (by simp))
  simp
  omega

/-- **The size that is counted is that of the distribution**, as far as the counts go. -/
theorem cnfSize_eq (e : Expr) :
    e.cnfSize = ⟨min maxCount e.distributed.length, min maxCount e.distributed.flatten.length⟩ := by
  fun_induction cnfSize e with
  | case1 a l r sl sr ihl ihr =>
    simp only [distributed, List.length_append, List.flatten_append, ihl, ihr, addCounts_min, sl,
      sr]
  | case2 a l r sl sr ihl ihr =>
    obtain ⟨hl, hl'⟩ := (filled_distributed l).length_pos
    obtain ⟨hr, hr'⟩ := (filled_distributed r).length_pos
    simp only [distributed, ihl, ihr, length_flatten_products, mulCounts_min hl hr,
      mulCounts_min hl' hr, mulCounts_min hr' hl, addCounts_min, sl, sr]
    simp [List.length_flatMap]
  | case3 e hand hor =>
    rw [distributed.eq_3 e hand hor]
    rfl

/-- The distribution of a condition consists of predicates on values. -/
theorem IsCondition.distributed {e : Expr} (h : e.IsCondition) :
    ∀ clause ∈ e.distributed, ∀ predicate ∈ clause, predicate.IsAtom := by
  fun_induction Expr.distributed e with
  | case1 a l r ihl ihr => exact List.forall_mem_append.mpr ⟨ihl h.1, ihr h.2⟩
  | case2 a l r ihr ihl =>
    intro clause hmem
    obtain ⟨c, hc, hmem⟩ := List.mem_flatMap.mp hmem
    obtain ⟨d, hd, rfl⟩ := List.mem_map.mp hmem
    exact List.forall_mem_append.mpr ⟨ihl h.1 c hc, ihr h.2 d hd⟩
  | case3 e hand hor =>
    rw [IsCondition.eq_3 _ hand hor] at h
    simpa using h

end Expr

/-! ### Normal forms -/

/-- A normal form as it is stored: some clauses, none of them empty, of predicates on values, and
not more of these than the limit. -/
structure Cnf.WellFormed (limit : Nat) (cnf : Cnf) : Prop where
  clauses : cnf.disjunctions ≠ []
  choices : ∀ clause ∈ cnf.disjunctions, clause.predicates ≠ []
  bounded : cnf.predicates.length ≤ limit
  atoms : ∀ predicate ∈ cnf.predicates, predicate.IsAtom

namespace Expr

/-- Normalization keeps the clauses of the distribution, with all order forgotten. -/
theorem unordered_normalize (e : Expr) :
    unordered (e.normalize.disjunctions.map Disjunction.predicates) = unordered e.distributed := by
  rw [normalize, clauses_of_isCnf (isCnf_toCnf e)]
  exact clauseSet_toCnf e

theorem predicates_normalize_perm (e : Expr) :
    e.normalize.predicates.Perm e.distributed.flatten := by
  have h := congrArg Multiset.join (unordered_normalize e)
  rw [unordered, unordered, Multiset.coe_join, Multiset.coe_join] at h
  rw [Cnf.predicates, List.flatMap_def]
  exact Multiset.coe_eq_coe.mp h

/-- A condition whose size is within the limit is stored well-formed. -/
theorem IsCondition.wellFormed_normalize {e : Expr} (h : e.IsCondition) {limit : Nat}
    (hlimit : limit < maxCount) (hsize : e.cnfSize.leaves ≤ limit) :
    e.normalize.WellFormed limit := by
  have hperm := predicates_normalize_perm e
  have hfilled := filled_distributed e
  constructor
  · intro hnil
    have hcard := congrArg Multiset.card (unordered_normalize e)
    rw [hnil] at hcard
    simp only [unordered, List.map_nil, Multiset.coe_card, List.length_nil, List.length_map]
      at hcard
    exact hfilled.ne_nil (List.length_eq_zero_iff.mp hcard.symm)
  · intro clause hmem hnil
    have hset : Multiset.ofList clause.predicates ∈ unordered e.distributed := by
      rw [← unordered_normalize]
      exact Multiset.mem_coe.mpr (List.mem_map_of_mem (List.mem_map_of_mem hmem))
    obtain ⟨other, hother, heq⟩ := List.mem_map.mp (Multiset.mem_coe.mp hset)
    rw [hnil] at heq
    exact hfilled.choices other hother (List.perm_nil.mp (Multiset.coe_eq_coe.mp heq))
  · rw [hperm.length_eq]
    rw [cnfSize_eq] at hsize
    simp only at hsize
    omega
  · intro predicate hmem
    obtain ⟨clause, hclause, hmem⟩ := List.mem_flatten.mp (hperm.mem_iff.mp hmem)
    exact h.distributed clause hclause predicate hmem

end Expr

namespace Build.Context

variable (context : Context)

/-- A stored condition is the normal form of one that a tree directly in the clause builds, and that
is within the limit. -/
theorem condition_eq_ok {name : String} {clause : Tree} {cnf : Cnf}
    (h : context.condition name clause = .ok cnf) :
    ∃ tree ∈ clause.children, ∃ e, context.expression tree = .ok e ∧ e.isPredicate ∧
      e.cnfSize.leaves ≤ context.config.maxCnfLeaves ∧ cnf = e.normalize := by
  obtain ⟨e, he, h⟩ := bind_eq_ok.mp h
  obtain ⟨tree, hfound, hbuilt⟩ := context.expression_of_firstExpression he
  split at h
  · rename_i hpredicate
    rw [mapError_eq_ok, Expr.normalizeWithin] at h
    split at h
    · cases h
    · rename_i hsize
      cases h
      exact ⟨tree, List.mem_of_find?_eq_some hfound, e, hbuilt, hpredicate, Nat.not_lt.mp hsize,
        rfl⟩
  · exact absurd h reject_ne_ok

/-- A condition that is stored for a clause is in normal form. -/
theorem wellFormed_of_condition (hlimit : context.config.maxCnfLeaves < maxCount) {name : String}
    {clause : Tree} {cnf : Cnf} (h : context.condition name clause = .ok cnf) :
    cnf.WellFormed context.config.maxCnfLeaves := by
  obtain ⟨tree, -, e, hbuilt, hpredicate, hsize, rfl⟩ := context.condition_eq_ok h
  have hcondition := (context.buildsFormed tree e hbuilt).isCondition hpredicate
  exact hcondition.wellFormed_normalize hlimit hsize

/-- **Every condition that a batch stores is in normal form**, whatever tree it is built from: those
of `WHERE`, `HAVING` and `ON`, in queries at any depth. -/
theorem wellFormed_of_batch (hlimit : context.config.maxCnfLeaves < maxCount) {tree : Tree}
    {queries : List Query} (h : context.batch tree = .ok queries) :
    ∀ query ∈ queries, ∀ cnf ∈ query.conditions,
      cnf.WellFormed context.config.maxCnfLeaves := by
  intro query hquery cnf hcnf
  obtain ⟨name, clause, hcondition⟩ := (context.stores_of_batch h query hquery).conditions cnf hcnf
  exact context.wellFormed_of_condition hlimit hcondition

/-- `DELETE t WHERE a BETWEEN 1 AND 2` stores one condition, which is in normal form. -/
theorem wellFormed_of_batch_of_delete :
    let source := ['D', 'E', 'L', 'E', 'T', 'E', ' ', 't', ' ', 'W', 'H', 'E', 'R', 'E', ' ', 'a',
      ' ', 'B', 'E', 'T', 'W', 'E', 'E', 'N', ' ', '1', ' ', 'A', 'N', 'D', ' ', '2']
    let context : Context := { config := Config.ofDialect .mysql, source }
    ∃ tree queries cnf, context.config.parseTree source = .ok tree ∧
      context.batch tree = .ok queries ∧ queries.flatMap Query.conditions = [cnf] ∧
      cnf.WellFormed 4096 := by
  intro source context
  suffices stored : ∀ tree queries cnf, context.config.parseTree source = .ok tree →
      context.batch tree = .ok queries → queries.flatMap Query.conditions = [cnf] →
      cnf.WellFormed 4096 from
    ⟨_, _, _, rfl, rfl, rfl, stored _ _ _ rfl rfl rfl⟩
  intro tree queries cnf _ built conditions
  have only : cnf ∈ queries.flatMap Query.conditions := by simp [conditions]
  obtain ⟨query, hquery, hcnf⟩ := List.mem_flatMap.mp only
  have small : context.config.maxCnfLeaves < maxCount := by decide
  exact context.wellFormed_of_batch small built query hquery cnf hcnf

end Build.Context

end SqlFront
