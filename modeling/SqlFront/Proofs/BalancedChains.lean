import SqlFront.Proofs.Labels
import Mathlib.Data.List.Basic
import Mathlib.Data.Nat.Log

/-!
Chains of conditions: what `a OR b OR c …` becomes when it is put together.

A chain has any number of operands, and a connective joins two. The chain is cut in the middle, and
the halves are joined; so nothing changes its place, and the nodes of the connective lie no deeper
than they have to: a tree of height `h` has at most `2 ^ h` operands, and the height of the chain is
the least one with room for all of them.
-/

namespace SqlFront

/-- The connectives of conditions. -/
inductive Connective where
  | and
  | or
  deriving DecidableEq, Repr

namespace Connective

/-- Two conditions under the connective, as a chain joins them. -/
def join : Connective → Expr → Expr → Expr
  | and => .and none
  | or => .or none

/-- The expression is a node of the connective. -/
def heads : Connective → Expr → Bool
  | and => Expr.isAnd
  | or => Expr.isOr

/-- What the nodes of the connective at the top of an expression join, from left to right. -/
def operands : Connective → Expr → List Expr
  | and, .and _ l r => operands and l ++ operands and r
  | or, .or _ l r => operands or l ++ operands or r
  | _, e => [e]

/-- The most nodes of the connective on a way from the top of an expression to an operand. -/
def height : Connective → Expr → Nat
  | and, .and _ l r => max (height and l) (height and r) + 1
  | or, .or _ l r => max (height or l) (height or r) + 1
  | _, _ => 0

variable (connective : Connective)

@[simp]
theorem operands_join (l r : Expr) :
    connective.operands (connective.join l r) =
      connective.operands l ++ connective.operands r := by
  cases connective <;> rfl

@[simp]
theorem height_join (l r : Expr) :
    connective.height (connective.join l r) =
      max (connective.height l) (connective.height r) + 1 := by
  cases connective <;> rfl

variable {connective}

theorem operands_of_not_heads {e : Expr} (h : connective.heads e = false) :
    connective.operands e = [e] := by
  cases connective <;> cases e <;> first | rfl | cases h

theorem height_of_not_heads {e : Expr} (h : connective.heads e = false) :
    connective.height e = 0 := by
  cases connective <;> cases e <;> first | rfl | cases h

end Connective

/-- Only a chain of nothing cannot be put together. -/
theorem balanced_eq_none {α : Type} {combine : α → α → α} {items : List α} :
    balanced combine items = none ↔ items = [] := by
  fun_induction balanced combine items with
  | case1 => simp
  | case2 item => simp
  | case3 first second items all ihl =>
    rename_i ihr
    have two : 2 ≤ all.length := by simp [all]
    have left : all.take (all.length / 2) ≠ [] := by simp [List.take_eq_nil_iff, all]
    have right : all.drop (all.length / 2) ≠ [] := by simp [List.drop_eq_nil_iff]; omega
    obtain ⟨l, hl⟩ := Option.ne_none_iff_exists'.mp (mt ihl.mp left)
    obtain ⟨r, hr⟩ := Option.ne_none_iff_exists'.mp (mt ihr.mp right)
    simp [hl, hr]

variable {connective : Connective} {items : List Expr} {e : Expr}

/-- The longer half of at least two items decides on the height: it takes one node less. -/
theorem max_clog_halves {n : Nat} (h : 2 ≤ n) :
    max (Nat.clog 2 (n / 2)) (Nat.clog 2 (n - n / 2)) + 1 = Nat.clog 2 n := by
  have longer : (n + 2 - 1) / 2 = n - n / 2 := by omega
  have shorter : Nat.clog 2 (n / 2) ≤ Nat.clog 2 (n - n / 2) :=
    Nat.clog_mono_right 2 (by omega)
  rw [max_eq_right shorter, Nat.clog_of_two_le (by omega) h, longer]

/-- The height of a chain whose items have no node of the connective at the top. -/
theorem height_balanced (hitems : ∀ item ∈ items, connective.height item = 0)
    (h : balanced connective.join items = some e) :
    connective.height e = Nat.clog 2 items.length := by
  -- The halves of a chain are known by their place in it, which `balanced_induct` forgets.
  fun_induction balanced connective.join items generalizing e with
  | case1 => cases h
  | case2 item =>
    obtain rfl : item = e := by simpa using h
    simpa using hitems item (by simp)
  | case3 first second items all ihl =>
    rename_i ihr
    simp only [Option.bind_eq_bind, Option.bind_eq_some_iff, Option.pure_def,
      Option.some.injEq] at h
    obtain ⟨l, hl, r, hr, rfl⟩ := h
    have left := ihl (fun item hitem => hitems item (List.mem_of_mem_take hitem)) hl
    have right := ihr (fun item hitem => hitems item (List.mem_of_mem_drop hitem)) hr
    have two : 2 ≤ all.length := by simp [all]
    rw [connective.height_join, left, right, List.length_drop, List.length_take,
      Nat.min_eq_left (Nat.div_le_self _ _), max_clog_halves two]

/-- **Balance.** Items that are no nodes of the connective themselves are put together in one
expression, unless there are none of them. The nodes of the connective in it join exactly these
items, in their order, and the height of these nodes is the logarithm of the number of items to the
base two, rounded up. -/
theorem balanced_operands_height (connective : Connective) (items : List Expr)
    (apart : ∀ item ∈ items, connective.heads item = false) :
    (balanced connective.join items = none ↔ items = []) ∧
    (items ≠ [] → ∃ e, balanced connective.join items = some e ∧
      connective.operands e = items ∧
      connective.height e = Nat.clog 2 items.length) := by
  refine ⟨balanced_eq_none, fun some_items => ?_⟩
  obtain ⟨e, he⟩ := Option.ne_none_iff_exists'.mp (mt balanced_eq_none.mp some_items)
  refine ⟨e, he, ?_, ?_⟩
  · have single : ∀ item ∈ items, connective.operands item = [item] := fun item hitem =>
      Connective.operands_of_not_heads (apart item hitem)
    rw [collect_balanced connective.operands_join he, List.flatMap_congr single,
      List.flatMap_singleton']
  · exact height_balanced (fun item hitem => Connective.height_of_not_heads (apart item hitem)) he

/-- Five conditions under `OR`, one of them a conjunction, lie under at most three nodes of it. -/
theorem balanced_operands_height_of_five :
    let column (name : String) : Expr := .isNull none false (.ofName name)
    let items := [column "a", column "b", .and none (column "c") (column "d"), column "e",
      column "f"]
    (∀ item ∈ items, Connective.or.heads item = false) ∧ items ≠ [] ∧
    ∃ e, balanced Connective.or.join items = some e ∧
      Connective.or.operands e = items ∧ Connective.or.height e = 3 := by
  intro column items
  have apart : ∀ item ∈ items, Connective.or.heads item = false := by simp [items]; decide
  obtain ⟨e, built, order, height⟩ :=
    (balanced_operands_height .or items apart).2 (List.cons_ne_nil _ _)
  have three : Nat.clog 2 items.length = 3 := by decide
  exact ⟨apart, List.cons_ne_nil _ _, e, built, order, height.trans three⟩

end SqlFront
