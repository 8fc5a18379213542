import SqlFront.Proofs.ConditionTruth

/-!
Values and conditions: what an expression consists of that a tree builds.

A value has no connective and no predicate in it, at any depth. A condition has connectives at the
top and predicates under them, whose operands are values. Whatever a tree builds is one or the
other: a condition only gets where an operand is read as a condition, and where a value is read,
conditions are refused.
-/

namespace SqlFront

open Build

namespace Expr

/-- An expression lies within another one: it is that one, or it lies within one of its parts. -/
inductive Within (inner : Expr) : Expr → Prop where
  | self : Within inner inner
  | part {outer child : Expr} : child ∈ outer.children → Within inner child → Within inner outer

/-- The expression itself is no connective and no predicate. -/
structure IsOperation (e : Expr) : Prop where
  isAnd : e.isAnd = false
  isOr : e.isOr = false
  isLeaf : e.isLeaf = false

/-- No connective and no predicate lies within the expression. -/
def IsValue (e : Expr) : Prop := ∀ inner : Expr, inner.Within e → inner.IsOperation

/-- A predicate whose operands are values. -/
structure IsAtom (e : Expr) : Prop where
  isLeaf : e.isLeaf
  operands : ∀ operand ∈ e.children, operand.IsValue

/-- Connectives over predicates whose operands are values. -/
def IsCondition : Expr → Prop
  | and _ l r => IsCondition l ∧ IsCondition r
  | or _ l r => IsCondition l ∧ IsCondition r
  | e => e.IsAtom

theorem isValue_iff {e : Expr} : e.IsValue ↔ e.IsOperation ∧ ∀ part ∈ e.children, part.IsValue := by
  constructor
  · intro h
    exact ⟨h e .self, fun part hpart inner hinner => h inner (.part hpart hinner)⟩
  · rintro ⟨hself, hparts⟩ inner hinner
    cases hinner with
    | self => exact hself
    | part hpart hinner => exact hparts _ hpart inner hinner

/-- An expression without parts is a value, unless it is a connective or a predicate itself. -/
theorem IsOperation.isValue {e : Expr} (h : e.IsOperation) (hnone : e.children = []) : e.IsValue :=
  isValue_iff.mpr ⟨h, by simp [hnone]⟩

/-- A predicate on a column has no parts. -/
theorem isAtom_of_isLeaf {e : Expr} (h : e.isLeaf) (hnone : e.children = []) : e.IsAtom :=
  ⟨h, by simp [hnone]⟩

theorem IsAtom.isCondition {e : Expr} (h : e.IsAtom) : e.IsCondition := by
  cases e with
  | and => cases h.isLeaf
  | or => cases h.isLeaf
  | _ => exact h

theorem IsCondition.isPredicate {e : Expr} (h : e.IsCondition) : e.isPredicate := by
  fun_induction IsCondition e with
  | case1 a l r ihl ihr => simp [Expr.isPredicate, ihl h.1, ihr h.2]
  | case2 a l r ihl ihr => simp [Expr.isPredicate, ihl h.1, ihr h.2]
  | case3 e hand hor => rw [Expr.isPredicate.eq_3 _ hand hor]; exact h.isLeaf

theorem IsOperation.not_isPredicate {e : Expr} (h : e.IsOperation) : e.isPredicate = false := by
  cases e with
  | and => cases h.isAnd
  | or => cases h.isOr
  | _ => exact h.isLeaf

/-- An alias changes nothing of this. -/
theorem isOperation_withAlias {a : Option String} {e : Expr} :
    (e.withAlias a).IsOperation ↔ e.IsOperation := by
  cases e <;> exact ⟨fun ⟨h, h', h''⟩ => ⟨h, h', h''⟩, fun ⟨h, h', h''⟩ => ⟨h, h', h''⟩⟩

@[simp]
theorem children_withAlias (a : Option String) (e : Expr) :
    (e.withAlias a).children = e.children := by
  cases e <;> rfl

theorem isValue_withAlias {a : Option String} {e : Expr} :
    (e.withAlias a).IsValue ↔ e.IsValue := by
  rw [isValue_iff, isValue_iff, isOperation_withAlias, children_withAlias]

theorem isCondition_withAlias {a : Option String} {e : Expr} :
    (e.withAlias a).IsCondition ↔ e.IsCondition := by
  cases e <;> first
    | exact Iff.rfl
    | exact ⟨fun h => ⟨h.isLeaf, h.operands⟩, fun h => ⟨h.isLeaf, h.operands⟩⟩

/-- Changing the flag of a predicate leaves its operands alone. -/
theorem IsAtom.toggled {e : Expr} (h : e.IsAtom) : e.toggled.IsAtom := by
  cases e <;> exact ⟨h.isLeaf, h.operands⟩

theorem IsCondition.complement {e : Expr} (h : e.IsCondition) : e.complement.IsCondition := by
  fun_induction Expr.complement e with
  | case1 a l r ihl ihr => exact ⟨ihl h.1, ihr h.2⟩
  | case2 a l r ihl ihr => exact ⟨ihl h.1, ihr h.2⟩
  | case3 e hand hor =>
    rw [IsCondition.eq_3 _ hand hor] at h
    exact h.toggled.isCondition

/-- What a tree may build: a condition, or a value. -/
def Formed (e : Expr) : Prop := e.IsCondition ∨ e.IsValue

theorem Formed.isCondition {e : Expr} (h : e.Formed) (hpredicate : e.isPredicate) :
    e.IsCondition := by
  rcases h with h | h
  · exact h
  · rw [(h e .self).not_isPredicate] at hpredicate
    cases hpredicate

theorem Formed.isValue {e : Expr} (h : e.Formed) (hvalue : e.isPredicate = false) : e.IsValue := by
  rcases h with h | h
  · rw [h.isPredicate] at hvalue
    cases hvalue
  · exact h

end Expr

namespace Build.Context

variable (context : Context)

/-- Whatever the tree builds is a condition or a value. -/
def BuildsFormed (tree : Tree) : Prop := ∀ e, context.expression tree = .ok e → e.Formed

/-! ### Values of parts -/

theorem isValue_of_value {tree : Tree} {e : Expr} (hformed : context.BuildsFormed tree)
    (h : context.value (context.part tree) = .ok e) : e.IsValue := by
  have hvalue := context.isPredicate_of_value h
  obtain ⟨built, hbuilt, hcheck⟩ := bind_eq_ok.mp h
  split at hcheck
  · exact absurd hcheck reject_ne_ok
  · obtain rfl := pure_eq_ok.mp hcheck
    exact (hformed built hbuilt).isValue hvalue

variable {rule : Rule} {span : Span} {children : List Tree}

theorem eq_part_of_operand {part : Part} {n : Nat}
    (h : (context.nodeOf rule span children).operand n = .ok part) :
    ∃ tree ∈ children, part = context.part tree := by
  simp only [Node.operand, require_eq_ok, nodeOf_operands, List.getElem?_map,
    Option.map_eq_some_iff] at h
  obtain ⟨tree, htree, rfl⟩ := h
  exact ⟨tree, List.mem_of_mem_filter (List.mem_of_getElem? htree), rfl⟩

section

variable (hchildren : ∀ child ∈ children, context.BuildsFormed child)
include hchildren

theorem isValue_of_operand {part : Part} {n : Nat} {e : Expr}
    (hpart : (context.nodeOf rule span children).operand n = .ok part)
    (h : context.value part = .ok e) : e.IsValue := by
  obtain ⟨tree, hmem, rfl⟩ := context.eq_part_of_operand hpart
  exact context.isValue_of_value (hchildren tree hmem) h

theorem formed_of_operand {part : Part} {n : Nat} {e : Expr}
    (hpart : (context.nodeOf rule span children).operand n = .ok part)
    (h : part.built = .ok e) : e.Formed := by
  obtain ⟨tree, hmem, rfl⟩ := context.eq_part_of_operand hpart
  exact hchildren tree hmem e h

/-! ### What each production builds -/

theorem isCondition_of_logical (combine : Expr → Expr → Expr)
    (hcombine : ∀ l r, l.IsCondition → r.IsCondition → (combine l r).IsCondition) {e : Expr}
    (h : (context.nodeOf rule span children).logical combine = .ok e) : e.IsCondition := by
  obtain ⟨items, hitems, hbalanced⟩ := context.operands_of_logical h
  refine keep_of_balanced hcombine (fun item hmem => ?_) hbalanced
  obtain ⟨tree, htree, hbuilt, hpredicate⟩ := exists_of_mem_right hitems hmem
  exact (hchildren tree (List.mem_of_mem_filter htree) item hbuilt).isCondition hpredicate

theorem isCondition_of_comparison {e : Expr}
    (h : (context.nodeOf rule span children).comparison context = .ok e) : e.IsCondition := by
  simp only [Node.comparison, bind_eq_ok, pure_eq_ok] at h
  obtain ⟨_, hp, left, hleft, _, hq, right, hright, ⟨negated, op⟩, -, rfl⟩ := h
  have hl := context.isValue_of_operand hchildren hp hleft
  have hr := context.isValue_of_operand hchildren hq hright
  exact ⟨rfl, by simp [Expr.children, hl, hr]⟩

theorem isCondition_of_between {e : Expr}
    (h : (context.nodeOf rule span children).between context = .ok e) : e.IsCondition := by
  simp only [Node.between, bind_eq_ok] at h
  obtain ⟨_, hp, subject, hsubject, _, hq, low, hlow, _, hr, high, hhigh, h⟩ := h
  have hs := context.isValue_of_operand hchildren hp hsubject
  have hl := context.isValue_of_operand hchildren hq hlow
  have hh := context.isValue_of_operand hchildren hr hhigh
  split at h
  all_goals
    obtain rfl := pure_eq_ok.mp h
    exact ⟨⟨rfl, by simp [Expr.children, hs, hl]⟩, ⟨rfl, by simp [Expr.children, hs, hh]⟩⟩

omit hchildren in
theorem isValue_arithmetic {a : Option String} {op : ArithmeticOp} {l r : Expr} (hl : l.IsValue)
    (hr : r.IsValue) : (Expr.arithmetic a op l r).IsValue :=
  Expr.isValue_iff.mpr ⟨⟨rfl, rfl, rfl⟩, by simp [Expr.children, hl, hr]⟩

omit hchildren in
theorem isValue_of_arithmeticFrom {node : Node} {start : Span} {first e : Expr}
    {rest : List Tree} (hrest : ∀ tree ∈ rest, context.BuildsFormed tree) (hfirst : first.IsValue)
    (h : node.arithmeticFrom context start first (rest.map context.part) = .ok e) : e.IsValue := by
  generalize hparts : rest.map context.part = parts at h
  fun_induction Node.arithmeticFrom context node start first parts generalizing rest with
  | case1 first =>
    obtain rfl : first = e := by simpa using h
    exact hfirst
  | case2 => exact absurd h reject_ne_ok
  | case3 first operator operand parts ih =>
    obtain ⟨sign, others, rfl, rfl, hothers⟩ := List.map_eq_cons_iff.mp hparts
    obtain ⟨tree, others, rfl, rfl, rfl⟩ := List.map_eq_cons_iff.mp hothers
    simp only [bind_eq_ok] at h
    obtain ⟨right, hright, op, hop, h⟩ := h
    have hvalue := context.isValue_of_value (hrest tree (by simp)) hright
    exact ih right op (fun tree hmem => hrest tree (by simp [hmem]))
      (isValue_arithmetic hfirst hvalue) rfl h

theorem isValue_of_arithmetic {e : Expr}
    (h : (context.nodeOf rule span children).arithmetic context = .ok e) : e.IsValue := by
  cases children with
  | nil => exact absurd h reject_ne_ok
  | cons tree trees =>
    obtain ⟨hfirst, hothers⟩ := List.forall_mem_cons.mp hchildren
    unfold Node.arithmetic at h
    simp only [nodeOf, parts_eq_map, List.map_cons, bind_eq_ok] at h
    obtain ⟨first, hvalue, h⟩ := h
    exact context.isValue_of_arithmeticFrom hothers (context.isValue_of_value hfirst hvalue) h

theorem isValue_of_signed {e : Expr}
    (h : (context.nodeOf rule span children).signed context = .ok e) : e.IsValue := by
  have hnone {a : Option String} {value : Constant} : (Expr.constant a value).IsValue :=
    Expr.IsOperation.isValue ⟨rfl, rfl, rfl⟩ rfl
  obtain ⟨inner, hinner, h⟩ := bind_eq_ok.mp h
  split at h
  · simp only [bind_eq_ok, pure_eq_ok] at h
    obtain ⟨value, -, rfl⟩ := h
    exact hnone
  · simp only [bind_eq_ok, pure_eq_ok] at h
    obtain ⟨right, hright, rfl⟩ := h
    exact isValue_arithmetic hnone (context.isValue_of_operand hchildren hinner hright)
  · exact context.isValue_of_operand hchildren hinner h

theorem isValue_of_call {e : Expr}
    (h : (context.nodeOf rule span children).call context = .ok e) : e.IsValue := by
  simp only [Node.call, bind_eq_ok, nodeOf_operands, List.mapM_map] at h
  obtain ⟨leaf, -, arguments, harguments, h⟩ := h
  have hvalues : ∀ argument ∈ arguments, argument.IsValue := by
    intro argument hmem
    obtain ⟨tree, htree, hvalue⟩ := exists_of_mem_right (forall₂_of_mapM_eq_ok harguments) hmem
    exact context.isValue_of_value (hchildren tree (List.mem_of_mem_filter htree)) hvalue
  split at h
  · exact absurd h reject_ne_ok
  · split at h
    · obtain rfl := pure_eq_ok.mp h
      exact Expr.isValue_iff.mpr ⟨⟨rfl, rfl, rfl⟩, hvalues⟩
    · split at h
      · exact absurd h reject_ne_ok
      · obtain rfl := pure_eq_ok.mp h
        exact Expr.isValue_iff.mpr ⟨⟨rfl, rfl, rfl⟩, hvalues⟩

omit hchildren in
theorem isValue_of_allColumns {node : Node} {e : Expr} (h : node.allColumns context = .ok e) :
    e.IsValue := by
  unfold Node.allColumns at h
  split at h
  · cases h
    exact Expr.IsOperation.isValue ⟨rfl, rfl, rfl⟩ rfl
  · simp only [bind_eq_ok, pure_eq_ok] at h
    obtain ⟨table, -, rfl⟩ := h
    exact Expr.IsOperation.isValue ⟨rfl, rfl, rfl⟩ rfl

/-- Each production builds a condition or a value when its parts do. -/
theorem formed_of_bare {e : Expr} (h : (context.nodeOf rule span children).bare context = .ok e) :
    e.Formed := by
  unfold Node.bare at h
  rw [nodeOf_rule] at h
  split at h
  case h_1 =>
    exact .inl (context.isCondition_of_logical hchildren (.or none) (fun _ _ hl hr => ⟨hl, hr⟩) h)
  case h_2 =>
    exact .inl (context.isCondition_of_logical hchildren (.and none) (fun _ _ hl hr => ⟨hl, hr⟩) h)
  case h_3 =>
    simp only [bind_eq_ok] at h
    obtain ⟨part, hpart, inner, hinner, hnegate⟩ := h
    obtain ⟨hpredicate, rfl⟩ := complement_of_negate hnegate
    exact .inl ((context.formed_of_operand hchildren hpart hinner).isCondition
      hpredicate).complement
  case h_4 => exact absurd h refuse_ne_ok
  case h_5 => exact .inl (context.isCondition_of_comparison hchildren h)
  case h_6 =>
    obtain ⟨column, values, rfl⟩ := context.eq_of_inList h
    exact .inl (Expr.isAtom_of_isLeaf rfl rfl)
  case h_7 =>
    obtain ⟨column, pattern, escape, rfl⟩ := context.eq_of_like h
    exact .inl (Expr.isAtom_of_isLeaf rfl rfl)
  case h_8 =>
    obtain ⟨column, rfl⟩ := context.eq_of_isNull h
    exact .inl (Expr.isAtom_of_isLeaf rfl rfl)
  case h_9 => exact .inl (context.isCondition_of_between hchildren h)
  case h_10 => exact .inr (context.isValue_of_arithmetic hchildren h)
  case h_11 => exact .inr (context.isValue_of_arithmetic hchildren h)
  case h_12 => exact .inr (context.isValue_of_signed hchildren h)
  case h_13 =>
    obtain ⟨part, hpart, hbuilt⟩ := bind_eq_ok.mp h
    exact context.formed_of_operand hchildren hpart hbuilt
  case h_14 => exact .inr (context.isValue_of_call hchildren h)
  case h_15 =>
    simp only [bind_eq_ok, pure_eq_ok] at h
    obtain ⟨literal, -, rfl⟩ := h
    exact .inr (Expr.IsOperation.isValue ⟨rfl, rfl, rfl⟩ rfl)
  case h_16 =>
    split at h
    · cases h
      exact .inr (Expr.IsOperation.isValue ⟨rfl, rfl, rfl⟩ rfl)
    · exact absurd h reject_ne_ok
  case h_17 =>
    simp only [bind_eq_ok, pure_eq_ok] at h
    obtain ⟨column, -, rfl⟩ := h
    exact .inr (Expr.IsOperation.isValue ⟨rfl, rfl, rfl⟩ rfl)
  case h_18 => exact .inr (context.isValue_of_allColumns h)
  case h_19 => exact absurd h refuse_ne_ok
  case h_20 => exact absurd h reject_ne_ok

end

/-- **Whatever a tree builds is a condition or a value**, whether the grammar made the tree or
not. -/
theorem buildsFormed (tree : Tree) : context.BuildsFormed tree := by
  induction tree using Tree.induct with
  | leaf lexeme => exact fun e h => absurd h reject_ne_ok
  | node rule span children ih =>
    intro e h
    obtain ⟨inner, a, hbare, rfl⟩ := context.bare_of_expression h
    exact (context.formed_of_bare ih hbare).imp Expr.isCondition_withAlias.mpr
      Expr.isValue_withAlias.mpr

end Build.Context

end SqlFront
