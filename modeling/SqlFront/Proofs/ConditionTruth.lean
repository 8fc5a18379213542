import SqlFront.Parse
import SqlFront.Proofs.Outcome
import SqlFront.Proofs.TreeInduction
import SqlFront.Proofs.Truth

/-!
The truth of a condition as it is written, and as it is stored.

`Context.reading` reads a parse tree directly: chains by the connectives, `NOT` by negation,
comparisons by what their operands stand for, and `BETWEEN` as two comparisons. What is stored went
a longer way: chains are regrouped, negations move to the predicates, and the whole is distributed.
Both have the same truth under every interpretation.
-/

namespace SqlFront

open Build

universe u

/-- The relation that a comparison sign stands for on ordered values. -/
def Symbol.relation? {α : Type u} [LinearOrder α] : Symbol → Option (α → α → Bool)
  | equal => some fun x y => decide (x = y)
  | notEqual => some fun x y => decide (x ≠ y)
  | greater => some fun x y => decide (y < x)
  | less => some fun x y => decide (x < y)
  | greaterEqual => some fun x y => decide (y ≤ x)
  | lessEqual => some fun x y => decide (x ≤ y)
  | _ => none

namespace Build.Context

variable {α : Type u} (context : Context) (I : Interpretation α)

/-- The value of an operand, as far as it can be built. -/
def valueOf? (tree : Tree) : Option (Option α) :=
  (context.expression tree).toOption.map I.value

/-- The operand at a place among the parts of a node, and its value. -/
def valueAt? (children : List Tree) (n : Nat) : Option (Option α) :=
  (children.filter Tree.isExpression)[n]?.bind (context.valueOf? I)

/-- A value that is built at a place is the value that the reading finds there. -/
theorem valueAt?_eq_some {rule : Rule} {span : Span} {children : List Tree} {n : Nat}
    {part : Part} {e : Expr} (hpart : (context.nodeOf rule span children).operand n = .ok part)
    (hvalue : context.value part = .ok e) :
    context.valueAt? I children n = some (I.value e) := by
  simp only [Node.operand, require_eq_ok, nodeOf_operands, List.getElem?_map,
    Option.map_eq_some_iff] at hpart
  obtain ⟨tree, htree, rfl⟩ := hpart
  obtain ⟨built, hbuilt, hcheck⟩ := bind_eq_ok.mp hvalue
  split at hcheck
  · exact absurd hcheck reject_ne_ok
  · obtain rfl := pure_eq_ok.mp hcheck
    have hexpr : context.expression tree = .ok built := hbuilt
    simp [valueAt?, htree, valueOf?, hexpr, Except.toOption]

variable [LinearOrder α]

/-- The direct reading of a comparison, by the first sign in it. -/
def comparisonReading (children : List Tree) : Option Truth :=
  match context.valueAt? I children 0, context.valueAt? I children 1,
      (Tree.leaves children).head? with
  | some left, some right, some ⟨.symbol sign, _⟩ =>
      sign.relation?.map fun relation => .compare relation left right
  | _, _, _ => none

/-- The direct reading of `x BETWEEN a AND b`, which is `x >= a AND x <= b`, or of its
negation. -/
def betweenReading (children : List Tree) : Option Truth :=
  match context.valueAt? I children 0, context.valueAt? I children 1,
      context.valueAt? I children 2 with
  | some subject, some low, some high =>
      let above := Truth.compare (fun x y => decide (y ≤ x)) subject low
      let below := Truth.compare (fun x y => decide (x ≤ y)) subject high
      some ((above.and below).signed (Tree.hasKeyword .NOT children))
  | _, _, _ => none

/-- The direct reading of `IN`, `LIKE` and `IS NULL`: what the interpretation says of the predicate
that is built, or the negation of it where a `NOT` is written. -/
def atomReading (tree : Tree) : Option Truth := do
  let atom ← I.atom? (← (context.expression tree).toOption)
  return atom.signed (Tree.hasKeyword .NOT tree.children)

mutual

/-- The truth of a condition as it is written. What is no condition has none. -/
def reading : Tree → Option Truth
  | .leaf _ => none
  | .node rule span children =>
      match rule with
      | .orExpr => (readings children).mapM id |>.map .any
      | .andExpr => (readings children).mapM id |>.map .all
      | .notExpr => (readings children).head?.join.map .not
      | .parenExpr => (readings children).head?.join
      | .comparisonExpr => context.comparisonReading I children
      | .betweenExpr => context.betweenReading I children
      | .inExpr | .likeExpr | .isNullExpr => context.atomReading I (.node rule span children)
      | _ => none

/-- The truths of the operands among some trees. -/
def readings : List Tree → List (Option Truth)
  | [] => []
  | tree :: trees => if tree.isExpression then reading tree :: readings trees else readings trees

end

theorem readings_eq_map (children : List Tree) :
    context.readings I children =
      (children.filter Tree.isExpression).map (context.reading I) := by
  induction children with
  | nil => rfl
  | cons tree trees ih =>
    rw [readings]
    split
    · rename_i h
      rw [ih, List.filter_cons_of_pos h, List.map_cons]
    · rename_i h
      rw [ih, List.filter_cons_of_neg h]

/-! ### Chains -/

/-- A balanced chain has the truth of its items, joined in their order. -/
theorem truth_balanced {combine : Expr → Expr → Expr} {op : Truth → Truth → Truth}
    {join : List Truth → Truth} (single : ∀ t, join [t] = t)
    (append : ∀ left right, join (left ++ right) = op (join left) (join right))
    (combined : ∀ l r, I.truth (combine l r) = op (I.truth l) (I.truth r))
    {items : List Expr} {e : Expr} (h : balanced combine items = some e) :
    I.truth e = join (items.map I.truth) := by
  refine balanced_induct (motive := fun items e => I.truth e = join (items.map I.truth))
    (fun item => (single _).symm) (fun left right l r hl hr => ?_) h
  rw [combined, hl, hr, ← append, ← List.map_append]

/-- A chain is built from the conditions that its operands build, which it then balances. -/
theorem operands_of_logical {rule : Rule} {span : Span} {children : List Tree}
    {combine : Expr → Expr → Expr} {e : Expr}
    (h : (context.nodeOf rule span children).logical combine = .ok e) :
    ∃ items, List.Forall₂ (fun tree item => context.expression tree = .ok item ∧
      item.isPredicate = true) (children.filter Tree.isExpression) items ∧
      balanced combine items = some e := by
  simp only [Node.logical, bind_eq_ok, require_eq_ok, nodeOf_operands, List.mapM_map] at h
  obtain ⟨items, hitems, hbalanced⟩ := h
  refine ⟨items, (forall₂_of_mapM_eq_ok hitems).imp fun tree item hitem => ?_, hbalanced⟩
  obtain ⟨built, hbuilt, hcheck⟩ := bind_eq_ok.mp hitem
  split at hcheck
  · rename_i hpredicate
    obtain rfl := pure_eq_ok.mp hcheck
    exact ⟨hbuilt, hpredicate⟩
  · exact absurd hcheck reject_ne_ok

theorem reading_of_operands {items : List Expr} {operands : List Tree}
    (built : List.Forall₂ (fun tree item => context.reading I tree = some (I.truth item))
      operands items) :
    (operands.map (context.reading I)).mapM id = some (items.map I.truth) := by
  induction built with
  | nil => rfl
  | cons first rest ih => simp [first, ih]

/-! ### Predicates -/

/-- The operator that a sign is built as, with its flag, is the relation of the sign. -/
theorem relation_of_comparisonOf {token : Token} {negated : Bool} {op : ComparisonOp}
    (h : comparisonOf? token = some (negated, op)) :
    ∃ sign relation, token = .symbol sign ∧ sign.relation? (α := α) = some relation ∧
      ∀ x y, Truth.compare relation x y = (Truth.compare op.holds x y).signed negated := by
  cases token with
  | symbol sign =>
    cases sign <;> simp only [comparisonOf?, Option.some.injEq, Prod.mk.injEq, reduceCtorEq] at h
    case notEqual =>
      obtain ⟨rfl, rfl⟩ := h
      exact ⟨_, _, rfl, rfl, Truth.compare_not fun x y => by simp [ComparisonOp.holds]⟩
    all_goals
      obtain ⟨rfl, rfl⟩ := h
      exact ⟨_, _, rfl, rfl, fun x y => rfl⟩
  | _ => cases h

/-- A comparison that is built has the truth of its direct reading. -/
theorem reading_of_comparison {rule : Rule} {span : Span} {children : List Tree} {e : Expr}
    (h : (context.nodeOf rule span children).comparison context = .ok e) :
    context.comparisonReading I children = some (I.truth e) := by
  simp only [Node.comparison, bind_eq_ok, require_eq_ok, pure_eq_ok] at h
  obtain ⟨_, hp, left, hleft, _, hq, right, hright, ⟨negated, op⟩, hsign, rfl⟩ := h
  rw [Node.firstLeaf, nodeOf_trees, Option.bind_eq_some_iff] at hsign
  obtain ⟨⟨token, place⟩, hleaf, hop⟩ := hsign
  obtain ⟨sign, relation, rfl, hrelation, same⟩ := relation_of_comparisonOf (α := α) hop
  simp only [comparisonReading, context.valueAt?_eq_some I hp hleft,
    context.valueAt?_eq_some I hq hright, hleaf, hrelation, Option.map_some]
  exact congrArg some (same _ _)

/-- `BETWEEN` is built as two comparisons in either form, of which the negated ones fail exactly
where the others hold. -/
theorem reading_of_between {rule : Rule} {span : Span} {children : List Tree} {e : Expr}
    (h : (context.nodeOf rule span children).between context = .ok e) :
    context.betweenReading I children = some (I.truth e) := by
  simp only [Node.between, bind_eq_ok] at h
  obtain ⟨_, hp, subject, hsubject, _, hq, low, hlow, _, hr, high, hhigh, h⟩ := h
  have below : ∀ x y : Option α, Truth.compare (fun x y => decide (x < y)) x y =
      (Truth.compare (fun x y => decide (y ≤ x)) x y).not :=
    Truth.compare_not fun x y => by simp [← not_le]
  have above : ∀ x y : Option α, Truth.compare (fun x y => decide (y < x)) x y =
      (Truth.compare (fun x y => decide (x ≤ y)) x y).not :=
    Truth.compare_not fun x y => by simp [← not_le]
  simp only [betweenReading, context.valueAt?_eq_some I hp hsubject,
    context.valueAt?_eq_some I hq hlow, context.valueAt?_eq_some I hr hhigh, Option.some.injEq]
  rw [Node.hasKeyword, nodeOf_trees] at h
  split at h
  · rename_i hnot
    obtain rfl := pure_eq_ok.mp h
    rw [hnot]
    exact (Truth.not_and _ _).trans (congrArg₂ Truth.or (below _ _).symm (above _ _).symm)
  · rename_i hnot
    obtain rfl := pure_eq_ok.mp h
    rw [Bool.not_eq_true] at hnot
    rw [hnot]
    rfl

theorem eq_of_inList {rule : Rule} {span : Span} {children : List Tree} {e : Expr}
    (h : (context.nodeOf rule span children).inList context = .ok e) :
    ∃ column values, e = .inList none (Tree.hasKeyword .NOT children) column values := by
  simp only [Node.inList, bind_eq_ok] at h
  obtain ⟨_, -, column, -, h⟩ := h
  split at h
  · obtain ⟨_, refused, -⟩ := bind_eq_ok.mp h
    exact absurd refused refuse_ne_ok
  · simp only [pure_eq_ok, bind_eq_ok, Node.hasKeyword, nodeOf_trees] at h
    obtain ⟨members, -, values, -, rfl⟩ := h
    exact ⟨column, values, rfl⟩

theorem eq_of_like {rule : Rule} {span : Span} {children : List Tree} {e : Expr}
    (h : (context.nodeOf rule span children).like context = .ok e) :
    ∃ column pattern escape,
      e = .like none (Tree.hasKeyword .NOT children) column pattern escape := by
  simp only [Node.like, bind_eq_ok] at h
  obtain ⟨_, -, column, -, _, -, pattern, -, h⟩ := h
  split at h
  · simp only [bind_eq_ok, pure_eq_ok, Node.hasKeyword, nodeOf_trees] at h
    obtain ⟨_, -, _, -, c, -, escape, -, rfl⟩ := h
    exact ⟨column, pattern, escape, rfl⟩
  · simp only [bind_eq_ok, pure_eq_ok, Node.hasKeyword, nodeOf_trees] at h
    obtain ⟨escape, -, rfl⟩ := h
    exact ⟨column, pattern, escape, rfl⟩

theorem eq_of_isNull {rule : Rule} {span : Span} {children : List Tree} {e : Expr}
    (h : (context.nodeOf rule span children).isNull = .ok e) :
    ∃ column, e = .isNull none (Tree.hasKeyword .NOT children) column := by
  simp only [Node.isNull, bind_eq_ok, pure_eq_ok, Node.hasKeyword, nodeOf_trees] at h
  obtain ⟨_, -, column, -, rfl⟩ := h
  exact ⟨column, rfl⟩

/-- A predicate that is built with the flag that its `NOT` says has the truth of its reading. -/
theorem reading_of_atom {rule : Rule} {span : Span} {children : List Tree} {e : Expr}
    {a : Option String} (built : context.expression (.node rule span children) =
      .ok (e.withAlias a)) {t : Truth} (atom : I.atom? e = some t)
    (flag : e.negated? = some (Tree.hasKeyword .NOT children)) :
    context.atomReading I (.node rule span children) = some (I.truth e) := by
  have signed : I.truth e = t.signed (Tree.hasKeyword .NOT children) := by
    cases e <;> simp_all [Interpretation.truth, Interpretation.atom?, Expr.negated?]
  have named : I.atom? (e.withAlias a) = some t := by
    cases e <;> exact atom
  simp [atomReading, built, Except.toOption, named, signed, Tree.children]

/-! ### The whole condition -/

/-- The node that a tree builds its expression from, before it gets its alias. -/
theorem bare_of_expression {rule : Rule} {span : Span} {children : List Tree} {e : Expr}
    (h : context.expression (.node rule span children) = .ok e) :
    ∃ inner a, (context.nodeOf rule span children).bare context = .ok inner ∧
      e = inner.withAlias a := by
  rw [expression] at h
  split at h
  · simp only [Node.build, bind_eq_ok, pure_eq_ok] at h
    obtain ⟨inner, hinner, rfl⟩ := h
    exact ⟨inner, _, hinner, rfl⟩
  · exact absurd h reject_ne_ok

/-- The productions that can build a condition. -/
def isConditionRule : Rule → Bool
  | .orExpr | .andExpr | .notExpr | .parenExpr | .comparisonExpr | .betweenExpr | .inExpr
  | .likeExpr | .isNullExpr => true
  | _ => false

theorem isPredicate_of_value {part : Part} {e : Expr} (h : context.value part = .ok e) :
    e.isPredicate = false := by
  obtain ⟨built, -, hcheck⟩ := bind_eq_ok.mp h
  split at hcheck
  · exact absurd hcheck reject_ne_ok
  · rename_i hvalue
    obtain rfl := pure_eq_ok.mp hcheck
    exact Bool.eq_false_iff.mpr hvalue

theorem isPredicate_of_arithmeticFrom {node : Node} {start : Span} {first e : Expr}
    {rest : List Part} (value : first.isPredicate = false)
    (h : node.arithmeticFrom context start first rest = .ok e) : e.isPredicate = false := by
  fun_induction Node.arithmeticFrom context node start first rest with
  | case1 first =>
    obtain rfl : first = e := by simpa using h
    exact value
  | case2 => exact absurd h reject_ne_ok
  | case3 first operator operand rest =>
    rename_i ih
    simp only [bind_eq_ok] at h
    obtain ⟨right, hright, op, hop, h⟩ := h
    exact ih right op rfl h

theorem isPredicate_of_arithmetic {node : Node} {e : Expr}
    (h : node.arithmetic context = .ok e) : e.isPredicate = false := by
  unfold Node.arithmetic at h
  split at h
  · exact absurd h reject_ne_ok
  · obtain ⟨first, hfirst, h⟩ := bind_eq_ok.mp h
    exact context.isPredicate_of_arithmeticFrom (context.isPredicate_of_value hfirst) h

theorem isPredicate_of_signed {node : Node} {e : Expr} (h : node.signed context = .ok e) :
    e.isPredicate = false := by
  obtain ⟨inner, hinner, h⟩ := bind_eq_ok.mp h
  split at h
  · simp only [bind_eq_ok, pure_eq_ok] at h
    obtain ⟨value, -, rfl⟩ := h
    rfl
  · simp only [bind_eq_ok, pure_eq_ok] at h
    obtain ⟨right, -, rfl⟩ := h
    rfl
  · exact context.isPredicate_of_value h

theorem isPredicate_of_call {node : Node} {e : Expr} (h : node.call context = .ok e) :
    e.isPredicate = false := by
  simp only [Node.call, bind_eq_ok] at h
  obtain ⟨leaf, -, arguments, -, h⟩ := h
  split at h
  · exact absurd h reject_ne_ok
  · split at h
    · obtain rfl := pure_eq_ok.mp h
      rfl
    · split at h
      · exact absurd h reject_ne_ok
      · obtain rfl := pure_eq_ok.mp h
        rfl

theorem isPredicate_of_allColumns {node : Node} {e : Expr}
    (h : node.allColumns context = .ok e) : e.isPredicate = false := by
  unfold Node.allColumns at h
  split at h
  · cases h
    rfl
  · simp only [bind_eq_ok, pure_eq_ok] at h
    obtain ⟨table, -, rfl⟩ := h
    rfl

/-- Every other production builds a value or nothing. -/
theorem isPredicate_of_bare {node : Node} {e : Expr} (h : node.bare context = .ok e)
    (value : isConditionRule node.rule = false) : e.isPredicate = false := by
  unfold Node.bare at h
  split at h <;> rename_i hrule <;> simp only [hrule, isConditionRule, reduceCtorEq] at value
  case h_4 => exact absurd h refuse_ne_ok
  case h_10 => exact context.isPredicate_of_arithmetic h
  case h_11 => exact context.isPredicate_of_arithmetic h
  case h_12 => exact context.isPredicate_of_signed h
  case h_14 => exact context.isPredicate_of_call h
  case h_15 =>
    simp only [bind_eq_ok, pure_eq_ok] at h
    obtain ⟨literal, -, rfl⟩ := h
    rfl
  case h_16 =>
    split at h
    · cases h
      rfl
    · exact absurd h reject_ne_ok
  case h_17 =>
    simp only [bind_eq_ok, pure_eq_ok] at h
    obtain ⟨column, -, rfl⟩ := h
    rfl
  case h_18 => exact context.isPredicate_of_allColumns h
  case h_19 => exact absurd h refuse_ne_ok
  case h_20 => exact absurd h reject_ne_ok

/-- What can be negated is a condition, and its negation is its complement. -/
theorem complement_of_negate {e negation : Expr}
    (h : Built.ofMeaning e.negate = .ok negation) :
    e.isPredicate = true ∧ negation = e.complement := by
  simp only [Built.ofMeaning, mapError_eq_ok, Expr.negate] at h
  split at h
  · rename_i predicate
    cases h
    exact ⟨predicate, rfl⟩
  · cases h

/-- The direct reading of a tree is defined and true of every condition it builds. -/
def ReadsAsBuilt (tree : Tree) : Prop :=
  ∀ e, context.expression tree = .ok e → e.isPredicate = true →
    context.reading I tree = some (I.truth e)

/-- A node that only looks into its first operand reads it. -/
theorem reading_of_first {rule : Rule} {span : Span} {children : List Tree} {part : Part}
    {e : Expr} (ih : ∀ child ∈ children, context.ReadsAsBuilt I child)
    (hpart : (context.nodeOf rule span children).operand 0 = .ok part)
    (built : part.built = .ok e) (condition : e.isPredicate = true) :
    (context.readings I children).head?.join = some (I.truth e) := by
  simp only [Node.operand, require_eq_ok, nodeOf_operands, List.getElem?_map,
    Option.map_eq_some_iff] at hpart
  obtain ⟨tree, htree, rfl⟩ := hpart
  have member := List.mem_of_mem_filter (List.mem_of_getElem? htree)
  rw [readings_eq_map, List.head?_map, List.head?_eq_getElem?, htree, Option.map_some,
    Option.join_some]
  exact ih tree member e built condition

/-- A chain reads all of its operands. -/
theorem readings_of_logical {rule : Rule} {span : Span} {children : List Tree}
    {combine : Expr → Expr → Expr} {e : Expr}
    (ih : ∀ child ∈ children, context.ReadsAsBuilt I child)
    (h : (context.nodeOf rule span children).logical combine = .ok e) :
    ∃ items, (context.readings I children).mapM id = some (items.map I.truth) ∧
      balanced combine items = some e := by
  obtain ⟨items, hitems, hbalanced⟩ := context.operands_of_logical h
  refine ⟨items, ?_, hbalanced⟩
  rw [readings_eq_map]
  apply context.reading_of_operands I
  refine (List.forall₂_iff_get.mpr ⟨hitems.length_eq, fun i hi hj => ?_⟩)
  have member := List.mem_of_mem_filter (List.get_mem (children.filter Tree.isExpression) ⟨i, hi⟩)
  obtain ⟨built, condition⟩ := hitems.get hi hj
  exact ih _ member _ built condition

/-- **A condition that can be built has a direct reading, and the same truth.** The induction is on
the tree: under a chain or a `NOT` stand smaller conditions, and the predicates are its leaves. -/
theorem readsAsBuilt (tree : Tree) : context.ReadsAsBuilt I tree := by
  induction tree using Tree.induct with
  | leaf lexeme => exact fun e built _ => absurd built reject_ne_ok
  | node rule span children ih =>
    intro e built condition
    obtain ⟨inner, a, hbare, rfl⟩ := context.bare_of_expression built
    rw [Expr.isPredicate_withAlias] at condition
    cases hrule : isConditionRule rule with
    | false => exact absurd condition (by simp [context.isPredicate_of_bare hbare hrule])
    | true =>
      unfold Node.bare at hbare
      rw [nodeOf_rule] at hbare
      rw [I.truth_withAlias]
      split at hbare <;> simp only [isConditionRule, reduceCtorEq] at hrule
      case h_1 =>
        obtain ⟨items, hitems, hbalanced⟩ := context.readings_of_logical I ih hbare
        have joined := truth_balanced I (fun t => Truth.or_no t) Truth.any_append
          (fun _ _ => rfl) hbalanced
        simp only [reading, hitems, Option.map_some, joined]
      case h_2 =>
        obtain ⟨items, hitems, hbalanced⟩ := context.readings_of_logical I ih hbare
        have joined := truth_balanced I (fun t => Truth.and_yes t) Truth.all_append
          (fun _ _ => rfl) hbalanced
        simp only [reading, hitems, Option.map_some, joined]
      case h_3 =>
        simp only [bind_eq_ok] at hbare
        obtain ⟨part, hpart, positive, hpositive, hnegate⟩ := hbare
        obtain ⟨predicate, rfl⟩ := complement_of_negate hnegate
        simp only [reading, context.reading_of_first I ih hpart hpositive predicate,
          Option.map_some, I.truth_complement]
      case h_5 => exact context.reading_of_comparison I hbare
      case h_6 =>
        obtain ⟨column, values, rfl⟩ := context.eq_of_inList hbare
        exact context.reading_of_atom I built rfl rfl
      case h_7 =>
        obtain ⟨column, pattern, escape, rfl⟩ := context.eq_of_like hbare
        exact context.reading_of_atom I built rfl rfl
      case h_8 =>
        obtain ⟨column, rfl⟩ := context.eq_of_isNull hbare
        exact context.reading_of_atom I built rfl rfl
      case h_9 => exact context.reading_of_between I hbare
      case h_13 =>
        obtain ⟨part, hpart, hbuilt⟩ := bind_eq_ok.mp hbare
        exact context.reading_of_first I ih hpart hbuilt condition

/-- **Storing a condition keeps its truth.** A condition that is stored has a direct reading, and
its normal form has the same truth as that reading under every interpretation. -/
theorem condition_keeps_truth {name : String} {clause : Tree} {cnf : Cnf}
    (stored : context.condition name clause = .ok cnf) :
    ∃ tree, clause.children.find? Tree.isExpression = some tree ∧
      context.reading I tree = some (I.ofCnf cnf) := by
  simp only [condition, firstExpression, bind_eq_ok, require_eq_ok] at stored
  obtain ⟨e, ⟨tree, first, built⟩, stored⟩ := stored
  split at stored
  · rename_i predicate
    rw [mapError_eq_ok, Expr.normalizeWithin] at stored
    split at stored
    · cases stored
    · cases stored
      refine ⟨tree, first, ?_⟩
      rw [context.readsAsBuilt I tree e built predicate, I.ofCnf_normalize]
  · exact absurd stored reject_ne_ok

/-- `NOT a BETWEEN 1 AND b` is stored, and it is true where `a` is zero and `b` is null. -/
theorem condition_keeps_truth_of_between :
    let source := ['N', 'O', 'T', ' ', 'a', ' ', 'B', 'E', 'T', 'W', 'E', 'E', 'N', ' ', '1', ' ',
      'A', 'N', 'D', ' ', 'b']
    let context : Context := { config := Config.ofDialect .mysql, source }
    let value : Expr → Option Int := fun
      | .constant _ (.int n) => some n
      | .column _ column => if column.name = "a" then some 0 else none
      | _ => none
    let I : Interpretation Int := ⟨value, fun _ _ => .no, fun _ => .no, fun _ _ _ => .no⟩
    ∃ tree cnf, context.config.expressionTree source = .ok tree ∧
      context.condition "WHERE" (.ofParts .whereClause [tree]) = .ok cnf ∧ I.ofCnf cnf = .yes := by
  intro source context value I
  suffices kept : ∀ tree cnf, context.config.expressionTree source = .ok tree →
      context.condition "WHERE" (.ofParts .whereClause [tree]) = .ok cnf → I.ofCnf cnf = .yes from
    ⟨_, _, rfl, rfl, kept _ _ rfl rfl⟩
  intro tree cnf parsed stored
  obtain ⟨found, first, same⟩ := context.condition_keeps_truth I stored
  obtain rfl := Except.ok.inj parsed
  obtain rfl := Option.some.inj first
  exact (Option.some.inj same).symm

end Build.Context

end SqlFront
