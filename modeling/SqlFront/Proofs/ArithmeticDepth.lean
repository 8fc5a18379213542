import SqlFront.Proofs.ExpressionText
import SqlFront.Proofs.NormalForm

/-!
How deep arithmetic gets within the levels of nesting.

Every operator of a chain takes a level, which the operands after it do without. But the levels are
given back at the end of the chain, and the chain may then be the first operand of another one: a
product at the start of a sum, or a sum in parentheses at the start of a product. There the
operators of both chains stand on one path, though each chain had all the levels for itself. So the
depth is bounded by the square of the levels, about, and not by the levels.
-/

namespace SqlFront

open Build SqlFront.Tree

/-! ### The depth of an expression -/

namespace Expr

mutual

/-- The most operations of arithmetic on a path from the top of an expression downwards. -/
def arithmeticDepth : Expr → Nat
  | arithmetic _ _ l r => max (arithmeticDepth l) (arithmeticDepth r) + 1
  | compare _ _ _ l r | and _ l r | or _ l r => max (arithmeticDepth l) (arithmeticDepth r)
  | call _ _ args | aggregate _ _ _ args => arithmeticDepthOf args
  | _ => 0

/-- The most operations of arithmetic on a path through one of some expressions. -/
def arithmeticDepthOf : List Expr → Nat
  | [] => 0
  | e :: es => max (arithmeticDepth e) (arithmeticDepthOf es)

end

theorem arithmeticDepthOf_le {depth : Nat} {es : List Expr} :
    arithmeticDepthOf es ≤ depth ↔ ∀ e ∈ es, e.arithmeticDepth ≤ depth := by
  induction es with
  | nil => simp [arithmeticDepthOf]
  | cons e es ih => simp [arithmeticDepthOf, ih]

@[simp]
theorem arithmeticDepth_withAlias (a : Option String) (e : Expr) :
    (e.withAlias a).arithmeticDepth = e.arithmeticDepth := by
  cases e <;> simp [withAlias, arithmeticDepth]

@[simp]
theorem arithmeticDepth_named (aliasName : String) (e : Expr) :
    (Build.named aliasName e).arithmeticDepth = e.arithmeticDepth := by
  cases e <;> simp [Build.named, withAlias, arithmeticDepth]

/-- Negation moves inwards past conditions only. -/
@[simp]
theorem arithmeticDepth_complement (e : Expr) :
    e.complement.arithmeticDepth = e.arithmeticDepth := by
  fun_induction Expr.complement e with
  | case1 a l r ihl ihr => simp [arithmeticDepth, ihl, ihr]
  | case2 a l r ihl ihr => simp [arithmeticDepth, ihl, ihr]
  | case3 e hand hor => cases e <;> simp [toggled, arithmeticDepth]

theorem arithmeticDepth_le_of_mem {outer child : Expr} (h : child ∈ outer.children) :
    child.arithmeticDepth ≤ outer.arithmeticDepth := by
  cases outer with
  | call | aggregate => exact arithmeticDepthOf_le.mp (Nat.le_refl _) child h
  | arithmetic | compare | and | or =>
    obtain rfl | rfl : child = _ ∨ child = _ := by simpa [children] using h
    all_goals simp only [arithmeticDepth]; omega
  | _ => simp [children] at h

theorem Within.arithmeticDepth_le {inner outer : Expr} (h : inner.Within outer) :
    inner.arithmeticDepth ≤ outer.arithmeticDepth := by
  induction h with
  | self => exact Nat.le_refl _
  | part hmem _ ih => exact Nat.le_trans ih (arithmeticDepth_le_of_mem hmem)

/-- What the distribution of a condition consists of lies within the condition. -/
theorem within_of_distributed {e predicate : Expr} {clause : List Expr}
    (hclause : clause ∈ e.distributed) (hmem : predicate ∈ clause) : predicate.Within e := by
  have left {outer l r : Expr} (hparts : outer.children = [l, r]) (h : predicate.Within l) :
      predicate.Within outer := .part (by rw [hparts]; exact .head _) h
  have right {outer l r : Expr} (hparts : outer.children = [l, r]) (h : predicate.Within r) :
      predicate.Within outer := .part (by rw [hparts]; exact .tail _ (.head _)) h
  fun_induction distributed e generalizing clause with
  | case1 a l r ihl ihr =>
    rcases List.mem_append.mp hclause with hclause | hclause
    · exact left rfl (ihl hclause hmem)
    · exact right rfl (ihr hclause hmem)
  | case2 a l r ihr ihl =>
    obtain ⟨c, hc, hclause⟩ := List.mem_flatMap.mp hclause
    obtain ⟨d, hd, rfl⟩ := List.mem_map.mp hclause
    rcases List.mem_append.mp hmem with hmem | hmem
    · exact left rfl (ihl hc hmem)
    · exact right rfl (ihr hd hmem)
  | case3 e =>
    obtain rfl : clause = [e] := by simpa using hclause
    obtain rfl : predicate = e := by simpa using hmem
    exact .self

theorem within_of_normalize {e predicate : Expr} (h : predicate ∈ e.normalize.predicates) :
    predicate.Within e := by
  obtain ⟨clause, hclause, hmem⟩ :=
    List.mem_flatten.mp ((predicates_normalize_perm e).mem_iff.mp h)
  exact within_of_distributed hclause hmem

end Expr

/-! ### The depth that levels of nesting allow -/

/-- The deepest arithmetic within so many levels. -/
def deepestArithmetic : Nat → Nat
  | 0 => 0
  | levels + 1 => (levels + 1) * (levels + 2) + 1

/-- The deepest arithmetic in an operand of a product. Such an operand takes a level for a sign, or
for the parentheses around an expression. -/
def deepestOperand : Nat → Nat
  | 0 => 0
  | levels + 1 => levels * (levels + 1) + 1

theorem deepestOperand_mono {few many : Nat} (h : few ≤ many) :
    deepestOperand few ≤ deepestOperand many := by
  cases few with
  | zero => exact Nat.zero_le _
  | succ few =>
    cases many with
    | zero => cases h
    | succ many => exact Nat.succ_le_succ (Nat.mul_le_mul (Nat.le_of_succ_le_succ h) h)

/-- What one more level adds to the product of two numbers in a row. -/
theorem mul_succ_eq_add (levels : Nat) :
    (levels + 1) * (levels + 2) = levels * (levels + 1) + 2 * (levels + 1) := by
  rw [← Nat.add_mul, Nat.mul_comm]

namespace Level

/-- The chains of operators that may stand around the operands of products, in an expression of a
level. -/
def chains : Level → Nat
  | sign | primary => 0
  | product => 1
  | _ => 2

/-- The deepest arithmetic in an expression of a level. Each chain has all the levels for its
operators. -/
def deepest (level : Level) (levels : Nat) : Nat :=
  deepestOperand levels + level.chains * levels

theorem chains_le {loose tight : Level} (h : loose.rank ≤ tight.rank) :
    tight.chains ≤ loose.chains := by
  revert h
  cases loose <;> cases tight <;> decide

theorem deepest_mono {loose tight : Level} {few many : Nat} (hrank : loose.rank ≤ tight.rank)
    (hle : few ≤ many) : tight.deepest few ≤ loose.deepest many :=
  Nat.add_le_add (deepestOperand_mono hle) (Nat.mul_le_mul (chains_le hrank) hle)

theorem deepest_primary (levels : Nat) : primary.deepest levels = deepestOperand levels := by
  simp [deepest, chains]

theorem deepest_sign (levels : Nat) : sign.deepest levels = deepestOperand levels := by
  simp [deepest, chains]

theorem deepest_product (levels : Nat) :
    product.deepest levels = sign.deepest levels + levels := by
  simp [deepest, chains]

theorem deepest_sum (levels : Nat) : sum.deepest levels = product.deepest levels + levels := by
  simp only [deepest, chains]
  omega

theorem deepest_disjunction (levels : Nat) :
    disjunction.deepest levels = deepestArithmetic levels := by
  cases levels with
  | zero => rfl
  | succ levels =>
    simp only [deepest, deepestOperand, deepestArithmetic, chains, mul_succ_eq_add]
    omega

/-- The deepest operand is any expression in parentheses, once there is a level left in them. -/
theorem deepestOperand_succ_succ (levels : Nat) :
    deepestOperand (levels + 2) = disjunction.deepest (levels + 1) := by
  rw [deepest_disjunction]
  rfl

/-- Parentheses take a level, and may hold any expression. -/
theorem deepest_disjunction_le (levels : Nat) :
    disjunction.deepest levels ≤ deepestOperand (levels + 1) := by
  cases levels with
  | zero => exact Nat.zero_le _
  | succ levels => exact (deepestOperand_succ_succ levels).ge

/-- A sign takes a level, and may add an operation. -/
theorem deepestOperand_succ_le (levels : Nat) :
    deepestOperand levels + 1 ≤ deepestOperand (levels + 1) := by
  cases levels with
  | zero => exact Nat.le_refl _
  | succ levels =>
    simp only [deepestOperand, mul_succ_eq_add]
    omega

end Level

namespace Tree

/-- The deepest arithmetic that may stand in what a tree builds. -/
def depthBound (tree : Tree) : Nat :=
  (tree.level?.getD .primary).deepest tree.nesting

variable {tree : Tree} {levels : Nat}

theorem depthBound_le {level : Level} (h : tree.bindsAt level) (hnests : tree.nesting ≤ levels) :
    tree.depthBound ≤ level.deepest levels := by
  obtain ⟨own, hown, hrank⟩ := bindsAt_iff.mp h
  rw [depthBound, hown]
  exact Level.deepest_mono hrank hnests

theorem depthBound_le_disjunction (hnests : tree.nesting ≤ levels) :
    tree.depthBound ≤ Level.disjunction.deepest levels :=
  Level.deepest_mono (Nat.zero_le _) hnests

end Tree

/-! ### The depth of what trees build -/

/-- The productions that may add an operation of arithmetic. -/
def Rule.isArithmetic : Rule → Bool
  | additiveExpr | multiplicativeExpr | unaryExpr => true
  | _ => false

/-- The productions over tokens alone. -/
def Rule.isFlat : Rule → Bool
  | literal | placeholder | columnName | allColumns => true
  | _ => false

namespace Build.Context

variable (context : Context)

/-- Whatever the tree builds has at most so many operations of arithmetic on a path. -/
def BuildsWithin (depth : Nat) (tree : Tree) : Prop :=
  ∀ e, context.expression tree = .ok e → e.arithmeticDepth ≤ depth

theorem BuildsWithin.mono {few many : Nat} {tree : Tree} (h : context.BuildsWithin few tree)
    (hle : few ≤ many) : context.BuildsWithin many tree :=
  fun e he => Nat.le_trans (h e he) hle

theorem buildsWithin_leaf (depth : Nat) (lexeme : Lexeme) :
    context.BuildsWithin depth (.leaf lexeme) :=
  fun _ h => absurd h reject_ne_ok

variable {rule : Rule} {span : Span} {children : List Tree} {depth : Nat} {e : Expr}

theorem arithmeticDepth_of_flat (hrule : rule.isFlat)
    (h : (context.nodeOf rule span children).bare context = .ok e) : e.arithmeticDepth = 0 := by
  unfold Node.bare at h
  rw [nodeOf_rule] at h
  cases rule with
  | literal =>
    simp only [bind_eq_ok, pure_eq_ok] at h
    obtain ⟨value, -, rfl⟩ := h
    rfl
  | placeholder =>
    dsimp only at h
    split at h
    · cases h
      rfl
    · exact absurd h reject_ne_ok
  | columnName =>
    simp only [bind_eq_ok, pure_eq_ok] at h
    obtain ⟨column, -, rfl⟩ := h
    rfl
  | allColumns =>
    simp only [Node.allColumns] at h
    split at h
    · cases h
      rfl
    · simp only [bind_eq_ok, pure_eq_ok] at h
      obtain ⟨table, -, rfl⟩ := h
      rfl
  | _ => cases hrule

theorem arithmeticDepth_of_value {tree : Tree} (htree : context.BuildsWithin depth tree)
    (h : context.value (context.part tree) = .ok e) : e.arithmeticDepth ≤ depth :=
  htree e (context.built_of_value h)

section

variable (hchildren : ∀ child ∈ children, context.BuildsWithin depth child)
include hchildren

theorem arithmeticDepth_of_operand {part : Part} {n : Nat}
    (hpart : (context.nodeOf rule span children).operand n = .ok part)
    (h : part.built = .ok e) : e.arithmeticDepth ≤ depth := by
  obtain ⟨tree, hmem, rfl⟩ := context.eq_part_of_operand hpart
  exact hchildren tree hmem e h

theorem arithmeticDepth_of_logical (combine : Expr → Expr → Expr)
    (hcombine : ∀ l r, (combine l r).arithmeticDepth = max l.arithmeticDepth r.arithmeticDepth)
    (h : (context.nodeOf rule span children).logical combine = .ok e) :
    e.arithmeticDepth ≤ depth := by
  obtain ⟨items, hitems, hbalanced⟩ := context.operands_of_logical h
  refine keep_of_balanced (motive := fun e => e.arithmeticDepth ≤ depth) (fun l r hl hr => ?_)
    (fun item hmem => ?_) hbalanced
  · rw [hcombine]
    exact Nat.max_le.mpr ⟨hl, hr⟩
  · obtain ⟨tree, htree, hbuilt, -⟩ := exists_of_mem_right hitems hmem
    exact hchildren tree (List.mem_of_mem_filter htree) item hbuilt

theorem arithmeticDepth_of_comparison
    (h : (context.nodeOf rule span children).comparison context = .ok e) :
    e.arithmeticDepth ≤ depth := by
  simp only [Node.comparison, bind_eq_ok, pure_eq_ok] at h
  obtain ⟨_, hp, left, hleft, _, hq, right, hright, ⟨negated, op⟩, -, rfl⟩ := h
  have hl := context.arithmeticDepth_of_operand hchildren hp (context.built_of_value hleft)
  have hr := context.arithmeticDepth_of_operand hchildren hq (context.built_of_value hright)
  exact Nat.max_le.mpr ⟨hl, hr⟩

theorem arithmeticDepth_of_between
    (h : (context.nodeOf rule span children).between context = .ok e) :
    e.arithmeticDepth ≤ depth := by
  simp only [Node.between, bind_eq_ok] at h
  obtain ⟨_, hp, subject, hsubject, _, hq, low, hlow, _, hr, high, hhigh, h⟩ := h
  have hs := context.arithmeticDepth_of_operand hchildren hp (context.built_of_value hsubject)
  have hl := context.arithmeticDepth_of_operand hchildren hq (context.built_of_value hlow)
  have hh := context.arithmeticDepth_of_operand hchildren hr (context.built_of_value hhigh)
  split at h
  all_goals
    obtain rfl := pure_eq_ok.mp h
    exact Nat.max_le.mpr ⟨Nat.max_le.mpr ⟨hs, hl⟩, Nat.max_le.mpr ⟨hs, hh⟩⟩

theorem arithmeticDepth_of_call (h : (context.nodeOf rule span children).call context = .ok e) :
    e.arithmeticDepth ≤ depth := by
  simp only [Node.call, bind_eq_ok, nodeOf_operands, List.mapM_map] at h
  obtain ⟨leaf, -, arguments, harguments, h⟩ := h
  have hall : Expr.arithmeticDepthOf arguments ≤ depth := by
    refine Expr.arithmeticDepthOf_le.mpr fun argument hmem => ?_
    obtain ⟨tree, htree, hvalue⟩ := exists_of_mem_right (forall₂_of_mapM_eq_ok harguments) hmem
    exact context.arithmeticDepth_of_value (hchildren tree (List.mem_of_mem_filter htree)) hvalue
  split at h
  · exact absurd h reject_ne_ok
  · split at h
    · obtain rfl := pure_eq_ok.mp h
      exact hall
    · split at h
      · exact absurd h reject_ne_ok
      · obtain rfl := pure_eq_ok.mp h
        exact hall

/-- A minus sign in front of anything but a number subtracts from zero. -/
theorem arithmeticDepth_of_signed
    (h : (context.nodeOf rule span children).signed context = .ok e) :
    e.arithmeticDepth ≤ depth + 1 := by
  obtain ⟨inner, hinner, h⟩ := bind_eq_ok.mp h
  split at h
  · simp only [bind_eq_ok, pure_eq_ok] at h
    obtain ⟨value, -, rfl⟩ := h
    exact Nat.zero_le _
  · simp only [bind_eq_ok, pure_eq_ok] at h
    obtain ⟨right, hright, rfl⟩ := h
    have hr := context.arithmeticDepth_of_operand hchildren hinner (context.built_of_value hright)
    exact Nat.succ_le_succ (Nat.max_le.mpr ⟨Nat.zero_le _, hr⟩)
  · exact Nat.le_succ_of_le
      (context.arithmeticDepth_of_operand hchildren hinner (context.built_of_value h))

/-- All other productions build nothing deeper than their operands. -/
theorem arithmeticDepth_of_bare (hrule : rule.isArithmetic = false)
    (h : (context.nodeOf rule span children).bare context = .ok e) :
    e.arithmeticDepth ≤ depth := by
  have flat (hflat : rule.isFlat) : e.arithmeticDepth ≤ depth := by
    rw [context.arithmeticDepth_of_flat hflat h]
    exact Nat.zero_le _
  unfold Node.bare at h
  rw [nodeOf_rule] at h
  cases rule with
  | orExpr => exact context.arithmeticDepth_of_logical hchildren (.or none) (fun _ _ => rfl) h
  | andExpr => exact context.arithmeticDepth_of_logical hchildren (.and none) (fun _ _ => rfl) h
  | notExpr =>
    simp only [bind_eq_ok] at h
    obtain ⟨part, hpart, inner, hinner, hnegate⟩ := h
    obtain ⟨-, rfl⟩ := complement_of_negate hnegate
    rw [Expr.arithmeticDepth_complement]
    exact context.arithmeticDepth_of_operand hchildren hpart hinner
  | bitwiseExpr => exact absurd h refuse_ne_ok
  | comparisonExpr => exact context.arithmeticDepth_of_comparison hchildren h
  | inExpr =>
    obtain ⟨column, values, rfl⟩ := context.eq_of_inList h
    exact Nat.zero_le _
  | likeExpr =>
    obtain ⟨column, pattern, escape, rfl⟩ := context.eq_of_like h
    exact Nat.zero_le _
  | isNullExpr =>
    obtain ⟨column, rfl⟩ := context.eq_of_isNull h
    exact Nat.zero_le _
  | betweenExpr => exact context.arithmeticDepth_of_between hchildren h
  | additiveExpr | multiplicativeExpr | unaryExpr => cases hrule
  | parenExpr =>
    obtain ⟨part, hpart, hbuilt⟩ := bind_eq_ok.mp h
    exact context.arithmeticDepth_of_operand hchildren hpart hbuilt
  | functionCall => exact context.arithmeticDepth_of_call hchildren h
  | literal | placeholder | columnName | allColumns => exact flat rfl
  | subquery => exact absurd h refuse_ne_ok
  | _ => exact absurd h reject_ne_ok

end

/-- Each operator after the first operand adds an operation and takes a level: with as many levels
as there are, as many operations come on top of what the operands have. -/
theorem arithmeticDepth_of_arithmeticFrom {node : Node} {start : Span} {first : Expr}
    {isOperator : Token → Bool} {level : Level} {levels : Nat} {rest : List Tree}
    (hlinks : Links (isTokenOf isOperator) (bindsAt level) rest)
    (hrest : ∀ tree ∈ rest, context.BuildsWithin tree.depthBound tree)
    (hnests : nestingOfChain rest ≤ levels) (hlevel : level.deepest levels ≤ depth)
    (hfirst : first.arithmeticDepth ≤ depth)
    (h : node.arithmeticFrom context start first (rest.map context.part) = .ok e) :
    e.arithmeticDepth ≤ depth + levels := by
  induction hlinks generalizing first levels depth with
  | nil =>
    obtain rfl : first = e := by simpa [Node.arithmeticFrom] using h
    exact Nat.le_add_right_of_le hfirst
  | @cons mark operand trees hmark hoperand _ ih =>
    obtain ⟨lexeme, rfl, -⟩ := eq_leaf_of_isTokenOf hmark
    simp only [List.map_cons, Node.arithmeticFrom, bind_eq_ok] at h
    obtain ⟨right, hright, op, -, h⟩ := h
    rw [nestingOfChain_leaf, nestingOfChain_cons hoperand] at hnests
    obtain ⟨fewer, rfl⟩ : ∃ fewer, levels = fewer + 1 := ⟨levels - 1, by omega⟩
    obtain ⟨hown, hothers⟩ := Nat.max_le.mp (Nat.le_of_succ_le_succ hnests)
    have hfewer : level.deepest fewer ≤ depth :=
      Nat.le_trans (Level.deepest_mono (Nat.le_refl _) (Nat.le_succ fewer)) hlevel
    have hdepth : right.arithmeticDepth ≤ depth :=
      Nat.le_trans (context.arithmeticDepth_of_value (hrest operand (by simp)) hright)
        (Nat.le_trans (depthBound_le hoperand hown) hfewer)
    have hresult {a : Option String} :
        (Expr.arithmetic a op first right).arithmeticDepth ≤ depth + 1 :=
      Nat.succ_le_succ (Nat.max_le.mpr ⟨hfirst, hdepth⟩)
    have hnext : e.arithmeticDepth ≤ depth + 1 + fewer :=
      ih (fun tree hmem => hrest tree (by simp [hmem])) hothers (Nat.le_succ_of_le hfewer)
        hresult h
    omega

/-- A chain adds one operation for each level, on a path through its first operands. -/
theorem arithmeticDepth_of_arithmetic {isOperator : Token → Bool} {level : Level}
    (hchain : Chain isOperator level children)
    (hchildren : ∀ child ∈ children, context.BuildsWithin child.depthBound child)
    (h : (context.nodeOf rule span children).arithmetic context = .ok e) :
    e.arithmeticDepth ≤ level.deepest (nestingOfChain children) + nestingOfChain children := by
  obtain ⟨⟨first, rest, rfl, hfirst, hlinks⟩, -⟩ := hchain
  obtain ⟨hwithin, hrest⟩ := List.forall_mem_cons.mp hchildren
  unfold Node.arithmetic at h
  simp only [nodeOf, parts_eq_map, List.map_cons, bind_eq_ok] at h
  obtain ⟨value, hvalue, h⟩ := h
  rw [nestingOfChain_cons hfirst]
  refine context.arithmeticDepth_of_arithmeticFrom hlinks hrest (Nat.le_max_right _ _)
    (Nat.le_refl _) ?_ h
  exact Nat.le_trans (context.arithmeticDepth_of_value hwithin hvalue)
    (depthBound_le hfirst (Nat.le_max_left _ _))

theorem arithmeticDepth_of_unaryExpr (hallows : Rule.unaryExpr.Allows children)
    (hchildren : ∀ child ∈ children, context.BuildsWithin child.depthBound child)
    (h : (context.nodeOf rule span children).signed context = .ok e) :
    e.arithmeticDepth ≤ Level.sign.deepest (nestingOf children + 1) := by
  have hnests := nestingOf_le.mp (Nat.le_refl (nestingOf children))
  obtain ⟨lexeme, more, rfl, -, hmore⟩ := eq_leaf_of_row hallows
  obtain ⟨operand, more, rfl, hoperand, hnil⟩ := eq_cons_of_row hmore
  obtain rfl := eq_nil_of_row hnil
  have hbound := depthBound_le hoperand (hnests operand (by simp))
  have hwithin := (hchildren operand (by simp)).mono context hbound
  have hdepth := context.arithmeticDepth_of_signed
    (List.forall_mem_cons.mpr ⟨context.buildsWithin_leaf _ lexeme, by simpa using hwithin⟩) h
  rw [Level.deepest_sign] at hdepth ⊢
  exact Nat.le_trans hdepth (Level.deepestOperand_succ_le _)

/-- The parentheses around arguments take a level. A call without them has no arguments. -/
theorem arithmeticDepth_of_functionCall (hallows : Rule.functionCall.Allows children)
    (hwithin : ∀ child ∈ children,
      context.BuildsWithin (Level.disjunction.deepest (nestingOf children)) child)
    (h : (context.nodeOf rule span children).call context = .ok e) :
    e.arithmeticDepth ≤ Level.primary.deepest (node .functionCall span children).nesting := by
  rcases hallows with hrow | ⟨name, arguments, rfl, -, harguments⟩
  · obtain ⟨lexeme, more, rfl, -, hnil⟩ := eq_leaf_of_row hrow
    obtain rfl := eq_nil_of_row hnil
    exact Nat.le_trans (context.arithmeticDepth_of_call
      (by simpa using context.buildsWithin_leaf 0 lexeme) h) (Nat.zero_le _)
  · rw [nesting, if_pos (Grammar.hasToken_of_enclosed harguments), Level.deepest_primary]
    exact Nat.le_trans (context.arithmeticDepth_of_call hwithin h)
      (Level.deepest_disjunction_le _)

/-- A node builds nothing deeper than its level and its nesting allow, when its parts do not. -/
theorem arithmeticDepth_of_node (hallows : rule.Allows children)
    (hchildren : ∀ child ∈ children, context.BuildsWithin child.depthBound child)
    (h : (context.nodeOf rule span children).bare context = .ok e) :
    e.arithmeticDepth ≤ (node rule span children).depthBound := by
  have hwithin : ∀ child ∈ children,
      context.BuildsWithin (Level.disjunction.deepest (nestingOf children)) child :=
    fun child hmem => (hchildren child hmem).mono context
      (depthBound_le_disjunction (nestingOf_le.mp (Nat.le_refl _) child hmem))
  have hother (hrule : rule.isArithmetic = false) :
      e.arithmeticDepth ≤ Level.disjunction.deepest (nestingOf children) :=
    context.arithmeticDepth_of_bare hwithin hrule h
  -- parentheses take a level of their own, which pays for any expression in them
  have henclosed (hrule : rule.isArithmetic = false) :
      e.arithmeticDepth ≤ Level.primary.deepest (nestingOf children + 1) := by
    rw [Level.deepest_primary]
    exact Nat.le_trans (hother hrule) (Level.deepest_disjunction_le _)
  have hflat (hrule : rule.isFlat) {bound : Nat} : e.arithmeticDepth ≤ bound := by
    rw [context.arithmeticDepth_of_flat hrule h]
    exact Nat.zero_le _
  cases rule with
  | additiveExpr =>
    have hdepth := context.arithmeticDepth_of_arithmetic hallows hchildren h
    rwa [← Level.deepest_sum] at hdepth
  | multiplicativeExpr =>
    have hdepth := context.arithmeticDepth_of_arithmetic hallows hchildren h
    rwa [← Level.deepest_product] at hdepth
  | unaryExpr => exact context.arithmeticDepth_of_unaryExpr hallows hchildren h
  | functionCall => exact context.arithmeticDepth_of_functionCall hallows hwithin h
  | parenExpr | subquery => exact henclosed rfl
  | literal | placeholder | columnName | allColumns => exact hflat rfl
  | notExpr =>
    have hopened : Level.negation.deepest (nestingOf children) ≤
        Level.negation.deepest (nestingOf children + 1) :=
      Level.deepest_mono (Nat.le_refl _) (Nat.le_succ _)
    exact Nat.le_trans (hother rfl) hopened
  | orExpr | andExpr | bitwiseExpr | comparisonExpr | inExpr | likeExpr | isNullExpr
  | betweenExpr => exact hother rfl
  | _ => exact absurd h reject_ne_ok

/-- **What a derivation builds is no deeper than its level and its nesting allow.** -/
theorem buildsWithin_depthBound (tree : Tree) (h : tree.IsDerivation) :
    context.BuildsWithin tree.depthBound tree := by
  induction tree using Tree.induct with
  | leaf lexeme => exact context.buildsWithin_leaf _ lexeme
  | node rule span children ih =>
    cases h with
    | node _ hallows hparts =>
      intro e he
      obtain ⟨inner, a, hbare, rfl⟩ := context.bare_of_expression he
      rw [Expr.arithmeticDepth_withAlias]
      exact context.arithmeticDepth_of_node hallows
        (fun child hmem => ih child hmem (hparts child hmem)) hbare

end Build.Context

/-! ### The depth of what is stored -/

namespace Config

variable {config : Config} {source : Source}

/-- What is built from a tree inside that of a batch is as deep as the limit allows at most. -/
theorem arithmeticDepth_of_inside {tree part : Tree} {e : Expr}
    (h : config.parseTree source = .ok tree) (hinside : part.Inside tree)
    (hbuilt : Context.expression { config, source } part = .ok e) :
    e.arithmeticDepth ≤ deepestArithmetic config.maxNestingDepth := by
  cases part with
  | leaf lexeme => exact absurd hbuilt reject_ne_ok
  | node rule span children =>
    have hrule := Context.isExpression_of_expression _ hbuilt
    have hread := hasRead_of_inside h hinside (hasRule_iff.mpr rfl)
      (by rintro rfl; cases hrule)
    rw [← Level.deepest_disjunction]
    exact Nat.le_trans (Context.buildsWithin_depthBound _ _ hread.derived.derived e hbuilt)
      (depthBound_le_disjunction hread.derived.nests)

/-- **The limit on nesting bounds the depth of stored arithmetic**, by about its square: with `n`
levels, no path through an expression that a batch stores, in a condition or outside of one, meets
more than `n * (n + 1) + 1` operations, and without levels it meets none. -/
theorem parseBatch_arithmeticDepth {queries : List Query}
    (h : config.parseBatch source = .ok queries) :
    ∀ query ∈ queries,
      (∀ e ∈ query.expressions, e.arithmeticDepth ≤ deepestArithmetic config.maxNestingDepth) ∧
      ∀ cnf ∈ query.conditions, ∀ predicate ∈ cnf.predicates,
        predicate.arithmeticDepth ≤ deepestArithmetic config.maxNestingDepth := by
  intro query hquery
  obtain ⟨tree, htree, hbatch⟩ := bind_eq_ok.mp h
  rw [mapError_eq_ok] at hbatch
  have hstores := Context.stores_of_batch _ hbatch query hquery
  constructor
  · intro e he
    obtain ⟨part, built, hbuilt, rfl | ⟨aliasName, rfl⟩⟩ := hstores.expressions e he
    · exact arithmeticDepth_of_inside htree part.property hbuilt
    · rw [Expr.arithmeticDepth_named]
      exact arithmeticDepth_of_inside htree part.property hbuilt
  · intro cnf hcnf predicate hpredicate
    obtain ⟨name, clause, hcondition⟩ := hstores.conditions cnf hcnf
    obtain ⟨part, hpart, e, hbuilt, -, -, rfl⟩ := Context.condition_eq_ok _ hcondition
    exact Nat.le_trans (Expr.within_of_normalize hpredicate).arithmeticDepth_le
      (arithmeticDepth_of_inside htree ((Inside.of_mem hpart).trans clause.property) hbuilt)

/-- With one level, the expression of `SELECT -a*b+c` is as deep as it can be: the sign, the product
and the sum have one operation each. -/
theorem parseBatch_arithmeticDepth_of_signed :
    let config := { ofDialect .mysql with maxNestingDepth := 1 }
    let source := ['S', 'E', 'L', 'E', 'C', 'T', ' ', '-', 'a', '*', 'b', '+', 'c']
    ∃ queries e, config.parseBatch source = .ok queries ∧
      queries.flatMap Query.expressions = [e] ∧ e.arithmeticDepth = 3 ∧
      e.arithmeticDepth ≤ deepestArithmetic config.maxNestingDepth := by
  intro config source
  suffices stored : ∀ queries e, config.parseBatch source = .ok queries →
      queries.flatMap Query.expressions = [e] →
      e.arithmeticDepth ≤ deepestArithmetic config.maxNestingDepth from
    ⟨_, _, rfl, rfl, rfl, stored _ _ rfl rfl⟩
  intro queries e parsed expressions
  have only : e ∈ queries.flatMap Query.expressions := by simp [expressions]
  obtain ⟨query, hquery, he⟩ := List.mem_flatMap.mp only
  exact (parseBatch_arithmeticDepth parsed query hquery).1 e he

/-- The operations on a path may be more than the levels: with one level, `SELECT a*b+c` stores a
product in a sum. -/
theorem parseBatch_exceeds_nesting :
    let config := { ofDialect .mysql with maxNestingDepth := 1 }
    let source := ['S', 'E', 'L', 'E', 'C', 'T', ' ', 'a', '*', 'b', '+', 'c']
    ¬ ∀ queries, config.parseBatch source = .ok queries →
      ∀ query ∈ queries, ∀ e ∈ query.expressions, e.arithmeticDepth ≤ config.maxNestingDepth := by
  intro config source bounded
  have deep : ∃ query e, config.parseBatch source = .ok [query] ∧ query.expressions = [e] ∧
      e.arithmeticDepth = 2 := ⟨_, _, rfl, rfl, rfl⟩
  obtain ⟨query, e, parsed, stored, depth⟩ := deep
  have shallow := bounded [query] parsed query (by simp) e (by simp [stored])
  rw [depth] at shallow
  exact absurd shallow (by decide)

end Config

end SqlFront
