import SqlFront.Proofs.Complement
import SqlFront.Proofs.ExpressionText
import SqlFront.Proofs.NormalForm

/-!
The texts of stored predicates.

A tree gives its text to what it builds. On its way into a stored condition a predicate changes its
flag at most, so it still has the text of a tree that built it alone. Only the comparisons with the
two bounds of a `BETWEEN` never have such a tree: they are built together, their tree gives its text
to the connective between them, and the normal form has no connectives. They are stored without a
text.
-/

namespace SqlFront

open Build

namespace Expr

/-- The predicate stands under the connectives of the expression, perhaps with the other flag. -/
def HasPredicate (e predicate : Expr) : Prop :=
  ∃ leaf ∈ e.leaves, leaf.affirmed = predicate.affirmed

theorem aliasName_eq_of_affirmed {e e' : Expr} (h : e.affirmed = e'.affirmed) :
    e.aliasName = e'.aliasName := by
  have kept (e : Expr) : e.affirmed.aliasName = e.aliasName := by
    cases e <;> rfl
  rw [← kept e, h, kept]

theorem leaves_of_isLeaf {e : Expr} (h : e.isLeaf = true) : e.leaves = [e] := by
  cases e with
  | and | or => cases h
  | _ => rfl

theorem isLeaf_withAlias (a : Option String) (e : Expr) : (e.withAlias a).isLeaf = e.isLeaf := by
  cases e <;> rfl

/-- A name for a whole condition goes to its connective. -/
theorem leaves_withAlias {a : Option String} {e : Expr} (h : e.isPredicate = true)
    (connected : e.isLeaf = false) : (e.withAlias a).leaves = e.leaves := by
  cases e with
  | and | or => rfl
  | _ => exact absurd h (by simpa [isPredicate] using connected)

/-- The distribution has no other predicates. -/
theorem mem_leaves_of_distributed {e predicate : Expr} (h : predicate ∈ e.distributed.flatten) :
    predicate ∈ e.leaves := by
  obtain ⟨clause, hclause, hmem⟩ := List.mem_flatten.mp h
  clear h
  fun_induction distributed e generalizing clause with
  | case1 a l r ihl ihr =>
    rcases List.mem_append.mp hclause with hclause | hclause
    · exact List.mem_append_left _ (ihl clause hclause hmem)
    · exact List.mem_append_right _ (ihr clause hclause hmem)
  | case2 a l r ihr ihl =>
    obtain ⟨c, hc, hclause⟩ := List.mem_flatMap.mp hclause
    obtain ⟨d, hd, rfl⟩ := List.mem_map.mp hclause
    rcases List.mem_append.mp hmem with hmem | hmem
    · exact List.mem_append_left _ (ihl c hc hmem)
    · exact List.mem_append_right _ (ihr d hd hmem)
  | case3 e hand hor =>
    rw [leaves.eq_3 e hand hor]
    simp_all

/-- The negation of a condition has the same predicates, but for their flags. -/
theorem hasPredicate_of_complement {e predicate : Expr} (h : e.isPredicate = true)
    (mem : predicate ∈ e.complement.leaves) : e.HasPredicate predicate := by
  obtain ⟨leaf, hleaf, opposite⟩ := exists_of_mem_right (dual_complement h).leaves mem
  exact ⟨leaf, hleaf, opposite.same.symm⟩

end Expr

namespace Build.Context

variable (context : Context)

/-- The predicate comes from this tree: the tree builds it, perhaps with the other flag, and the
predicate has the text of the tree, unless it is the comparison with a bound of a `BETWEEN`. -/
structure Yields (node : Tree) (predicate : Expr) : Prop where
  built : ∃ e, context.expression node = .ok e ∧ e.HasPredicate predicate
  text : predicate.aliasName =
    if node.hasRule .betweenExpr then none else some (context.text node)

/-- The predicate comes from a tree inside this one. -/
def YieldsInside (tree : Tree) (predicate : Expr) : Prop :=
  ∃ node : Tree, node.Inside tree ∧ context.Yields node predicate

theorem YieldsInside.mono {inner outer : Tree} {predicate : Expr}
    (h : context.YieldsInside inner predicate) (hinside : inner.Inside outer) :
    context.YieldsInside outer predicate := by
  obtain ⟨node, hnode, yields⟩ := h
  exact ⟨node, hnode.trans hinside, yields⟩

/-- The flag of a predicate does not matter. -/
theorem YieldsInside.of_affirmed {tree : Tree} {predicate other : Expr}
    (h : context.YieldsInside tree predicate) (same : predicate.affirmed = other.affirmed) :
    context.YieldsInside tree other := by
  obtain ⟨node, hnode, ⟨e, built, leaf, hleaf, affirmed⟩, text⟩ := h
  exact ⟨node, hnode, ⟨e, built, leaf, hleaf, affirmed.trans same⟩,
    (Expr.aliasName_eq_of_affirmed same).symm.trans text⟩

variable {rule : Rule} {span : Span} {children : List Tree}

/-- A `BETWEEN` builds two comparisons, under a connective. -/
theorem leaves_of_between {e : Expr}
    (h : (context.nodeOf rule span children).between context = .ok e) :
    e.isLeaf = false ∧ ∀ predicate ∈ e.leaves, predicate.aliasName = none := by
  simp only [Node.between, bind_eq_ok] at h
  obtain ⟨_, -, subject, -, _, -, low, -, _, -, high, -, h⟩ := h
  split at h
  all_goals
    obtain rfl := pure_eq_ok.mp h
    exact ⟨rfl, by simp [Expr.leaves, Expr.aliasName]⟩

/-- A predicate that a tree builds alone has the text of the tree. -/
theorem yields_of_isLeaf {node : Tree} {e : Expr} (built : context.expression node = .ok e)
    (leaf : e.isLeaf = true) : context.Yields node e where
  built := ⟨e, built, e, by simp [Expr.leaves_of_isLeaf leaf], rfl⟩
  text := by
    split
    · rename_i between
      cases node with
      | leaf lexeme => cases between
      | node rule span children =>
        obtain rfl : rule = .betweenExpr := Option.some.inj (Tree.hasRule_iff.mp between)
        obtain ⟨inner, a, hinner, rfl⟩ := context.bare_of_expression built
        have connected := (context.leaves_of_between hinner).1
        rw [Expr.isLeaf_withAlias, connected] at leaf
        cases leaf
    · exact Config.aliasName_of_expression built

/-- The comparisons of a `BETWEEN` come from its tree. -/
theorem yields_of_between {e : Expr} {a : Option String}
    (built : context.expression (.node .betweenExpr span children) = .ok (e.withAlias a))
    (h : (context.nodeOf .betweenExpr span children).between context = .ok e)
    (condition : e.isPredicate = true) {predicate : Expr} (mem : predicate ∈ e.leaves) :
    context.Yields (.node .betweenExpr span children) predicate := by
  obtain ⟨connected, unnamed⟩ := context.leaves_of_between h
  have kept : predicate ∈ (e.withAlias a).leaves := by
    rwa [Expr.leaves_withAlias condition connected]
  exact ⟨⟨_, built, predicate, kept, rfl⟩, (unnamed predicate mem).trans (if_pos rfl).symm⟩

/-- Every predicate of a condition that the tree builds comes from a tree inside this one. -/
def YieldsAll (tree : Tree) : Prop :=
  ∀ e, context.expression tree = .ok e → e.isPredicate = true →
    ∀ predicate ∈ e.leaves, context.YieldsInside tree predicate

section

variable (ih : ∀ child ∈ children, context.YieldsAll child)
include ih

/-- The predicates of a chain are those of its operands. -/
theorem yieldsInside_of_logical {combine : Expr → Expr → Expr}
    (joined : ∀ l r, (combine l r).leaves = l.leaves ++ r.leaves) {e : Expr}
    (h : (context.nodeOf rule span children).logical combine = .ok e) :
    ∀ predicate ∈ e.leaves, context.YieldsInside (.node rule span children) predicate := by
  obtain ⟨items, hitems, hbalanced⟩ := context.operands_of_logical h
  refine keep_of_balanced (motive := fun e => ∀ predicate ∈ e.leaves,
    context.YieldsInside (.node rule span children) predicate) (fun l r hl hr => ?_)
    (fun item hitem predicate mem => ?_) hbalanced
  · rw [joined]
    exact List.forall_mem_append.mpr ⟨hl, hr⟩
  · obtain ⟨child, hchild, built, condition⟩ := exists_of_mem_right hitems hitem
    have hchild := List.mem_of_mem_filter hchild
    exact (ih child hchild item built condition predicate mem).mono context (.of_mem hchild)

/-- The predicates of an operand come from a tree inside that of the whole. -/
theorem yieldsInside_of_operand {part : Part} {n : Nat} {e : Expr}
    (hpart : (context.nodeOf rule span children).operand n = .ok part)
    (built : part.built = .ok e) (condition : e.isPredicate = true) :
    ∀ predicate ∈ e.leaves, context.YieldsInside (.node rule span children) predicate := by
  obtain ⟨child, hchild, rfl⟩ := context.eq_part_of_operand hpart
  exact fun predicate mem =>
    (ih child hchild e built condition predicate mem).mono context (.of_mem hchild)

end

/-- **Every predicate of a condition comes from a tree inside that of the condition.** The induction
is on the tree: a tree that builds a predicate alone gives it its text. Else the predicates are
those of the operands, after a `NOT` with other flags, or the two comparisons of a `BETWEEN`. -/
theorem yieldsAll (tree : Tree) : context.YieldsAll tree := by
  induction tree using Tree.induct with
  | leaf lexeme => exact fun e built _ => absurd built reject_ne_ok
  | node rule span children ih =>
    intro e built condition predicate mem
    cases leaf : e.isLeaf with
    | true =>
      rw [Expr.leaves_of_isLeaf leaf, List.mem_singleton] at mem
      exact ⟨_, .self, mem ▸ context.yields_of_isLeaf built leaf⟩
    | false =>
      obtain ⟨inner, a, hbare, rfl⟩ := context.bare_of_expression built
      rw [Expr.isPredicate_withAlias] at condition
      rw [Expr.isLeaf_withAlias] at leaf
      rw [Expr.leaves_withAlias condition leaf] at mem
      cases hrule : isConditionRule rule with
      | false => exact absurd condition (by simp [context.isPredicate_of_bare hbare hrule])
      | true =>
        unfold Node.bare at hbare
        rw [nodeOf_rule] at hbare
        split at hbare <;> simp only [isConditionRule, reduceCtorEq] at hrule
        case h_1 => exact context.yieldsInside_of_logical ih (fun _ _ => rfl) hbare predicate mem
        case h_2 => exact context.yieldsInside_of_logical ih (fun _ _ => rfl) hbare predicate mem
        case h_3 =>
          simp only [bind_eq_ok] at hbare
          obtain ⟨part, hpart, positive, hpositive, hnegate⟩ := hbare
          obtain ⟨positively, rfl⟩ := complement_of_negate hnegate
          obtain ⟨other, hother, same⟩ := Expr.hasPredicate_of_complement positively mem
          exact (context.yieldsInside_of_operand ih hpart hpositive positively other
            hother).of_affirmed context same
        case h_5 =>
          simp only [Node.comparison, bind_eq_ok, pure_eq_ok] at hbare
          obtain ⟨_, -, left, -, _, -, right, -, ⟨negated, op⟩, -, rfl⟩ := hbare
          cases leaf
        case h_6 =>
          obtain ⟨column, values, rfl⟩ := context.eq_of_inList hbare
          cases leaf
        case h_7 =>
          obtain ⟨column, pattern, escape, rfl⟩ := context.eq_of_like hbare
          cases leaf
        case h_8 =>
          obtain ⟨column, rfl⟩ := context.eq_of_isNull hbare
          cases leaf
        case h_9 => exact ⟨_, .self, context.yields_of_between built hbare condition mem⟩
        case h_13 =>
          obtain ⟨part, hpart, hbuilt⟩ := bind_eq_ok.mp hbare
          exact context.yieldsInside_of_operand ih hpart hbuilt condition predicate mem

/-- The predicates of a stored condition are those of the condition that was built. -/
theorem StoresCondition.yieldsInside {tree : Tree} {cnf : Cnf}
    (h : context.StoresCondition tree cnf) :
    ∀ predicate ∈ cnf.predicates, context.YieldsInside tree predicate := by
  obtain ⟨name, ⟨clause, hclause⟩, stored⟩ := h
  obtain ⟨part, hpart, e, built, condition, -, rfl⟩ := context.condition_eq_ok stored
  intro predicate mem
  have mem := Expr.mem_leaves_of_distributed ((Expr.predicates_normalize_perm e).mem_iff.mp mem)
  exact (context.yieldsAll part e built condition predicate mem).mono context
    ((Tree.Inside.of_mem hpart).trans hclause)

end Build.Context

namespace Config

variable {config : Config} {source : Source}

/-- A tree that was read spans a part of the text. -/
theorem HasRead.exists_text {tree : Tree} (h : config.HasRead source tree) :
    ∃ before text after, source = before ++ text ++ after ∧
      tree.span = ⟨byteLength before, byteLength before + byteLength text⟩ := by
  obtain ⟨left, right, stop, htokens⟩ := h.tokens
  obtain ⟨n, offset, pieces, -, ⟨before, after, split, rfl⟩, -, hbounds⟩ :=
    Lexer.pieces_of_part htokens h.formed.terminals_ne_nil
  exact ⟨before, _, after, split, (h.formed.bounds h.spaced).unique hbounds⟩

/-- The node builds the predicate, perhaps with the other flag. It spans a part of the text, and
this part is the alias of the predicate; but the comparisons of a `BETWEEN` have no alias. -/
structure NamesPredicate (config : Config) (source : Source) (node : Tree) (predicate : Expr) :
    Prop where
  built : ∃ e, Build.Context.expression { config, source } node = .ok e ∧ e.HasPredicate predicate
  text : ∃ before text after, source = before ++ text ++ after ∧
    node.span = ⟨byteLength before, byteLength before + byteLength text⟩ ∧
    predicate.aliasName = if node.hasRule .betweenExpr then none else some (String.ofList text)

theorem namesPredicate_of_yields {tree node : Tree} {predicate : Expr}
    (parsed : config.parseTree source = .ok tree) (inside : node.Inside tree)
    (yields : Build.Context.Yields { config, source } node predicate) :
    config.NamesPredicate source node predicate := by
  obtain ⟨⟨e, built, has⟩, named⟩ := yields
  cases node with
  | leaf lexeme => exact absurd built reject_ne_ok
  | node rule span children =>
    have isExpression := Build.Context.isExpression_of_expression _ built
    have read : config.HasRead source (.node rule span children) :=
      hasRead_of_inside parsed inside (Tree.hasRule_iff.mpr rfl)
        (by rintro rfl; cases isExpression)
    obtain ⟨before, text, after, rfl, hspan⟩ := read.exists_text
    refine ⟨⟨e, built, has⟩, before, text, after, rfl, hspan, ?_⟩
    rw [named, Build.Context.text, hspan, Source.slice_of_append]

/-- **Every stored predicate keeps its text, but for the comparisons of `BETWEEN`.** Take any
predicate in a condition that a batch stores, for `WHERE`, for `HAVING` or for `ON`, in queries at
any depth. It comes from an expression inside the tree of the batch, which builds it, perhaps with
the other flag. Its alias is the exact text of that expression, unless the expression is a
`BETWEEN`: the two comparisons that stand for it have no alias. -/
theorem parseBatch_predicateTexts {queries : List Query}
    (h : config.parseBatch source = .ok queries) :
    ∃ tree, config.parseTree source = .ok tree ∧
      ∀ query ∈ queries, ∀ cnf ∈ query.conditions, ∀ predicate ∈ cnf.predicates,
        ∃ node : Tree, node.Inside tree ∧ config.NamesPredicate source node predicate := by
  obtain ⟨tree, parsed, built⟩ := bind_eq_ok.mp h
  refine ⟨tree, parsed, fun query hquery cnf hcnf predicate hpredicate => ?_⟩
  have stores := Build.Context.stores_of_batch _ (mapError_eq_ok.mp built) query hquery
  obtain ⟨node, inside, yields⟩ :=
    (stores.conditions cnf hcnf).yieldsInside _ predicate hpredicate
  exact ⟨node, inside, namesPredicate_of_yields parsed inside yields⟩

/-- The comparison that `DELETE t WHERE NOT (a=1)` stores has the flag of the `NOT`, and the text
with it. -/
theorem parseBatch_predicateTexts_of_not :
    let config := ofDialect .mysql
    let source := ['D', 'E', 'L', 'E', 'T', 'E', ' ', 't', ' ', 'W', 'H', 'E', 'R', 'E', ' ', 'N',
      'O', 'T', ' ', '(', 'a', '=', '1', ')']
    ∃ tree query cnf, config.parseTree source = .ok tree ∧
      config.parseBatch source = .ok [query] ∧ query.conditions = [cnf] ∧
      ∃ predicate ∈ cnf.predicates, predicate.aliasName = some "NOT (a=1)" ∧
        predicate.negated? = some true ∧
        ∃ node : Tree, node.Inside tree ∧ config.NamesPredicate source node predicate := by
  intro config source
  have kept : ∃ query e, config.parseBatch source = .ok [query] ∧
      query.conditions = [Expr.normalize e] ∧ e.distributed.flatten = [e] ∧
      e.aliasName = some "NOT (a=1)" ∧ e.negated? = some true := by
    refine ⟨_, _, rfl, rfl, rfl, ?_, ?_⟩ <;> rfl
  obtain ⟨query, e, stored, conditions, distributed, text, flag⟩ := kept
  have mem : e ∈ e.normalize.predicates := by
    rw [(Expr.predicates_normalize_perm e).mem_iff, distributed]
    exact List.mem_singleton_self e
  obtain ⟨tree, parsed, named⟩ := parseBatch_predicateTexts stored
  exact ⟨tree, query, _, parsed, stored, conditions, e, mem, text, flag,
    named query (by simp) _ (by simp [conditions]) e mem⟩

/-- Not every stored predicate has a text: `DELETE t WHERE a BETWEEN 1 AND 2` stores a comparison
with no alias. -/
theorem parseBatch_stores_unnamed_bound :
    let config := ofDialect .mysql
    let source := ['D', 'E', 'L', 'E', 'T', 'E', ' ', 't', ' ', 'W', 'H', 'E', 'R', 'E', ' ', 'a',
      ' ', 'B', 'E', 'T', 'W', 'E', 'E', 'N', ' ', '1', ' ', 'A', 'N', 'D', ' ', '2']
    ¬ ∀ queries tree, config.parseBatch source = .ok queries → config.parseTree source = .ok tree →
      ∀ query ∈ queries, ∀ cnf ∈ query.conditions, ∀ predicate ∈ cnf.predicates,
        ∃ node : Tree, node.Inside tree ∧
          predicate.aliasName = some (Source.slice source node.span) ∧
          ∃ e, Build.Context.expression { config, source } node = .ok e ∧
            e.HasPredicate predicate := by
  intro config source named
  have kept : ∃ tree query e first second, config.parseTree source = .ok tree ∧
      config.parseBatch source = .ok [query] ∧ query.conditions = [Expr.normalize e] ∧
      e.distributed.flatten = [first, second] ∧ first.aliasName = none := by
    refine ⟨_, _, _, _, _, rfl, rfl, rfl, rfl, ?_⟩
    rfl
  obtain ⟨tree, query, e, first, second, parsed, stored, conditions, distributed, unnamed⟩ := kept
  have mem : first ∈ e.normalize.predicates := by
    rw [(Expr.predicates_normalize_perm e).mem_iff, distributed]
    exact List.mem_cons_self
  obtain ⟨node, -, text, -⟩ := named [query] tree stored parsed query (by simp) _
    (by simp [conditions]) first mem
  rw [unnamed] at text
  cases text

end Config

end SqlFront
