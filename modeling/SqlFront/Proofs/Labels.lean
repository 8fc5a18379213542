import SqlFront.Proofs.Reading
import SqlFront.Proofs.SizeGuard

/-!
The labels of parameters, where they stand in a text and in the queries that are made of it.

Both sides list their labels: a tree those of its placeholders in the order of the text, a query
those of its constants clause by clause. On the way from one to the other operands are repeated and
reordered, so only `SameLabels` can hold of them: the same labels, in any order and number. What is
done to an expression after it has been built keeps its labels: aliases, negation, balancing and
distribution.
-/

namespace SqlFront

open Build

/-! ### Labels in a text -/

/-- The label of a placeholder. -/
def Token.label? : Token → Option String
  | .placeholder label => some label
  | _ => none

/-- The labels of the placeholders among some tokens, in their order. -/
def labelsOfLexemes (lexemes : List Lexeme) : List String :=
  lexemes.filterMap fun lexeme => lexeme.token.label?

theorem mem_labelsOfLexemes {label : String} {lexemes : List Lexeme} :
    label ∈ labelsOfLexemes lexemes ↔ ∃ lexeme ∈ lexemes, lexeme.token = .placeholder label := by
  have labelled (token : Token) : token.label? = some label ↔ token = .placeholder label := by
    cases token <;> simp [Token.label?]
  simp [labelsOfLexemes, labelled]

theorem labelsOfLexemes_append (left right : List Lexeme) :
    labelsOfLexemes (left ++ right) = labelsOfLexemes left ++ labelsOfLexemes right :=
  List.filterMap_append

namespace Tree

/-- The labels of the placeholders in a tree. -/
def labels (tree : Tree) : List String := labelsOfLexemes tree.terminals

/-- The labels of the placeholders in some trees. -/
def labelsOf (trees : List Tree) : List String := trees.flatMap labels

theorem labelsOf_eq (trees : List Tree) : labelsOf trees = labelsOfLexemes (terminalsOf trees) := by
  induction trees with
  | nil => rfl
  | cons tree trees ih =>
    rw [labelsOf, List.flatMap_cons, ← labelsOf, ih, terminalsOf, labelsOfLexemes_append, labels]

@[simp]
theorem labelsOf_nil : labelsOf [] = [] := rfl

@[simp]
theorem labelsOf_cons (tree : Tree) (trees : List Tree) :
    labelsOf (tree :: trees) = tree.labels ++ labelsOf trees :=
  List.flatMap_cons

@[simp]
theorem labelsOf_append (left right : List Tree) :
    labelsOf (left ++ right) = labelsOf left ++ labelsOf right :=
  List.flatMap_append

@[simp]
theorem labels_node (rule : Rule) (span : Span) (children : List Tree) :
    (node rule span children).labels = labelsOf children := by
  rw [labelsOf_eq, labels, terminals]

@[simp]
theorem labels_leaf (lexeme : Lexeme) : (leaf lexeme).labels = lexeme.token.label?.toList := by
  rw [labels, terminals, labelsOfLexemes]
  cases h : lexeme.token.label? <;> simp [h]

end Tree

/-! ### Labels in expressions -/

/-- The label of a constant that stands for a parameter. -/
def Constant.labels : Constant → List String
  | .placeholder label => [label]
  | _ => []

namespace Expr

mutual

/-- The labels of the parameters in an expression. -/
def labels : Expr → List String
  | column _ _ | isNull _ _ _ | allColumns _ _ => []
  | constant _ value => value.labels
  | inList _ _ _ values => values.flatMap Constant.labels
  | like _ _ _ pattern _ => pattern.labels
  | call _ _ args | aggregate _ _ _ args => labelsOfAll args
  | arithmetic _ _ l r | compare _ _ _ l r | and _ l r | or _ l r => labels l ++ labels r

/-- The labels of the parameters in some expressions. -/
def labelsOfAll : List Expr → List String
  | [] => []
  | e :: es => labels e ++ labelsOfAll es

end

theorem labelsOfAll_eq (es : List Expr) : labelsOfAll es = es.flatMap labels := by
  induction es with
  | nil => rfl
  | cons e es ih => rw [labelsOfAll, ih, List.flatMap_cons]

@[simp]
theorem labels_withAlias (a : Option String) (e : Expr) : (e.withAlias a).labels = e.labels := by
  cases e <;> simp [withAlias, labels]

@[simp]
theorem labels_toggled (e : Expr) : e.toggled.labels = e.labels := by
  cases e <;> simp [toggled, labels]

@[simp]
theorem labels_complement (e : Expr) : e.complement.labels = e.labels := by
  fun_induction complement e with
  | case1 a l r ihl ihr => simp only [labels, ihl, ihr]
  | case2 a l r ihl ihr => simp only [labels, ihl, ihr]
  | case3 => exact labels_toggled _

end Expr

@[simp]
theorem labels_named (aliasName : String) (e : Expr) : (named aliasName e).labels = e.labels := by
  cases e <;> simp [named, Expr.labels, Expr.withAlias]

/-! ### Labels in queries -/

/-- The labels of the parameters in a condition in normal form. -/
def Cnf.labels (cnf : Cnf) : List String := cnf.predicates.flatMap Expr.labels

/-- The labels of the parameters in a condition that need not be there. -/
def labelsOfCondition (condition : Option Cnf) : List String := condition.toList.flatMap Cnf.labels

mutual

/-- The labels of the parameters in a query and in those that it takes rows from. -/
def SelectQuery.labels : SelectQuery → List String
  | ⟨_, items, sources, condition, grouping, having, ordering, _⟩ =>
      items.flatMap Expr.labels ++ labelsOfItems sources ++ labelsOfCondition condition ++
        (grouping.getD []).flatMap Expr.labels ++ labelsOfCondition having ++
        ordering.flatMap fun key => key.expression.labels

def labelsOfItems : List FromItem → List String
  | [] => []
  | item :: items => item.labels ++ labelsOfItems items

def FromItem.labels : FromItem → List String
  | ⟨source, joins⟩ => source.labels ++ labelsOfJoins joins

def labelsOfJoins : List Join → List String
  | [] => []
  | join :: joins => join.labels ++ labelsOfJoins joins

def Join.labels : Join → List String
  | ⟨_, source, condition⟩ => source.labels ++ labelsOfCondition condition

def TableSource.labels : TableSource → List String
  | .table _ => []
  | .derived query _ => query.labels

end

theorem SelectQuery.labels_eq (query : SelectQuery) :
    query.labels = query.items.flatMap Expr.labels ++ labelsOfItems query.sources ++
      labelsOfCondition query.condition ++ (query.grouping.getD []).flatMap Expr.labels ++
      labelsOfCondition query.having ++
      query.ordering.flatMap fun key => key.expression.labels := by
  cases query
  rw [SelectQuery.labels]

theorem labelsOfItems_eq (items : List FromItem) :
    labelsOfItems items = items.flatMap FromItem.labels := by
  induction items with
  | nil => rfl
  | cons item items ih => rw [labelsOfItems, ih, List.flatMap_cons]

theorem labelsOfJoins_eq (joins : List Join) : labelsOfJoins joins = joins.flatMap Join.labels := by
  induction joins with
  | nil => rfl
  | cons join joins ih => rw [labelsOfJoins, ih, List.flatMap_cons]

/-- The labels of the parameters in the default value of a column. -/
def ColumnDefinition.labels (column : ColumnDefinition) : List String :=
  column.defaultValue.toList.flatMap Expr.labels

namespace Query

/-- The labels of the parameters in a statement. -/
def labels : Query → List String
  | select query => query.labels
  | insert query => query.rows.flatMap fun row => row.flatMap Expr.labels
  | update query =>
      (query.assignments.flatMap fun assignment => assignment.2.labels) ++
        labelsOfCondition query.condition
  | delete query => labelsOfCondition query.condition
  | createTable query => query.columns.flatMap ColumnDefinition.labels
  | alterTable query => query.column.labels
  | rebuildOpetree command | rebalanceOpetree command => command.seeds.flatMap Constant.labels
  | bypass query => labels query
  | _ => []

/-- The statement reads or changes rows, perhaps as it is under `BYPASS`. -/
def handlesRows : Query → Bool
  | select _ | insert _ | update _ | delete _ => true
  | bypass query => handlesRows query
  | _ => false

end Query

/-! ### The same labels -/

/-- The same labels, in any order and number. -/
def SameLabels (left right : List String) : Prop := ∀ label, label ∈ left ↔ label ∈ right

namespace SameLabels

variable {first second left right left' right' : List String}

theorem refl (labels : List String) : SameLabels labels labels := fun _ => Iff.rfl

theorem of_eq (h : left = right) : SameLabels left right := h ▸ refl left

theorem trans (hfirst : SameLabels left first) (hsecond : SameLabels first right) :
    SameLabels left right :=
  fun label => (hfirst label).trans (hsecond label)

theorem append (hleft : SameLabels left left') (hright : SameLabels right right') :
    SameLabels (left ++ right) (left' ++ right') := by
  intro label
  rw [List.mem_append, List.mem_append, hleft label, hright label]

/-- What has no labels on one side has none on the other. -/
theorem eq_nil (h : SameLabels [] right) : right = [] :=
  List.eq_nil_iff_forall_not_mem.mpr fun label hmem => List.not_mem_nil ((h label).mpr hmem)

/-- Items that are paired with items of the same labels. -/
theorem flatMap {α β : Type} {f : α → List String} {g : β → List String} {items : List α}
    {others : List β} (h : List.Forall₂ (fun item other => SameLabels (f item) (g other))
      items others) : SameLabels (items.flatMap f) (others.flatMap g) := by
  induction h with
  | nil => exact refl []
  | cons hfirst _ ih =>
    rw [List.flatMap_cons, List.flatMap_cons]
    exact hfirst.append ih

end SameLabels

/-! ### Chains and normal forms -/

section Collected

variable {α : Type} {collect : Expr → List α}

/-- What is collected from the items of a chain is collected from the balanced chain, in that
order. -/
theorem collect_balanced {combine : Expr → Expr → Expr}
    (combined : ∀ l r, collect (combine l r) = collect l ++ collect r) {items : List Expr}
    {e : Expr} (h : balanced combine items = some e) : collect e = items.flatMap collect := by
  refine balanced_induct (motive := fun items e => collect e = items.flatMap collect)
    (fun item => by simp) (fun left right l r hl hr => ?_) h
  rw [combined, hl, hr, List.flatMap_append]

variable (both : ∀ a l r, collect (.and a l r) = collect l ++ collect r)
  (one : ∀ a l r, collect (.or a l r) = collect l ++ collect r)
include both one

/-- Distribution repeats what there is to collect, and adds and drops nothing. -/
theorem mem_collect_distributed (e : Expr) (item : α) :
    item ∈ e.distributed.flatten.flatMap collect ↔ item ∈ collect e := by
  fun_induction Expr.distributed e with
  | case1 a l r ihl ihr =>
    rw [List.flatten_append, List.flatMap_append, both, List.mem_append, List.mem_append, ihl, ihr]
  | case2 a l r ihr ihl =>
    have hl := Expr.filled_distributed l
    have hr := Expr.filled_distributed r
    rw [one, List.mem_append, ← ihl, ← ihr]
    simp only [List.mem_flatMap, List.mem_flatten, List.mem_map]
    constructor
    · rintro ⟨e, ⟨clause, ⟨c, hc, d, hd, rfl⟩, he⟩, hitem⟩
      rcases List.mem_append.mp he with he | he
      · exact .inl ⟨e, ⟨c, hc, he⟩, hitem⟩
      · exact .inr ⟨e, ⟨d, hd, he⟩, hitem⟩
    · rintro (⟨e, ⟨c, hc, he⟩, hitem⟩ | ⟨e, ⟨d, hd, he⟩, hitem⟩)
      · obtain ⟨d, hd⟩ := List.exists_mem_of_ne_nil _ hr.ne_nil
        exact ⟨e, ⟨c ++ d, ⟨c, hc, d, hd, rfl⟩, List.mem_append_left d he⟩, hitem⟩
      · obtain ⟨c, hc⟩ := List.exists_mem_of_ne_nil _ hl.ne_nil
        exact ⟨e, ⟨c ++ d, ⟨c, hc, d, hd, rfl⟩, List.mem_append_right c he⟩, hitem⟩
  | case3 => simp

/-- **A normal form has what there is to collect in a condition**, and nothing else. -/
theorem mem_collect_normalize (e : Expr) (item : α) :
    item ∈ e.normalize.predicates.flatMap collect ↔ item ∈ collect e := by
  rw [← mem_collect_distributed both one e item]
  exact (e.predicates_normalize_perm.flatMap_right collect).mem_iff

end Collected

theorem labels_normalize (e : Expr) : SameLabels e.normalize.labels e.labels :=
  mem_collect_normalize (fun _ _ _ => by rw [Expr.labels]) (fun _ _ _ => by rw [Expr.labels]) e

end SqlFront
