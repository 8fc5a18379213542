import SqlFront.Proofs.NormalForm

/-!
Queries as they look when some of their details are told otherwise.

A `View` gives aliases and labels of placeholders another look. `Expr.seen` and its like for queries
put an expression into that look; everything else stays as it is. What the builder asks of an
expression does not depend on the look, and what it makes of an expression can be looked at before
or after.
-/

namespace SqlFront

/-- How aliases of expressions and labels of placeholders are looked at. -/
structure View where
  /-- The alias that is seen for one that is there, if any. -/
  aliasName : String → Option String
  label : String → String

/-- The label of a placeholder that was numbered by its place, when so many others come before it.
Labels of another kind stay. -/
def renumber (n : Nat) (label : String) : String :=
  let number := Nat.ofDigitChars 10 label.toList.tail 0
  if label = "?" ++ toString number then "?" ++ toString (number + n) else label

namespace View

/-- Everything is seen as it is. -/
def whole : View := ⟨some, id⟩

/-- No alias is seen. -/
def withoutAliases : View := ⟨fun _ => none, id⟩

/-- The placeholders that are numbered by their place come after so many others. -/
def renumbered (n : Nat) : View := ⟨some, renumber n⟩

end View

variable (view : View)

def Token.seen : Token → Token
  | .placeholder label => .placeholder (view.label label)
  | token => token

def Constant.seen : Constant → Constant
  | .placeholder label => .placeholder (view.label label)
  | value => value

namespace Expr

mutual

def seen : Expr → Expr
  | column a c => column (a.bind view.aliasName) c
  | constant a v => constant (a.bind view.aliasName) (v.seen view)
  | call a f args => call (a.bind view.aliasName) f (seenAll args)
  | aggregate a f d args => aggregate (a.bind view.aliasName) f d (seenAll args)
  | arithmetic a op l r => arithmetic (a.bind view.aliasName) op (seen l) (seen r)
  | compare a n op l r => compare (a.bind view.aliasName) n op (seen l) (seen r)
  | inList a n c vs => inList (a.bind view.aliasName) n c (vs.map (Constant.seen view))
  | isNull a n c => isNull (a.bind view.aliasName) n c
  | like a n c p e => like (a.bind view.aliasName) n c (p.seen view) e
  | allColumns a t => allColumns (a.bind view.aliasName) t
  | and a l r => and (a.bind view.aliasName) (seen l) (seen r)
  | or a l r => or (a.bind view.aliasName) (seen l) (seen r)

def seenAll : List Expr → List Expr
  | [] => []
  | e :: es => seen e :: seenAll es

end

-- The equations are made here, once, before the lemmas below ask for them.
attribute [grind =] seen seenAll

@[simp]
theorem seenAll_eq_map (es : List Expr) : seenAll view es = es.map (seen view) := by
  induction es with
  | nil => rfl
  | cons e es ih => rw [seenAll, ih, List.map_cons]

end Expr

def Disjunction.seen (d : Disjunction) : Disjunction := ⟨d.predicates.map (Expr.seen view)⟩

def Cnf.seen (cnf : Cnf) : Cnf := ⟨cnf.disjunctions.map (Disjunction.seen view)⟩

def OrderItem.seen (item : OrderItem) : OrderItem := ⟨item.expression.seen view, item.direction⟩

mutual

def SelectQuery.seen : SelectQuery → SelectQuery
  | ⟨distinct, items, sources, condition, grouping, having, ordering, limit⟩ =>
      ⟨distinct, items.map (Expr.seen view), FromItem.seenAll sources,
        condition.map (Cnf.seen view), grouping.map (List.map (Expr.seen view)),
        having.map (Cnf.seen view), ordering.map (OrderItem.seen view), limit⟩

def FromItem.seenAll : List FromItem → List FromItem
  | [] => []
  | item :: items => item.seen :: FromItem.seenAll items

def FromItem.seen : FromItem → FromItem
  | ⟨source, joins⟩ => ⟨source.seen, Join.seenAll joins⟩

def Join.seenAll : List Join → List Join
  | [] => []
  | join :: joins => join.seen :: Join.seenAll joins

def Join.seen : Join → Join
  | ⟨kind, source, condition⟩ => ⟨kind, source.seen, condition.map (Cnf.seen view)⟩

def TableSource.seen : TableSource → TableSource
  | .table table => .table table
  | .derived query aliasName => .derived query.seen aliasName

end

def InsertQuery.seen (query : InsertQuery) : InsertQuery :=
  { query with rows := query.rows.map (List.map (Expr.seen view)) }

def UpdateQuery.seen (query : UpdateQuery) : UpdateQuery :=
  { query with
    assignments := query.assignments.map (Prod.map id (Expr.seen view))
    condition := query.condition.map (Cnf.seen view) }

def DeleteQuery.seen (query : DeleteQuery) : DeleteQuery :=
  { query with condition := query.condition.map (Cnf.seen view) }

def ColumnDefinition.seen (column : ColumnDefinition) : ColumnDefinition :=
  { column with defaultValue := column.defaultValue.map (Expr.seen view) }

def CreateTableQuery.seen (query : CreateTableQuery) : CreateTableQuery :=
  { query with columns := query.columns.map (ColumnDefinition.seen view) }

def AlterTableQuery.seen (query : AlterTableQuery) : AlterTableQuery :=
  { query with column := query.column.seen view }

def OpetreeCommand.seen (command : OpetreeCommand) : OpetreeCommand :=
  { command with seeds := command.seeds.map (Constant.seen view) }

def Query.seen : Query → Query
  | .select query => .select (query.seen view)
  | .insert query => .insert (query.seen view)
  | .update query => .update (query.seen view)
  | .delete query => .delete (query.seen view)
  | .createTable query => .createTable (query.seen view)
  | .alterTable query => .alterTable (query.seen view)
  | .rebuildOpetree command => .rebuildOpetree (command.seen view)
  | .rebalanceOpetree command => .rebalanceOpetree (command.seen view)
  | .bypass query => .bypass query.seen
  | query => query

/-! ### What is built can be looked at before or after -/

namespace Expr

variable {view} {e : Expr}

@[simp]
theorem seen_withAlias (a : Option String) (e : Expr) :
    (e.withAlias a).seen view = (e.seen view).withAlias (a.bind view.aliasName) := by
  cases e <;> simp [withAlias, seen]

@[simp]
theorem isLeaf_seen (e : Expr) : (e.seen view).isLeaf = e.isLeaf := by
  cases e <;> rfl

@[simp]
theorem isPredicate_seen (e : Expr) : (e.seen view).isPredicate = e.isPredicate := by
  fun_induction isPredicate e with
  | case1 a l r ihl ihr => rw [seen, isPredicate, ihl, ihr]
  | case2 a l r ihl ihr => rw [seen, isPredicate, ihl, ihr]
  | case3 e hand hor =>
    have hleaf : (e.seen view).isLeaf = e.isLeaf := isLeaf_seen e
    rw [← hleaf]
    cases e <;> first | rfl | exact absurd rfl (hand _ _ _) | exact absurd rfl (hor _ _ _)

@[simp]
theorem isAnd_seen (e : Expr) : (e.seen view).isAnd = e.isAnd := by
  cases e <;> rfl

@[simp]
theorem isAllColumns_seen (e : Expr) :
    Build.Node.isAllColumns (e.seen view) = Build.Node.isAllColumns e := by
  cases e <;> rfl

@[simp]
theorem seen_toggled (e : Expr) : e.toggled.seen view = (e.seen view).toggled := by
  cases e <;> rfl

theorem seen_complement (e : Expr) : e.complement.seen view = (e.seen view).complement := by
  fun_induction complement e with
  | case1 a l r ihl ihr => simp only [seen, complement, ihl, ihr]
  | case2 a l r ihl ihr => simp only [seen, complement, ihl, ihr]
  | case3 e hand hor =>
    rw [seen_toggled]
    cases e <;> first | rfl | exact absurd rfl (hand _ _ _) | exact absurd rfl (hor _ _ _)

theorem cnfSize_seen (e : Expr) : (e.seen view).cnfSize = e.cnfSize := by
  fun_induction cnfSize e with
  | case1 a l r left right ihl ihr => simp only [seen, cnfSize, ihl, ihr, left, right]
  | case2 a l r left right ihl ihr => simp only [seen, cnfSize, ihl, ihr, left, right]
  | case3 e hand hor =>
    cases e <;> first | rfl | exact absurd rfl (hand _ _ _) | exact absurd rfl (hor _ _ _)

theorem isCnf_seen (e : Expr) : (e.seen view).isCnf = e.isCnf := by
  fun_induction isCnf e with
  | case1 a l r ihl ihr => rw [seen, isCnf, isAnd_seen, isAnd_seen, ihl, ihr]
  | case2 a l r ihl ihr => rw [seen, isCnf, ihl, ihr]
  | case3 e hor hand =>
    cases e <;> first | rfl | exact absurd rfl (hand _ _ _) | exact absurd rfl (hor _ _ _)

/-- What is seen as a conjunction is one. -/
theorem ne_and_of_seen (h : ∀ a l r, e = and a l r → False) (a : Option String) (l r : Expr)
    (hseen : e.seen view = and a l r) : False := by
  cases e <;> first | exact h _ _ _ rfl | cases hseen

theorem seen_distributeOnce (e : Expr) :
    e.distributeOnce.seen view = (e.seen view).distributeOnce := by
  fun_induction distributeOnce e with
  | case1 a b q s r ihq ihs =>
    rw [seen, ihq, ihs, seen, seen, seen, seen, distributeOnce]
    rfl
  | case2 a l b q s hl ihq ihs =>
    rw [seen, ihq, ihs, seen, seen, seen, seen, distributeOnce.eq_2 _ _ _ _ _ (ne_and_of_seen hl)]
    rfl
  | case3 a l r hl hr ihl ihr =>
    rw [seen, ihl, ihr, seen, distributeOnce.eq_3 _ _ _ (ne_and_of_seen hl) (ne_and_of_seen hr)]
  | case4 a l r ihl ihr => simp only [seen, distributeOnce, ihl, ihr]
  | case5 e hleft hright hor hand =>
    cases e with
    | and a l r => exact absurd rfl (hand _ _ _)
    | or a l r => exact absurd rfl (hor _ _ _)
    | _ => simp only [seen, distributeOnce]

theorem seen_toCnf (e : Expr) : e.toCnf.seen view = (e.seen view).toCnf := by
  fun_induction toCnf e with
  | case1 e h => rw [toCnf, isCnf_seen, if_pos h]
  | case2 e h ih => rw [ih, seen_distributeOnce, toCnf.eq_def (e.seen view), isCnf_seen, if_neg h]

theorem seen_disjuncts (e : Expr) :
    e.disjuncts.map (seen view) = (e.seen view).disjuncts := by
  fun_induction disjuncts e with
  | case1 a l r ihl ihr => rw [List.map_append, ihl, ihr, seen, disjuncts]
  | case2 e hor => cases e <;> first | rfl | exact absurd rfl (hor _ _ _)

theorem seen_clauses (e : Expr) :
    e.clauses.map (Disjunction.seen view) = (e.seen view).clauses := by
  fun_induction clauses e with
  | case1 a l r ihl ihr => rw [List.map_append, ihl, ihr, seen, clauses]
  | case2 e hand =>
    rw [List.map_singleton, Disjunction.seen, seen_disjuncts]
    cases e <;> first | rfl | exact absurd rfl (hand _ _ _)

theorem seen_normalize (e : Expr) : e.normalize.seen view = (e.seen view).normalize := by
  rw [normalize, normalize, ← seen_toCnf, ← seen_clauses]
  rfl

theorem seen_named (a : String) (e : Expr) :
    (Build.named a e).seen view = match e.seen view with
      | .column _ c => .column (view.aliasName a) { c with aliasName := some a }
      | other => other.withAlias (view.aliasName a) := by
  cases e <;> simp [Build.named, seen, withAlias]

theorem seen_balanced {combine : Expr → Expr → Expr}
    (hcombine : ∀ l r, (combine l r).seen view = combine (l.seen view) (r.seen view))
    (es : List Expr) :
    (balanced combine es).map (seen view) = balanced combine (es.map (seen view)) := by
  fun_induction balanced combine es with
  | case1 => simp [balanced]
  | case2 => simp [balanced]
  | case3 first second es all ihl ihr =>
    rw [List.map_cons, List.map_cons, balanced]
    simp only [← List.map_cons, List.length_map, ← List.map_take, ← List.map_drop, ← ihl, ← ihr,
      all]
    cases balanced combine (all.take (all.length / 2)) with
    | none => rfl
    | some l =>
      cases balanced combine (all.drop (all.length / 2)) with
      | none => rfl
      | some r => exact congrArg some (hcombine l r)

end Expr

/-! ### What is seen as it is -/

@[simp]
theorem View.bind_whole (a : Option String) : a.bind View.whole.aliasName = a := by
  cases a <;> rfl

@[simp]
theorem Constant.seen_whole (value : Constant) : value.seen .whole = value := by
  cases value <;> rfl

namespace Expr

mutual

theorem seen_whole : ∀ e : Expr, e.seen .whole = e
  | column a c => by rw [seen, View.bind_whole]
  | constant a v => by rw [seen, View.bind_whole, Constant.seen_whole]
  | call a f args => by rw [seen, View.bind_whole, seenAll_whole args]
  | aggregate a f d args => by rw [seen, View.bind_whole, seenAll_whole args]
  | arithmetic a op l r => by rw [seen, View.bind_whole, seen_whole l, seen_whole r]
  | compare a n op l r => by rw [seen, View.bind_whole, seen_whole l, seen_whole r]
  | inList a n c vs => by
      rw [seen, View.bind_whole, List.map_congr_left fun v _ => v.seen_whole, List.map_id']
  | isNull a n c => by rw [seen, View.bind_whole]
  | like a n c p e => by rw [seen, View.bind_whole, Constant.seen_whole]
  | allColumns a t => by rw [seen, View.bind_whole]
  | and a l r => by rw [seen, View.bind_whole, seen_whole l, seen_whole r]
  | or a l r => by rw [seen, View.bind_whole, seen_whole l, seen_whole r]

theorem seenAll_whole : ∀ es : List Expr, seenAll .whole es = es
  | [] => rfl
  | e :: es => by rw [seenAll, seen_whole e, seenAll_whole es]

end

end Expr

section

/-- Looking at each item as it is changes no list. -/
theorem map_whole {α : Type} {f : α → α} (h : ∀ x, f x = x) (xs : List α) : xs.map f = xs := by
  rw [funext h, List.map_id']

theorem option_map_whole {α : Type} {f : α → α} (h : ∀ x, f x = x) (x : Option α) :
    x.map f = x := by
  rw [funext h, Option.map_id']

theorem Disjunction.seen_whole (d : Disjunction) : d.seen .whole = d := by
  rw [seen, map_whole Expr.seen_whole]

theorem Cnf.seen_whole (cnf : Cnf) : cnf.seen .whole = cnf := by
  rw [seen, map_whole Disjunction.seen_whole]

theorem OrderItem.seen_whole (item : OrderItem) : item.seen .whole = item := by
  rw [seen, Expr.seen_whole]

mutual

theorem SelectQuery.seen_whole : ∀ query : SelectQuery, query.seen .whole = query
  | ⟨distinct, items, sources, condition, grouping, having, ordering, limit⟩ => by
      rw [SelectQuery.seen, map_whole Expr.seen_whole, FromItem.seenAll_whole sources,
        option_map_whole Cnf.seen_whole, option_map_whole Cnf.seen_whole,
        option_map_whole (map_whole Expr.seen_whole), map_whole OrderItem.seen_whole]

theorem FromItem.seenAll_whole : ∀ items : List FromItem, FromItem.seenAll .whole items = items
  | [] => rfl
  | item :: items => by
      rw [FromItem.seenAll, FromItem.seen_whole item, FromItem.seenAll_whole items]

theorem FromItem.seen_whole : ∀ item : FromItem, item.seen .whole = item
  | ⟨source, joins⟩ => by
      rw [FromItem.seen, TableSource.seen_whole source, Join.seenAll_whole joins]

theorem Join.seenAll_whole : ∀ joins : List Join, Join.seenAll .whole joins = joins
  | [] => rfl
  | join :: joins => by rw [Join.seenAll, Join.seen_whole join, Join.seenAll_whole joins]

theorem Join.seen_whole : ∀ join : Join, join.seen .whole = join
  | ⟨kind, source, condition⟩ => by
      rw [Join.seen, TableSource.seen_whole source, option_map_whole Cnf.seen_whole]

theorem TableSource.seen_whole : ∀ source : TableSource, source.seen .whole = source
  | .table table => rfl
  | .derived query aliasName => by rw [TableSource.seen, SelectQuery.seen_whole query]

end

theorem ColumnDefinition.seen_whole (column : ColumnDefinition) : column.seen .whole = column := by
  rw [seen, option_map_whole Expr.seen_whole]

theorem InsertQuery.seen_whole (query : InsertQuery) : query.seen .whole = query := by
  rw [seen, map_whole (map_whole Expr.seen_whole)]

theorem UpdateQuery.seen_whole (query : UpdateQuery) : query.seen .whole = query := by
  have hassignment (assignment : ColumnRef × Expr) :
      assignment.map id (Expr.seen .whole) = assignment := by
    rw [Prod.map, Expr.seen_whole, id]
  rw [seen, map_whole hassignment, option_map_whole Cnf.seen_whole]

theorem DeleteQuery.seen_whole (query : DeleteQuery) : query.seen .whole = query := by
  rw [seen, option_map_whole Cnf.seen_whole]

theorem CreateTableQuery.seen_whole (query : CreateTableQuery) : query.seen .whole = query := by
  rw [seen, map_whole ColumnDefinition.seen_whole]

theorem AlterTableQuery.seen_whole (query : AlterTableQuery) : query.seen .whole = query := by
  rw [seen, ColumnDefinition.seen_whole]

theorem OpetreeCommand.seen_whole (command : OpetreeCommand) : command.seen .whole = command := by
  rw [seen, map_whole Constant.seen_whole]

/-- **Nothing is changed where everything is seen as it is.** -/
theorem Query.seen_whole (query : Query) : query.seen .whole = query := by
  induction query with
  | select query => rw [seen, query.seen_whole]
  | insert query => rw [seen, query.seen_whole]
  | update query => rw [seen, query.seen_whole]
  | delete query => rw [seen, query.seen_whole]
  | createTable query => rw [seen, query.seen_whole]
  | alterTable query => rw [seen, query.seen_whole]
  | rebuildOpetree command => rw [seen, command.seen_whole]
  | rebalanceOpetree command => rw [seen, command.seen_whole]
  | bypass query ih => rw [seen, ih]
  | _ => rfl

end

end SqlFront
