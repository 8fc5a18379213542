import SqlFront.Cnf.Basic

/-!
Queries that select rows. A query takes its rows from tables and from other queries.
-/

namespace SqlFront

inductive SortDirection where
  | ascending
  | descending
  deriving DecidableEq, Repr

/-- A sorting key. -/
structure OrderItem where
  expression : Expr
  direction : SortDirection

/-- How many rows are wanted, and how many are left out before them. -/
structure RowLimit where
  count : Nat
  offset : Option Nat
  deriving DecidableEq, Repr

inductive JoinKind where
  | inner
  | left
  | right
  | full
  | cross
  deriving DecidableEq, Repr

mutual

/-- A query that selects rows. -/
structure SelectQuery where
  distinct : Bool
  items : List Expr
  sources : List FromItem
  condition : Option Cnf
  grouping : Option (List Expr)
  having : Option Cnf
  ordering : List OrderItem
  limit : Option RowLimit

/-- A table with the tables that are joined to it. -/
structure FromItem where
  source : TableSource
  joins : List Join

/-- A joined table. A cross join has no condition. -/
structure Join where
  kind : JoinKind
  source : TableSource
  condition : Option Cnf

/-- A table, or a query that is used as one. -/
inductive TableSource where
  | table (table : TableRef)
  | derived (query : SelectQuery) (aliasName : String)

end

/-- Equality of optional values by an equality of the values. -/
def sameOption {α : Type} (same : α → α → Bool) : Option α → Option α → Bool
  | some l, some r => same l r
  | none, none => true
  | _, _ => false

namespace SelectQuery

/-- The query before any of its clauses is known. -/
def empty (distinct : Bool) : SelectQuery :=
  { distinct, items := [], sources := [], condition := none, grouping := none, having := none,
    ordering := [], limit := none }

/-- The columns that the rows are grouped by. -/
def groupColumns (query : SelectQuery) : Option (List ColumnRef) :=
  query.grouping.map fun expressions => expressions.flatMap Expr.columns

end SelectQuery

/-- Equality of sorting keys. -/
def OrderItem.same (left right : OrderItem) : Bool :=
  left.expression.same right.expression && left.direction == right.direction

mutual

/-- Equality of queries, part by part; expressions compare without their aliases. -/
def SelectQuery.same : SelectQuery → SelectQuery → Bool
  | ⟨distinct, items, sources, condition, grouping, having, ordering, limit⟩, other =>
      distinct == other.distinct && Expr.sameAll items other.items &&
        sameSources sources other.sources && sameOption Cnf.same condition other.condition &&
        sameOption Expr.sameAll grouping other.grouping &&
        sameOption Cnf.same having other.having &&
        ordering.isEqv other.ordering OrderItem.same && limit == other.limit

def sameSources : List FromItem → List FromItem → Bool
  | [], [] => true
  | l :: ls, r :: rs => l.same r && sameSources ls rs
  | _, _ => false

def FromItem.same : FromItem → FromItem → Bool
  | ⟨source, joins⟩, other => source.same other.source && sameJoins joins other.joins

def sameJoins : List Join → List Join → Bool
  | [], [] => true
  | l :: ls, r :: rs => l.same r && sameJoins ls rs
  | _, _ => false

def Join.same : Join → Join → Bool
  | ⟨kind, source, condition⟩, other =>
      kind == other.kind && source.same other.source &&
        sameOption Cnf.same condition other.condition

def TableSource.same : TableSource → TableSource → Bool
  | .table l, .table r => l == r
  | .derived l a, .derived r b => l.same r && a == b
  | _, _ => false

end

end SqlFront
