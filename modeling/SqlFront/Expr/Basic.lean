import SqlFront.Constant
import SqlFront.Name
import SqlFront.Text.Words

/-!
Expressions: values and conditions of a query.

There is no negation. A predicate carries a flag that says whether it is meant negated, and the
negation of a conjunction or a disjunction moves inwards until it meets predicates. Every node
may carry an alias: the name it was given, or the text it was written as.
-/

namespace SqlFront

/-- The operators of arithmetic. -/
inductive ArithmeticOp where
  | add
  | subtract
  | multiply
  | divide
  deriving DecidableEq, Repr

/-- The operators of comparison. Inequality is negated equality. -/
inductive ComparisonOp where
  | equal
  | greater
  | less
  | greaterEqual
  | lessEqual
  deriving DecidableEq, Repr

/-- The functions over many rows that are known by name. -/
inductive Aggregate where
  | sum
  | count
  | avg
  | min
  | max
  | stdDev
  | linReg
  deriving DecidableEq, Repr

namespace Aggregate

def name : Aggregate → String
  | sum => "SUM"
  | count => "COUNT"
  | avg => "AVG"
  | min => "MIN"
  | max => "MAX"
  | stdDev => "STDEV"
  | linReg => "LINREG"

/-- Every name an aggregate goes by, in upper case. -/
def names : List (String × Aggregate) :=
  [("SUM", sum), ("COUNT", count), ("AVG", avg), ("MIN", min), ("MAX", max),
    ("STDEV", stdDev), ("STDDEV_SAMP", stdDev), ("LINREG", linReg)]

/-- The aggregate of this name, in any case. -/
def ofName? (name : String) : Option Aggregate :=
  names.lookup (upperWord name)

end Aggregate

/-- An expression. -/
inductive Expr where
  | column (aliasName : Option String) (column : ColumnRef)
  | constant (aliasName : Option String) (value : Constant)
  /-- The call of a function that is no aggregate. -/
  | call (aliasName : Option String) (function : String) (arguments : List Expr)
  | aggregate (aliasName : Option String) (function : Aggregate) (distinct : Bool)
      (arguments : List Expr)
  | arithmetic (aliasName : Option String) (op : ArithmeticOp) (left right : Expr)
  | compare (aliasName : Option String) (negated : Bool) (op : ComparisonOp) (left right : Expr)
  | inList (aliasName : Option String) (negated : Bool) (column : ColumnRef)
      (values : List Constant)
  | isNull (aliasName : Option String) (negated : Bool) (column : ColumnRef)
  | like (aliasName : Option String) (negated : Bool) (column : ColumnRef) (pattern : Constant)
      (escape : Option Char)
  /-- All columns, of one table or of every table. -/
  | allColumns (aliasName : Option String) (table : Option TableRef)
  | and (aliasName : Option String) (left right : Expr)
  | or (aliasName : Option String) (left right : Expr)

namespace Expr

/-- The name that an expression was given, or the text it was written as. -/
def aliasName : Expr → Option String
  | column a _ | constant a _ | call a _ _ | aggregate a _ _ _ | arithmetic a _ _ _
  | compare a _ _ _ _ | inList a _ _ _ | isNull a _ _ | like a _ _ _ _ | allColumns a _
  | and a _ _ | or a _ _ => a

/-- The same expression with another alias. -/
def withAlias (a : Option String) : Expr → Expr
  | column _ c => column a c
  | constant _ v => constant a v
  | call _ f args => call a f args
  | aggregate _ f d args => aggregate a f d args
  | arithmetic _ op l r => arithmetic a op l r
  | compare _ n op l r => compare a n op l r
  | inList _ n c vs => inList a n c vs
  | isNull _ n c => isNull a n c
  | like _ n c p e => like a n c p e
  | allColumns _ t => allColumns a t
  | and _ l r => and a l r
  | or _ l r => or a l r

def isAnd : Expr → Bool
  | and _ _ _ => true
  | _ => false

def isOr : Expr → Bool
  | or _ _ _ => true
  | _ => false

/-- Whether a predicate is meant negated; other expressions have no such flag. -/
def negated? : Expr → Option Bool
  | compare _ n _ _ _ => some n
  | inList _ n _ _ => some n
  | isNull _ n _ => some n
  | like _ n _ _ _ => some n
  | _ => none

/-- The expression is a single predicate: a comparison, `IN`, `IS NULL` or `LIKE`. -/
def isLeaf (e : Expr) : Bool :=
  e.negated?.isSome

/-- The expression is a condition: predicates under `AND` and `OR`. -/
def isPredicate : Expr → Bool
  | and _ l r => isPredicate l && isPredicate r
  | or _ l r => isPredicate l && isPredicate r
  | e => e.isLeaf

def constant? : Expr → Option Constant
  | constant _ v => some v
  | _ => none

def column? : Expr → Option ColumnRef
  | column _ c => some c
  | _ => none

/-- The name of a kind of expression in messages. -/
def kindName : Expr → String
  | column _ _ => "column reference"
  | constant _ _ => "constant"
  | call _ _ _ => "function call"
  | aggregate _ _ _ _ => "aggregate"
  | arithmetic _ .add _ _ => "addition"
  | arithmetic _ .subtract _ _ => "subtraction"
  | arithmetic _ .multiply _ _ => "multiplication"
  | arithmetic _ .divide _ _ => "division"
  | compare _ _ .equal _ _ => "equality"
  | compare _ _ .greater _ _ => "greater-than comparison"
  | compare _ _ .less _ _ => "less-than comparison"
  | compare _ _ .greaterEqual _ _ => "greater-than-or-equal comparison"
  | compare _ _ .lessEqual _ _ => "less-than-or-equal comparison"
  | inList _ _ _ _ => "IN predicate"
  | isNull _ _ _ => "IS NULL predicate"
  | like _ _ _ _ _ => "LIKE predicate"
  | allColumns _ _ => "*"
  | and _ _ _ => "AND"
  | or _ _ _ => "OR"

/-- The direct parts of an expression that are expressions, from left to right. -/
def children : Expr → List Expr
  | call _ _ args | aggregate _ _ _ args => args
  | arithmetic _ _ l r | compare _ _ _ l r | and _ l r | or _ l r => [l, r]
  | _ => []

@[simp]
theorem aliasName_withAlias (a : Option String) (e : Expr) : (e.withAlias a).aliasName = a := by
  cases e <;> rfl

@[simp]
theorem isPredicate_withAlias (a : Option String) (e : Expr) :
    (e.withAlias a).isPredicate = e.isPredicate := by
  cases e <;> simp [withAlias, isPredicate, isLeaf, negated?]

/-- The column that an expression refers to itself: it is a column, or a predicate on one. -/
def subject? : Expr → Option ColumnRef
  | column _ c => some c
  | inList _ _ c _ => some c
  | isNull _ _ c => some c
  | like _ _ c _ _ => some c
  | _ => none

/-- Lists laid on one another share an end. -/
theorem sizeOf_append (es stack : List Expr) :
    sizeOf (es ++ stack) + 1 = sizeOf es + sizeOf stack := by
  induction es with
  | nil => simp only [List.nil_append, List.nil.sizeOf_spec, Nat.add_comm]
  | cons e es ih =>
    simp only [List.cons_append, List.cons.sizeOf_spec]
    omega

/-- The parts of an expression are no larger than a list of the expression alone. -/
theorem sizeOf_children_le (e : Expr) : sizeOf e.children ≤ sizeOf e + 1 := by
  cases e with
  | call | aggregate => simp only [children, call.sizeOf_spec, aggregate.sizeOf_spec]; omega
  | arithmetic a | compare a | and a | or a =>
    have hname : 1 ≤ sizeOf a := by cases a <;> simp
    simp only [children, List.cons.sizeOf_spec, List.nil.sizeOf_spec, arithmetic.sizeOf_spec,
      compare.sizeOf_spec, and.sizeOf_spec, or.sizeOf_spec]
    omega
  | column | constant | inList | isNull | like | allColumns =>
    simp only [children, List.nil.sizeOf_spec]
    omega

/-- Adds the columns that the expressions on a stack refer to. The top is taken off the stack: its
column is added, or its parts are laid on the stack, the first of them on top. -/
def columnsOn (found : Array ColumnRef) : List Expr → Array ColumnRef
  | [] => found
  | e :: stack =>
      match e.subject? with
      | some c => columnsOn (found.push c) stack
      | none => columnsOn found (e.children ++ stack)
termination_by stack => stack
decreasing_by
  · simp only [List.cons.sizeOf_spec]
    omega
  · have hparts := sizeOf_children_le e
    have hstack := sizeOf_append e.children stack
    simp only [List.cons.sizeOf_spec]
    omega

/-- The columns that an expression refers to, from left to right. -/
def columns (e : Expr) : List ColumnRef :=
  (columnsOn #[] [e]).toList

mutual

/-- Equality of expressions. Aliases of expressions do not count; those of columns and tables
do, and decimals compare by value. -/
def same : Expr → Expr → Bool
  | column _ c, column _ c' => c == c'
  | constant _ v, constant _ v' => v.same v'
  | call _ f args, call _ f' args' => f == f' && sameAll args args'
  | aggregate _ f d args, aggregate _ f' d' args' => f == f' && d == d' && sameAll args args'
  | arithmetic _ op l r, arithmetic _ op' l' r' => op == op' && same l l' && same r r'
  | compare _ n op l r, compare _ n' op' l' r' =>
      n == n' && op == op' && same l l' && same r r'
  | inList _ n c vs, inList _ n' c' vs' =>
      n == n' && c == c' && vs.isEqv vs' Constant.same
  | isNull _ n c, isNull _ n' c' => n == n' && c == c'
  | like _ n c p e, like _ n' c' p' e' => n == n' && c == c' && p.same p' && e == e'
  | allColumns _ t, allColumns _ t' => t == t'
  | and _ l r, and _ l' r' => same l l' && same r r'
  | or _ l r, or _ l' r' => same l l' && same r r'
  | _, _ => false

/-- Equality of lists of expressions, item by item. -/
def sameAll : List Expr → List Expr → Bool
  | [], [] => true
  | e :: es, e' :: es' => same e e' && sameAll es es'
  | _, _ => false

end

end Expr

end SqlFront
