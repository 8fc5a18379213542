import SqlFront.Expr.Basic

/-!
Expressions as text. Sums, products, conjunctions and disjunctions have parentheses around them,
so the text shows the structure.
-/

namespace SqlFront

def ArithmeticOp.text : ArithmeticOp → String
  | add => " + "
  | subtract => " - "
  | multiply => " * "
  | divide => " / "

def ComparisonOp.text : ComparisonOp → String
  | equal => " = "
  | greater => " > "
  | less => " < "
  | greaterEqual => " >= "
  | lessEqual => " <= "

namespace Expr

/-- The word that negates a predicate after its subject. -/
def notText (negated : Bool) : String := if negated then " NOT" else ""

/-- A comparison of two texts. A negated equality is an inequality, and every other negation
stands in front. -/
def comparisonText (negated : Bool) (op : ComparisonOp) (left right : String) : String :=
  match negated, op with
  | false, op => left ++ op.text ++ right
  | true, .equal => left ++ " <> " ++ right
  | true, op => "NOT " ++ left ++ op.text ++ right

/-- The escape character of a pattern. -/
def escapeText : Option Char → String
  | some c => " ESCAPE '" ++ c.toString ++ "'"
  | none => ""

mutual

/-- An expression as text. -/
def render : Expr → String
  | column _ c => c.render
  | constant _ v => v.render
  | call _ f args => f ++ "(" ++ joined ", " (renderAll args) ++ ")"
  | aggregate _ f d args =>
      f.name ++ "(" ++ (if d then "DISTINCT " else "") ++ joined ", " (renderAll args) ++ ")"
  | arithmetic _ op l r => "(" ++ render l ++ op.text ++ render r ++ ")"
  | compare _ n op l r => comparisonText n op (render l) (render r)
  | inList _ n c vs =>
      c.render ++ notText n ++ " IN (" ++ joined ", " (vs.map Constant.render) ++ ")"
  | isNull _ n c => c.render ++ " IS" ++ notText n ++ " NULL"
  | like _ n c p e => c.render ++ notText n ++ " LIKE " ++ p.render ++ escapeText e
  | allColumns _ (some t) => t.referenceName ++ ".*"
  | allColumns _ none => "*"
  | and _ l r => "(" ++ render l ++ " AND " ++ render r ++ ")"
  | or _ l r => "(" ++ render l ++ " OR " ++ render r ++ ")"

/-- The texts of some expressions. -/
def renderAll : List Expr → List String
  | [] => []
  | e :: es => render e :: renderAll es

end

end Expr

end SqlFront
