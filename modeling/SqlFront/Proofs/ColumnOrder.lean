import SqlFront.Proofs.Complement
import SqlFront.Proofs.Labels

/-!
The columns that an expression refers to, in the order of reading.

They are found by a walk with a stack, which is cut short where a predicate names its column. The
walk is measured against the plain recursion over an expression. Negation keeps what is found, each
column in its place; a normal form repeats columns and changes their order, and has the same ones.
-/

namespace SqlFront

namespace Expr

mutual

/-- The columns that are read in an expression: those of its parts in the order of the parts, and
the column that a predicate is about. -/
def references : Expr → List ColumnRef
  | column _ c => [c]
  | constant _ _ => []
  | call _ _ args => referencesOfAll args
  | aggregate _ _ _ args => referencesOfAll args
  | arithmetic _ _ l r => references l ++ references r
  | compare _ _ _ l r => references l ++ references r
  | inList _ _ c _ => [c]
  | isNull _ _ c => [c]
  | like _ _ c _ _ => [c]
  | allColumns _ _ => []
  | and _ l r => references l ++ references r
  | or _ l r => references l ++ references r

/-- The columns that are read in some expressions, one after the other. -/
def referencesOfAll : List Expr → List ColumnRef
  | [] => []
  | e :: es => references e ++ referencesOfAll es

end

theorem referencesOfAll_eq (es : List Expr) : referencesOfAll es = es.flatMap references := by
  induction es with
  | nil => rfl
  | cons e es ih => rw [referencesOfAll, ih, List.flatMap_cons]

/-! ### The walk -/

/-- An expression that names a column has no other one in it. -/
theorem references_of_subject? {e : Expr} {c : ColumnRef} (h : e.subject? = some c) :
    e.references = [c] := by
  cases e with
  | column | inList | isNull | like => obtain rfl := Option.some.inj h; rfl
  | _ => cases h

/-- All other columns are read in the parts. -/
theorem references_of_children {e : Expr} (h : e.subject? = none) :
    e.references = e.children.flatMap references := by
  cases e with
  | column | inList | isNull | like => cases h
  | call | aggregate => rw [references, referencesOfAll_eq]; rfl
  | arithmetic | compare | and | or => simp [references, children]
  | constant | allColumns => rfl

/-- The walk adds what is read in the expressions on the stack, from the top of the stack on. -/
theorem columnsOn_eq (found : Array ColumnRef) (stack : List Expr) :
    (columnsOn found stack).toList = found.toList ++ stack.flatMap references := by
  fun_induction columnsOn found stack with
  | case1 found => simp
  | case2 found e stack c subject ih =>
    rw [ih, Array.toList_push, List.append_assoc, List.flatMap_cons, references_of_subject? subject]
  | case3 found e stack subject ih =>
    rw [ih, List.flatMap_append, List.flatMap_cons, references_of_children subject]

/-- The walk finds what is read. -/
theorem columns_eq (e : Expr) : e.columns = e.references := by
  simp [columns, columnsOn_eq]

/-! ### Negation and the normal form -/

theorem references_complement (e : Expr) : e.complement.references = e.references := by
  fun_induction complement e with
  | case1 a l r ihl ihr => simp only [references, ihl, ihr]
  | case2 a l r ihl ihr => simp only [references, ihl, ihr]
  | case3 e => cases e <;> rfl

theorem mem_columns_normalize (e : Expr) (c : ColumnRef) :
    c ∈ e.normalize.columns ↔ c ∈ e.references := by
  have collected : e.normalize.columns = e.normalize.predicates.flatMap references :=
    congrArg e.normalize.predicates.flatMap (funext columns_eq)
  rw [collected]
  exact mem_collect_normalize (fun _ _ _ => by rw [references]) (fun _ _ _ => by rw [references])
    e c

/-- **Columns in the order of reading.** The walk over an expression finds each column as often as
it is read and in that order. A negation finds the same columns in the same order, whether it is
returned or made in place, and where it is refused. The normal form of a condition refers to the
columns that the condition refers to. -/
theorem columns_in_order (e : Expr) :
    e.columns = e.references ∧
    (∀ negated, e.negate = .ok negated → negated.columns = e.columns) ∧
    (negateInPlace.run.run e).2.columns = e.columns ∧
    ∀ c, c ∈ e.normalize.columns ↔ c ∈ e.columns := by
  have kept : ∀ negated, e.negate = .ok negated → negated.columns = e.columns := by
    intro negated h
    obtain ⟨-, rfl⟩ := negate_eq_ok.mp h
    rw [columns_eq, columns_eq, references_complement]
  refine ⟨columns_eq e, kept, ?_, fun c => ?_⟩
  · rw [negateInPlace_run]
    cases negation : e.negate with
    | ok negated => exact kept negated negation
    | error cause => rfl
  · rw [columns_eq, mem_columns_normalize]

/-- In `f(b, a) = a OR c IS NULL`, and in its negation, `a` is read twice, after `b`. -/
theorem columns_in_order_of_choice :
    let column (name : String) : Expr := .column none (.ofName name)
    let choice : Expr := .or none
      (.compare none false .equal (.call none "f" [column "b", column "a"]) (column "a"))
      (.isNull none false (.ofName "c"))
    choice.columns.map ColumnRef.name = ["b", "a", "a", "c"] ∧
    ∃ negated, choice.negate = .ok negated ∧
      negated.columns.map ColumnRef.name = ["b", "a", "a", "c"] ∧
      ColumnRef.ofName "b" ∈ choice.normalize.columns := by
  intro column choice
  obtain ⟨order, negation, -, normal⟩ := columns_in_order choice
  have read : choice.columns.map ColumnRef.name = ["b", "a", "a", "c"] := by rw [order]; rfl
  refine ⟨read, choice.complement, rfl, ?_, ?_⟩
  · rw [negation _ rfl, read]
  · rw [normal, order]
    simp [choice, column, references, referencesOfAll]

end Expr

end SqlFront
