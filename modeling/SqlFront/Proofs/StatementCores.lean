import SqlFront.Parse
import SqlFront.Proofs.InsideTree
import SqlFront.Proofs.Outcome

/-!
The statements of a batch without the `BYPASS` in front of them, in the tree and in the queries.

A batch is built statement by statement, and what stands under `BYPASS` is built as it is elsewhere.
So a property of statements is shown once, for those that hold no other statement.
-/

namespace SqlFront

mutual

/-- The statement that a tree stands for, without the `BYPASS` in front of it. -/
def Tree.core : Tree → Tree
  | .node .bypassStatement span children =>
      (Tree.innerCore children).getD (.node .bypassStatement span children)
  | tree => tree

/-- The first statement among some trees, without the `BYPASS` in front of it. -/
def Tree.innerCore : List Tree → Option Tree
  | [] => none
  | tree :: trees => if tree.isLeaf then Tree.innerCore trees else some (Tree.core tree)

end

/-- The statements of a batch, each of them without the `BYPASS` in front of it. -/
def Tree.statements (batch : Tree) : List Tree :=
  (batch.children.filter fun child => !child.isLeaf).map Tree.core

/-- The statement that a query is, without the `BYPASS` in front of it. -/
def Query.core : Query → Query
  | .bypass query => core query
  | query => query

namespace Tree

theorem exists_of_innerCore {trees : List Tree} {inner : Tree} (h : innerCore trees = some inner) :
    ∃ tree ∈ trees, tree.core = inner := by
  induction trees with
  | nil => cases h
  | cons tree trees ih =>
    rw [innerCore] at h
    split at h
    · obtain ⟨other, hmem, hother⟩ := ih h
      exact ⟨other, by simp [hmem], hother⟩
    · exact ⟨tree, by simp, Option.some.inj h⟩

/-- What stands under `BYPASS` lies inside the statement. -/
theorem core_inside (tree : Tree) : tree.core.Inside tree := by
  induction tree using Tree.induct with
  | leaf lexeme => exact .self
  | node rule span children ih =>
    unfold core
    split
    · rename_i heq
      cases heq
      cases hinner : innerCore children with
      | none => exact .self
      | some inner =>
        obtain ⟨child, hmem, rfl⟩ := exists_of_innerCore hinner
        exact .part hmem (ih child hmem)
    · exact .self

theorem inside_of_mem_statements {batch statement : Tree} (h : statement ∈ batch.statements) :
    statement.Inside batch := by
  obtain ⟨child, hmem, rfl⟩ := List.mem_map.mp h
  exact child.core_inside.trans (.of_mem (List.mem_of_mem_filter hmem))

end Tree

namespace Build.Context

variable (context : Context) {tree : Tree} {query : Query}

/-- A statement that holds no other one builds no `BYPASS`. -/
theorem core_of_simpleStatement (h : context.simpleStatement tree = .ok query) :
    query.core = query := by
  unfold simpleStatement at h
  split at h
  all_goals first
    | exact absurd h reject_ne_ok
    | cases h
      rfl
    | obtain ⟨_, -, rfl⟩ := map_eq_ok.mp h
      rfl

theorem innerStatement_eq (trees : List Tree) :
    (context.innerStatement trees = none ∧ Tree.innerCore trees = none) ∨
      ∃ tree ∈ trees, context.innerStatement trees = some (context.statement tree) ∧
        Tree.innerCore trees = some tree.core := by
  induction trees with
  | nil => exact .inl ⟨rfl, rfl⟩
  | cons tree trees ih =>
    rw [innerStatement, Tree.innerCore]
    split
    · rcases ih with hnone | ⟨inner, hmem, hinner⟩
      · exact .inl hnone
      · exact .inr ⟨inner, by simp [hmem], hinner⟩
    · exact .inr ⟨tree, by simp, rfl, rfl⟩

/-- A statement is built from what stands under its `BYPASS`. -/
theorem statement_core (tree : Tree) {query : Query} (h : context.statement tree = .ok query) :
    context.simpleStatement tree.core = .ok query.core := by
  induction tree using Tree.induct generalizing query with
  | leaf lexeme =>
    have hsimple : context.simpleStatement (.leaf lexeme) = .ok query := h
    rwa [Tree.core, context.core_of_simpleStatement hsimple]
    rintro _ _ ⟨⟩
  | node rule span children ih =>
    unfold statement at h
    split at h
    · rename_i heq
      cases heq
      simp only [bind_eq_ok, require_eq_ok] at h
      obtain ⟨built, hbuilt, inner, rfl, h⟩ := h
      rcases context.innerStatement_eq children with ⟨hnone, -⟩ | ⟨child, hmem, hchild, hcore⟩
      · rw [hnone] at hbuilt
        cases hbuilt
      · rw [hchild] at hbuilt
        rw [Tree.core, hcore, Option.getD_some]
        unfold bypassed at h
        split at h
        · cases h
          rw [Query.core]
          exact ih child hmem (Option.some.inj hbuilt)
        · exact absurd h reject_ne_ok
    · rename_i hother
      rw [Tree.core, context.core_of_simpleStatement h]
      · exact h
      · exact hother

/-- A statement fails as what stands under its `BYPASS` does. -/
theorem statement_eq_error (tree : Tree) {failure : Failure}
    (h : context.simpleStatement tree.core = .error failure) :
    context.statement tree = .error failure := by
  induction tree using Tree.induct with
  | leaf lexeme => exact h
  | node rule span children ih =>
    unfold statement
    split
    · rename_i heq
      cases heq
      rw [Tree.core] at h
      rcases context.innerStatement_eq children with ⟨hnone, hcore⟩ | ⟨child, hmem, hchild, hcore⟩
      · rw [hcore] at h
        rw [hnone]
        exact h
      · rw [hcore] at h
        rw [hchild]
        exact bind_eq_error.mpr (.inr ⟨_, rfl, bind_eq_error.mpr (.inl (ih child hmem h))⟩)
    · rename_i hother
      rw [Tree.core] at h
      · exact h
      · exact hother

/-- **A batch builds one query for each of its statements**, in order, whether they stand under
`BYPASS` or not. -/
theorem forall₂_statements {queries : List Query} (h : context.batch tree = .ok queries) :
    List.Forall₂ (fun statement query => context.simpleStatement statement = .ok query.core)
      tree.statements queries := by
  rw [Tree.statements, List.forall₂_map_left_iff]
  exact (forall₂_of_mapM_eq_ok h).imp fun child query => context.statement_core child

/-- A batch fails for the first of its statements that cannot be built. -/
theorem batch_eq_error {before after : List Tree} {child : Tree} {failure : Failure}
    (hparts : (tree.children.filter fun child => !child.isLeaf) = before ++ child :: after)
    (hbefore : ∀ earlier ∈ before, ∃ query, context.statement earlier = .ok query)
    (h : context.statement child = .error failure) : context.batch tree = .error failure := by
  rw [batch, hparts]
  clear hparts
  induction before with
  | nil =>
    rw [List.nil_append, List.mapM_cons]
    exact bind_eq_error.mpr (.inl h)
  | cons earlier before ih =>
    obtain ⟨⟨query, hquery⟩, hothers⟩ := List.forall_mem_cons.mp hbefore
    rw [List.cons_append, List.mapM_cons]
    exact bind_eq_error.mpr (.inr ⟨query, hquery, bind_eq_error.mpr (.inl (ih hothers))⟩)

end Build.Context

end SqlFront
