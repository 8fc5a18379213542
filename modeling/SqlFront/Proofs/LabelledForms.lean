import SqlFront.Proofs.ExpressionLabels
import SqlFront.Proofs.Shape

/-!
Forms and labels: which forms yield trees without labels, and which of the trees in a list are
picked when a query is built.

Names, words and signs have no labels. A list is built from those of its trees that pass a test; it
has the labels of all of them when nothing with a label is passed over.
-/

namespace SqlFront

open Grammar Build

namespace Tree

@[simp]
theorem labels_ofParts (rule : Rule) (parts : List Tree) :
    (ofParts rule parts).labels = labelsOf parts :=
  labels_node rule _ parts

theorem eq_node_of_hasRule {rule : Rule} {tree : Tree} (h : tree.hasRule rule) :
    ∃ span children, tree = .node rule span children := by
  cases tree with
  | leaf lexeme => cases h
  | node own span children =>
    obtain rfl : own = rule := by simpa [hasRule, rule?] using h
    exact ⟨span, children, rfl⟩

theorem ne_node_of_hasRule {rule : Rule} {tree : Tree} (h : tree.hasRule rule = false)
    (span : Span) (children : List Tree) : tree = .node rule span children → False := by
  rintro rfl
  cases (hasRule_iff.mpr rfl).symm.trans h

theorem hasRule_of_isLeaf {tree : Tree} (h : tree.isLeaf) (rule : Rule) :
    tree.hasRule rule = false := by
  cases tree with
  | leaf lexeme => rfl
  | node own span children => cases h

theorem isLeaf_of_isStatement {tree : Tree} (h : tree.isStatement) : tree.isLeaf = false := by
  cases tree with
  | leaf lexeme => cases h
  | node own span children => rfl

theorem hasRule_of_isTable {tree : Tree} (h : tree.isTable) {rule : Rule}
    (hname : rule ≠ .tableName) (hquery : rule ≠ .derivedTable) : tree.hasRule rule = false := by
  rcases Bool.or_eq_true_iff.mp h with hrule | hrule
  · rw [hasRule, hasRule_iff.mp hrule]
    simpa using hname.symm
  · rw [hasRule, hasRule_iff.mp hrule]
    simpa using hquery.symm

/-- What is looked for is not among the first trees. -/
theorem find?_append_of_not {rule : Rule} {before : List Tree}
    (h : ∀ tree ∈ before, tree.hasRule rule = false) (after : List Tree) :
    find? rule (before ++ after) = find? rule after := by
  have none : before.find? (hasRule rule) = none :=
    List.find?_eq_none.mpr fun tree hmem => by simp [h tree hmem]
  rw [find?, List.find?_append, none, Option.none_or, find?]

/-- The tree is not of this production and has no labels. -/
def Skipped (rule : Rule) (tree : Tree) : Prop := tree.labels = [] ∧ tree.hasRule rule = false

theorem labelsOf_append_of_skipped {rule : Rule} {before : List Tree}
    (h : ∀ tree ∈ before, tree.Skipped rule) (after : List Tree) :
    labelsOf (before ++ after) = labelsOf after := by
  have none : labelsOf before = [] :=
    List.flatMap_eq_nil_iff.mpr fun tree hmem => (h tree hmem).1
  rw [labelsOf_append, none, List.nil_append]

theorem filter_append_of_skipped {rule : Rule} {before : List Tree}
    (h : ∀ tree ∈ before, tree.Skipped rule) (after : List Tree) :
    (before ++ after).filter (hasRule rule) = after.filter (hasRule rule) := by
  have none : before.filter (hasRule rule) = [] :=
    List.filter_eq_nil_iff.mpr fun tree hmem => by simp [(h tree hmem).2]
  rw [List.filter_append, none, List.nil_append]

/-- The tree is picked by a test and keeps its labels, or it is passed over and has none. -/
def Picked {α : Type} (test : Tree → Bool) (build : Tree → Built α) (labelsIn : α → List String)
    (tree : Tree) : Prop :=
  test tree = true ∧ tree.KeepsLabels build labelsIn ∨ test tree = false ∧ tree.labels = []

theorem sameLabels_of_picked {α : Type} {test : Tree → Bool} {build : Tree → Built α}
    {labelsIn : α → List String} {trees : List Tree} {results : List α}
    (h : ∀ tree ∈ trees, tree.Picked test build labelsIn)
    (hbuilt : List.Forall₂ (fun tree result => build tree = .ok result) (trees.filter test)
      results) : SameLabels (results.flatMap labelsIn) (labelsOf trees) := by
  rw [← labelsOf_filter fun tree hmem => (h tree hmem).imp And.left And.right]
  refine sameLabels_of_built (fun tree hmem => ?_) hbuilt
  obtain ⟨hmem, htest⟩ := List.mem_filter.mp hmem
  exact ((h tree hmem).resolve_right (by simp [htest])).2

end Tree

open SqlFront.Tree

namespace Grammar

variable {enter : Construct → Reader} {form item : Form} {rule : Rule} {accepts : Token → Bool}
  {wanted : String} {trees : List Tree}

theorem Form.Yields.node (h : (Form.node rule form).Yields enter trees) :
    ∃ parts, form.Yields enter parts ∧ trees = [ofParts rule parts] := by
  obtain ⟨_, _, left, right, hleft, hright, rfl⟩ := h.always
  obtain rfl := hleft.empty
  exact ⟨right, hright, rfl⟩

namespace Form.Each

variable {P : Tree → Prop}

theorem ofParts (h : ∀ parts, form.Yields enter parts → P (Tree.ofParts rule parts)) :
    (Form.node rule form).Each enter P := by
  intro trees hyields tree hmem
  obtain ⟨parts, hparts, rfl⟩ := hyields.node
  obtain rfl := List.mem_singleton.mp hmem
  exact h parts hparts

theorem commaList (hmark : (Form.symbol .comma).Each enter P) (hitem : item.Each enter P) :
    (Form.commaList item).Each enter P :=
  .seq hitem (.whileAt (.seq hmark hitem))

theorem parenthesized (hmark : ∀ mark, (Form.symbol mark).Each enter P)
    (hitem : item.Each enter P) : (Form.parenthesized item).Each enter P :=
  .seq (hmark _) (.seq (.commaList (hmark _) hitem) (hmark _))

end Form.Each

/-- All trees that the form yields are without labels. -/
def Form.Silent (enter : Construct → Reader) (form : Form) : Prop :=
  form.Each enter fun tree => tree.labels = []

namespace Form.Silent

theorem labelsOf (h : form.Silent enter) (hyields : form.Yields enter trees) :
    Tree.labelsOf trees = [] :=
  List.flatMap_eq_nil_iff.mpr (h trees hyields)

theorem token (h : ∀ label, accepts (.placeholder label) = false) :
    (Form.token accepts wanted).Silent enter :=
  Each.token fun _ haccepts => labels_of_isTokenOf h haccepts

theorem node (h : form.Silent enter) : (Form.node rule form).Silent enter :=
  .ofParts fun parts hparts => (labels_ofParts rule parts).trans (h.labelsOf hparts)

end Form.Silent

/-- All trees that the form yields are tokens, and none of them is a placeholder. -/
def Form.Words (enter : Construct → Reader) (form : Form) : Prop :=
  form.Each enter fun tree => tree.isTokenOf fun token => !isPlaceholder token

namespace Form.Words

theorem token (h : ∀ label, accepts (.placeholder label) = false) :
    (Form.token accepts wanted).Words enter := by
  refine Each.token fun lexeme haccepts => ?_
  obtain ⟨token, span⟩ := lexeme
  cases token with
  | placeholder label => cases (h label).symm.trans haccepts
  | _ => rfl

theorem isLeaf (h : form.Words enter) : form.Each enter fun tree => tree.isLeaf :=
  fun trees hyields tree hmem => isLeaf_of_isTokenOf (h trees hyields tree hmem)

theorem silent (h : form.Words enter) : form.Silent enter :=
  fun trees hyields tree hmem => labels_of_isTokenOf (fun _ => rfl) (h trees hyields tree hmem)

end Form.Words

/-- A token that is no placeholder is passed over. -/
theorem picked_token {α : Type} {test : Tree → Bool} {build : Tree → Built α}
    {labelsIn : α → List String} (hlabel : ∀ label, accepts (.placeholder label) = false)
    (htest : ∀ lexeme, test (.leaf lexeme) = false) :
    (Form.token accepts wanted).Each enter (Picked test build labelsIn) :=
  Form.Each.token fun lexeme haccepts => .inr ⟨htest lexeme, labels_of_isTokenOf hlabel haccepts⟩

/-- A node that keeps its labels is picked by its production. -/
theorem picked_node {α : Type} {build : Tree → Built α} {labelsIn : α → List String}
    (h : ∀ parts, form.Yields enter parts →
      (ofParts rule parts).KeepsLabels build labelsIn) :
    (Form.node rule form).Each enter (Picked (hasRule rule) build labelsIn) :=
  .ofParts fun parts hparts => .inl ⟨hasRule_iff.mpr rfl, h parts hparts⟩

/-! ### Names -/

open Form

theorem dotName_silent : dotName.Silent enter :=
  Each.seq (Silent.token fun _ => rfl) (Silent.token fun _ => rfl)

theorem alias?_silent : alias?.Silent enter :=
  Each.ifAt (Silent.node (Each.seq (Silent.token fun _ => rfl) (Silent.token fun _ => rfl)))
    (.optional (Silent.node (Silent.token fun _ => rfl)))

theorem tableParts_silent : tableParts.Silent enter :=
  Each.seq (Silent.token fun _ => rfl)
    (.optional (.seq dotName_silent (.optional dotName_silent)))

theorem tableName_silent : tableName.Silent enter := .node tableParts_silent

theorem aliasedTable_silent : aliasedTable.Silent enter :=
  .node (Each.seq tableParts_silent alias?_silent)

theorem columnName_silent : columnName.Silent enter :=
  .node (Each.seq (Silent.token fun _ => rfl) (.whileAt dotName_silent))

theorem direction_silent : direction.Silent enter := Each.optional (Silent.token fun _ => rfl)

theorem joinSide_words : joinSide.Words enter :=
  Each.ifAt (Words.token fun _ => rfl)
    (.optional (.seq (Words.token fun _ => rfl) (.optional (Words.token fun _ => rfl))))

end Grammar

end SqlFront
