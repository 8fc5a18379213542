import SqlFront.Proofs.ExpressionText
import SqlFront.Proofs.StoredParts

/-!
The names of select items that have no alias.

Such an item is named by its own text. The name is faithful: read alone, it is the expression that
is stored for the item. The star that stands alone is no expression outside of a select list, and a
placeholder without a label is numbered by its place in the text, so items with these are left out.
-/

namespace SqlFront

open Grammar

namespace Tree

/-- An item of a select list without an alias, which is not the star alone and holds no placeholder
that is numbered by its place in the text. -/
def isUnnamed (item : Tree) : Bool :=
  (find? .aliasClause item.children).isNone && !item.children.any isStar &&
    item.terminals.all fun lexeme => !lexeme.token.isNumbered

/-- An item that has no alias and is not the star alone consists of an expression. -/
theorem expression_of_selectItem {item : Tree} (hderived : item.IsDerivation)
    (hrule : item.hasRule .selectItem) (hnone : find? .aliasClause item.children = none)
    (hstar : item.children.any isStar = false) :
    ∃ part : Tree, item = ofParts .selectItem [part] ∧ part.bindsAt .disjunction := by
  cases hderived with
  | leaf => cases hrule
  | @node rule span children hspan hallows _ =>
    obtain rfl : rule = .selectItem := by simpa [hasRule_iff, rule?] using hrule
    subst hspan
    rcases hallows with hrow | hrow | hrow
    · obtain ⟨star, _, rfl, hpart, _⟩ := eq_cons_of_row hrow
      cases List.any_eq_false.mp hstar star List.mem_cons_self hpart
    · obtain ⟨part, _, rfl, hpart, hnil⟩ := eq_cons_of_row hrow
      obtain rfl := eq_nil_of_row hnil
      exact ⟨part, rfl, hpart⟩
    · obtain ⟨part, _, rfl, -, hmore⟩ := eq_cons_of_row hrow
      obtain ⟨clause, _, rfl, hclause, _⟩ := eq_cons_of_row hmore
      cases List.find?_eq_none.mp hnone clause (by simp [children]) hclause

@[simp]
theorem span_ofParts_singleton (rule : Rule) (part : Tree) :
    (ofParts rule [part]).span = part.span := by
  simp [ofParts, span, cover, Span.join]

@[simp]
theorem terminals_ofParts_singleton (rule : Rule) (part : Tree) :
    (ofParts rule [part]).terminals = part.terminals := by
  simp [ofParts, terminals, terminalsOf]

end Tree

namespace Config

variable {config : Config} {source : Source}

/-- The item spans a part of the text that is the alias of the expression, and this part is read
alone as the same expression. -/
def NamesItself (config : Config) (source : Source) (item : Tree) (e : Expr) : Prop :=
  ∃ before text after, source = before ++ text ++ after ∧
    item.span = ⟨byteLength before, byteLength before + byteLength text⟩ ∧
    e.aliasName = some (String.ofList text) ∧ config.ReadsAs text e

theorem namesItself_of_selectItem {item : Tree} {e : Expr} (h : config.HasRead source item)
    (hrule : item.hasRule .selectItem) (hunnamed : item.isUnnamed)
    (hbuilt : Build.Context.selectItem { config, source } item = .ok e) :
    config.NamesItself source item e := by
  simp only [Tree.isUnnamed, Bool.and_eq_true, Option.isNone_iff_eq_none, Bool.not_eq_true',
    List.all_eq_true] at hunnamed
  obtain ⟨⟨hnone, hstar⟩, hnumbered⟩ := hunnamed
  obtain ⟨part, rfl, hpart⟩ :=
    Tree.expression_of_selectItem h.derived.derived hrule hnone hstar
  have hread : config.HasRead source part := h.inside (.of_mem List.mem_cons_self)
  simp only [Build.Context.selectItem, hnone, bind_eq_ok, pure_eq_ok] at hbuilt
  obtain ⟨built, hfirst, rfl⟩ := hbuilt
  obtain ⟨child, hfound, hchild⟩ := Build.Context.expression_of_firstExpression _ hfirst
  obtain rfl : part = child := by
    simpa [Tree.ofParts, Tree.children, Tree.isExpression_of_bindsAt hpart] using hfound
  obtain ⟨before, text, after, hsource, hspan, haliasName, hreads⟩ :=
    hread.readsAs hpart (by simpa using hnumbered) hchild
  exact ⟨before, text, after, hsource, by simpa using hspan, haliasName, hreads⟩

/-- The items of a query are built from those of a select list in its tree. -/
theorem buildsItems_of_select {context : Build.Context} {tree : Tree} {query : SelectQuery}
    (hformed : tree.WellFormed) (hrule : tree.hasRule .selectStatement)
    (h : context.select tree = .ok query) :
    ∃ list ∈ tree.children, context.BuildsItems list query.items := by
  cases hformed with
  | leaf => cases hrule
  | @node rule span children _ hshape _ =>
    obtain rfl : rule = .selectStatement := by simpa [Tree.hasRule_iff, Tree.rule?] using hrule
    rw [Build.Context.select] at h
    rcases context.items_of_clauses h with hbuilds | ⟨hnone, -⟩
    · exact hbuilds
    · cases hnone.symm.trans hshape

/-- The query was built from a tree inside this one, and its items from a select list there. -/
def BuildsItems (config : Config) (source : Source) (tree : Tree) (query : SelectQuery) : Prop :=
  ∃ node : Tree, node.Inside tree ∧ node.hasRule .selectStatement ∧
    Build.Context.select { config, source } node = .ok query ∧
    ∃ list ∈ node.children, Build.Context.BuildsItems { config, source } list query.items

/-- **Items of select lists are named by what they stand for**, in every query of a batch, also
where it stands for a table: the items of a query are built from those of a select list in the tree
of the batch, and an item there without an alias gets the text that its tree spans, unless it is the
star alone or holds a placeholder without a label. This text is read alone, to its end and under the
same settings, as an expression, and it builds the expression that is stored. -/
theorem parseBatch_namesItems {queries : List Query} (h : config.parseBatch source = .ok queries) :
    ∃ tree, config.parseTree source = .ok tree ∧
      (∀ query ∈ queries, ∀ select ∈ query.selects, config.BuildsItems source tree select) ∧
      ∀ item e, item.Inside tree → item.hasRule .selectItem → item.isUnnamed →
        Build.Context.selectItem { config, source } item = .ok e →
          config.NamesItself source item e := by
  obtain ⟨tree, htree, hbatch⟩ := bind_eq_ok.mp h
  rw [mapError_eq_ok] at hbatch
  refine ⟨tree, htree, fun query hquery select hselect => ?_,
    fun item e hinside hrule hunnamed => ?_⟩
  · obtain ⟨node, hinside, hrule, hnode⟩ :=
      (Build.Context.stores_of_batch _ hbatch query hquery).selects select hselect
    have hread := hasRead_of_inside htree hinside hrule (by simp)
    exact ⟨node, hinside, hrule, hnode, buildsItems_of_select hread.formed hrule hnode⟩
  · exact namesItself_of_selectItem (hasRead_of_inside htree hinside hrule (by simp)) hrule hunnamed

/-- The item of `SELECT b+/**/1` is named by its text with the comment in it. -/
theorem parseBatch_namesItems_of_sum :
    let config := ofDialect .mysql
    let source := ['S', 'E', 'L', 'E', 'C', 'T', ' ', 'b', '+', '/', '*', '*', '/', '1']
    ∃ query tree item e, config.parseBatch source = .ok [.select query] ∧ query.items = [e] ∧
      config.parseTree source = .ok tree ∧ item.Inside tree ∧ item.hasRule .selectItem ∧
      item.isUnnamed ∧ Build.Context.selectItem { config, source } item = .ok e ∧
      e.aliasName = some "b+/**/1" ∧ config.NamesItself source item e := by
  intro config source
  have read : ∃ query tree select list item e,
      config.parseBatch source = .ok [.select query] ∧ query.items = [e] ∧
      config.parseTree source = .ok tree ∧ select ∈ tree.children ∧ list ∈ select.children ∧
      item ∈ list.children ∧ item.hasRule .selectItem ∧ item.isUnnamed ∧
      Build.Context.selectItem { config, source } item = .ok e ∧ e.aliasName = some "b+/**/1" :=
    ⟨_, _, _, _, _, _, rfl, rfl, rfl, .head _, .tail _ (.head _), .head _, rfl, rfl, rfl, rfl⟩
  obtain ⟨query, tree, select, list, item, e, parsed, items, readTree, hselect, hlist, hitem, rule,
    unnamed, built, aliasName⟩ := read
  have inside : item.Inside tree :=
    ((Tree.Inside.of_mem hitem).trans (.of_mem hlist)).trans (.of_mem hselect)
  obtain ⟨other, hother, -, names⟩ := parseBatch_namesItems parsed
  obtain rfl : other = tree := Except.ok.inj (hother.symm.trans readTree)
  exact ⟨query, other, item, e, parsed, items, readTree, inside, rule, unnamed, built, aliasName,
    names item e inside rule unnamed built⟩

end Config

end SqlFront
