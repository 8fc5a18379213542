import SqlFront.Proofs.StatementCores
import SqlFront.Proofs.StatementLabels
import SqlFront.Proofs.StatementShape

/-!
Rows of values as they are written: an `INSERT` in a parse tree, taken apart token by token.

Lists stand in parentheses, with commas between their items. The rows of an `INSERT` and the columns
in front of them are such lists, whatever the dialect and however deep in `BYPASS` the statement
is.
-/

namespace SqlFront

namespace Tree

/-- Items, and the same items with commas between them. -/
inductive Separated : List Tree → List Tree → Prop where
  | last (item : Tree) : Separated [item] [item]
  | more (item : Tree) {comma : Lexeme} {items parts : List Tree} :
      comma.token = .symbol .comma → Separated items parts →
      Separated (item :: items) (item :: .leaf comma :: parts)

/-- A node of this production lists these items, in parentheses and with commas between them. -/
inductive Lists (rule : Rule) (items : List Tree) : Tree → Prop where
  | enclosed {span : Span} {opening closing : Lexeme} {parts : List Tree} :
      opening.token = .symbol .leftParen → Separated items parts →
      closing.token = .symbol .rightParen →
      Lists rule items (.node rule span (.leaf opening :: (parts ++ [.leaf closing])))

end Tree

open SqlFront.Tree

/-- What an `INSERT` consists of, as it is written. -/
structure WrittenInsert where
  table : Tree
  columns : Option (List Tree)
  rows : List (List Tree)

namespace WrittenInsert

/-- The width that every row should have: the number of columns, or else the width of the first
row. -/
def width (written : WrittenInsert) : Nat :=
  match written.columns with
  | some columns => columns.length
  | none => (written.rows.head?.map List.length).getD 0

/-- Columns in parentheses, where a statement names any. -/
inductive ListsColumns : Option (List Tree) → List Tree → Prop where
  | unnamed : ListsColumns none []
  | named {columns : List Tree} {list : Tree} : list.Lists .columnList columns →
      (∀ column ∈ columns, column.hasRule .columnName) → ListsColumns (some columns) [list]

/-- A row of values in parentheses. -/
def ListsRow (values : List Tree) (row : Tree) : Prop :=
  row.Lists .valueRow values ∧ ∀ value ∈ values, value.isExpression

/-- The statement is `INSERT INTO table (column, …) VALUES (value, …), …`. The `INTO` may be
missing, and so may the columns with their parentheses. -/
inductive Inserts (written : WrittenInsert) : Tree → Prop where
  | values {span clauseSpan : Span} {verb mark : Lexeme} {into list rows parts : List Tree} :
      verb.token = .keyword .INSERT →
      (into = [] ∨ ∃ word : Lexeme, into = [.leaf word] ∧ word.token = .keyword .INTO) →
      written.table.hasRule .tableName → ListsColumns written.columns list →
      mark.token = .keyword .VALUES → Separated rows parts →
      List.Forall₂ ListsRow written.rows rows →
      Inserts written (.node .insertStatement span (.leaf verb :: (into ++ written.table ::
        (list ++ [.node .valuesClause clauseSpan (.leaf mark :: parts)]))))

end WrittenInsert

/-! ### Lists and their items -/

/-- Items that each belong to something belong to something one by one. -/
theorem exists_forall₂ {α β : Type} {R : α → β → Prop} {items : List β}
    (h : ∀ item ∈ items, ∃ other, R other item) : ∃ others, List.Forall₂ R others items := by
  induction items with
  | nil => exact ⟨[], .nil⟩
  | cons item items ih =>
    obtain ⟨⟨other, hother⟩, hitems⟩ := List.forall_mem_cons.mp h
    obtain ⟨others, hothers⟩ := ih hitems
    exact ⟨other :: others, .cons hother hothers⟩

namespace Tree

variable {items parts : List Tree} {rule : Rule} {test : Tree → Bool} {tree : Tree}

theorem Separated.ne_nil (h : Separated items parts) : items ≠ [] := by
  cases h <;> simp

/-- The items of a list are found by a test that they pass, and tokens do not. -/
theorem Separated.filter (h : Separated items parts) (hitems : ∀ item ∈ items, test item)
    (hleaf : ∀ lexeme, test (.leaf lexeme) = false) : parts.filter test = items := by
  induction h with
  | last item => simpa using hitems
  | more item hcomma _ ih =>
    obtain ⟨hitem, hothers⟩ := List.forall_mem_cons.mp hitems
    rw [List.filter_cons_of_pos hitem, List.filter_cons_of_neg (by simp [hleaf]), ih hothers]

theorem Separated.mem (h : Separated items parts) (hmem : tree ∈ parts) :
    tree ∈ items ∨ tree.isLeaf := by
  induction h with
  | last item => exact .inl hmem
  | more item _ _ ih =>
    rcases List.mem_cons.mp hmem with rfl | hmem
    · simp
    rcases List.mem_cons.mp hmem with rfl | hmem
    · exact .inr rfl
    · exact (ih hmem).imp_left (List.mem_cons_of_mem item)

theorem Lists.hasRule (h : tree.Lists rule items) : tree.hasRule rule := by
  cases h
  exact hasRule_iff.mpr rfl

theorem Lists.ne_nil (h : tree.Lists rule items) : items ≠ [] := by
  cases h with
  | enclosed _ hparts _ => exact hparts.ne_nil

theorem Lists.filter (h : tree.Lists rule items) (hitems : ∀ item ∈ items, test item)
    (hleaf : ∀ lexeme, test (.leaf lexeme) = false) : tree.children.filter test = items := by
  cases h with
  | enclosed _ hparts _ =>
    rw [children, List.filter_cons_of_neg (by simp [hleaf]), List.filter_append,
      hparts.filter hitems hleaf, List.filter_cons_of_neg (by simp [hleaf]), List.filter_nil,
      List.append_nil]

theorem Lists.mem (h : tree.Lists rule items) {child : Tree} (hmem : child ∈ tree.children) :
    child ∈ items ∨ child.isLeaf := by
  cases h with
  | enclosed _ hparts _ =>
    rcases List.mem_cons.mp hmem with rfl | hmem
    · exact .inr rfl
    rcases List.mem_append.mp hmem with hmem | hmem
    · exact hparts.mem hmem
    · obtain rfl := List.mem_singleton.mp hmem
      exact .inr rfl

end Tree

namespace Grammar

open Form WrittenInsert

variable {enter : Construct → Reader} {form item : Form} {P : Tree → Prop} {trees : List Tree}

/-- The form yields one tree, which has a property. -/
def Form.One (enter : Construct → Reader) (P : Tree → Prop) (form : Form) : Prop :=
  ∀ trees, form.Yields enter trees → ∃ tree, trees = [tree] ∧ P tree

theorem Form.Makes.one {test : Tree → Bool} (h : form.Makes enter test) :
    form.One enter fun tree => test tree := by
  intro trees hyields
  obtain ⟨tree, rfl, htest, -⟩ := h trees hyields
  exact ⟨tree, rfl, htest⟩

theorem eq_symbol_of_yields {mark : Symbol} (h : (Form.symbol mark).Yields enter trees) :
    ∃ lexeme : Lexeme, trees = [.leaf lexeme] ∧ lexeme.token = .symbol mark := by
  obtain ⟨lexeme, rfl, haccepts⟩ := h.token
  exact ⟨lexeme, rfl, beq_iff_eq.mp haccepts⟩

theorem eq_keyword_of_yields {k : Keyword} (h : (Form.keyword k).Yields enter trees) :
    ∃ lexeme : Lexeme, trees = [.leaf lexeme] ∧ lexeme.token = .keyword k := by
  obtain ⟨lexeme, rfl, haccepts⟩ := h.token
  exact ⟨lexeme, rfl, beq_iff_eq.mp haccepts⟩

theorem separated_of_commaList (hitem : item.One enter P)
    (h : (Form.commaList item).Yields enter trees) :
    ∃ items, Separated items trees ∧ ∀ item ∈ items, P item := by
  obtain ⟨_, _, hleft, hright, rfl⟩ := h.seq
  obtain ⟨first, rfl, hfirst⟩ := hitem _ hleft
  obtain ⟨rounds, hrounds, rfl⟩ := hright.whileAt
  clear h hleft hright
  -- A round is a comma and an item, and the item comes first in what is left.
  induction rounds generalizing first with
  | nil => exact ⟨[first], .last first, by simpa using hfirst⟩
  | cons round rounds ih =>
    obtain ⟨hround, hothers⟩ := List.forall_mem_cons.mp hrounds
    obtain ⟨_, _, hleft, hright, rfl⟩ := hround.seq
    obtain ⟨comma, rfl, hcomma⟩ := eq_symbol_of_yields hleft
    obtain ⟨next, rfl, hnext⟩ := hitem _ hright
    obtain ⟨items, hitems, hall⟩ := ih next hnext hothers
    exact ⟨first :: items, .more first hcomma hitems, List.forall_mem_cons.mpr ⟨hfirst, hall⟩⟩

theorem lists_of_parenthesized {rule : Rule} (hitem : item.One enter P) :
    (Form.node rule (.parenthesized item)).One enter fun tree =>
      ∃ items, tree.Lists rule items ∧ ∀ item ∈ items, P item := by
  intro trees h
  obtain ⟨parts, hparts, rfl⟩ := h.node
  obtain ⟨_, _, hleft, hrest, rfl⟩ := hparts.seq
  obtain ⟨inner, _, hinner, hright, rfl⟩ := hrest.seq
  obtain ⟨opening, rfl, hopening⟩ := eq_symbol_of_yields hleft
  obtain ⟨closing, rfl, hclosing⟩ := eq_symbol_of_yields hright
  obtain ⟨items, hitems, hall⟩ := separated_of_commaList hitem hinner
  exact ⟨_, rfl, items, .enclosed hopening hitems hclosing, hall⟩

/-! ### Statements at every depth -/

/-- Where the tree stands for an `INSERT` without a query in it, it has rows as they are written. -/
def HasRows (tree : Tree) : Prop :=
  tree.core.hasRule .insertStatement → Tree.find? .selectStatement tree.core.children = none →
    ∃ written : WrittenInsert, written.Inserts tree.core

/-- The lists of an `INSERT`, and the statements under `BYPASS`, are what they should be. -/
structure ListsInside (enter : Construct → Reader) : Prop where
  rows : (Form.deeper .valueRow).One enter fun row => ∃ values, ListsRow values row
  columns : (Form.deeper .columns).One enter fun list =>
    ∃ columns, list.Lists .columnList columns ∧ ∀ column ∈ columns, column.hasRule .columnName
  bypassed : (Form.deeper .bypassed).Each enter HasRows

/-- What holds of every `INSERT`, of every `BYPASS` and of the nodes of other productions holds of
all statements. -/
theorem statement_each (dialect : Dialect) (hinsert : (insert dialect).Each enter P)
    (hbypass : bypass.Each enter P)
    (hother : ∀ rule form, rule ≠ .insertStatement → rule ≠ .bypassStatement →
      (Form.node rule form).Each enter P) :
    (statement dialect).Each enter P := by
  have other {rule : Rule} {form : Form} (hrows : rule ≠ .insertStatement := by decide)
      (hinner : rule ≠ .bypassStatement := by decide) : (Form.node rule form).Each enter P :=
    hother rule form hrows hinner
  have refused {form : Form} {cause : Token → SyntaxCause} :
      (Form.seq form (.refuse cause)).Each enter P := by
    intro trees hyields
    obtain ⟨_, _, -, hrefused, -⟩ := hyields.seq
    exact hrefused.refuse.elim
  exact .ifAt (.ifAt other (.ifAt other refused)) <|
    .ifAt other <| .ifAt other <| .ifAt other <| .ifAt other <| .ifAt other <|
    .ifAt (.ifAt other (.ifAt other refused)) <|
    .ifAt (.ifAt other (.ifAt other refused)) <|
    .ifAt hbypass <|
    .ifAt (.ifAt other (.ifAt other (.ifAt other refused))) <|
    .ifAt other <| .ifAt hinsert <| .ifAt other <| .ifAt other <| .ifAt other <|
    .ifAt (.ifAt other (.ifAt other refused)) <|
    .ifAt other <| .ifAt other <| .ifAt other .refuse

section

variable (h : ListsInside enter)
include h

theorem insert_hasRows (dialect : Dialect) (hregular : Regular enter) :
    (insert dialect).Each enter HasRows := by
  intro trees hyields tree hmem
  obtain ⟨parts, hparts, rfl⟩ := hyields.node
  obtain rfl := List.mem_singleton.mp hmem
  obtain ⟨_, _, hfirst, hrest, rfl⟩ := hparts.seq
  obtain ⟨into, _, hinto, hmore, rfl⟩ := hrest.seq
  obtain ⟨_, _, hname, hlist, rfl⟩ := hmore.seq
  obtain ⟨list, last, hoptional, hlast, rfl⟩ := hlist.seq
  obtain ⟨verb, rfl, hverb⟩ := eq_keyword_of_yields hfirst
  obtain ⟨table, rfl, htable, -⟩ := tableName_makes _ hname
  intro _ hselect
  rcases hlast.ifAt with hquery | hvalues
  · obtain ⟨query, rfl, hrule, -⟩ := select_makes dialect hregular _ hquery
    exact absurd hrule (List.find?_eq_none.mp hselect query (by
      simp [ofParts, Tree.core, children]))
  · obtain ⟨_, hclause, rfl⟩ := hvalues.node
    obtain ⟨_, parts, hword, hcells, rfl⟩ := hclause.seq
    obtain ⟨mark, rfl, hmark⟩ := eq_keyword_of_yields hword
    obtain ⟨rowTrees, hparts, hlists⟩ := separated_of_commaList h.rows hcells
    obtain ⟨rows, hrows⟩ := exists_forall₂ hlists
    obtain ⟨columns, hcolumns⟩ : ∃ columns, ListsColumns columns list := by
      rcases hoptional.optional with hyields | rfl
      · obtain ⟨list, rfl, columns, hlists, hall⟩ := h.columns _ hyields
        exact ⟨some columns, .named hlists hall⟩
      · exact ⟨none, .unnamed⟩
    have hinto : into = [] ∨ ∃ word : Lexeme, into = [.leaf word] ∧ word.token = .keyword .INTO :=
      hinto.optional.symm.imp_right eq_keyword_of_yields
    exact ⟨⟨table, columns, rows⟩,
      .values hverb hinto htable hcolumns hmark hparts hrows⟩

theorem bypass_hasRows (hregular : Regular enter) : bypass.Each enter HasRows := by
  refine .ofParts fun parts hparts => ?_
  obtain ⟨_, _, hword, hinner, rfl⟩ := hparts.seq
  obtain ⟨word, rfl, -⟩ := hword.token
  obtain ⟨statement, rfl, hstatement⟩ := hregular.fits .bypassed _ hinner
  have hcore : (ofParts .bypassStatement ([.leaf word] ++ [statement])).core = statement.core := by
    have hleaf : (leaf word).isLeaf := rfl
    simp [ofParts, Tree.core, Tree.innerCore, hleaf, isLeaf_of_isStatement hstatement]
  rw [HasRows, hcore]
  exact h.bypassed _ hinner statement (by simp)

theorem statement_hasRows (dialect : Dialect) (hregular : Regular enter) :
    (statement dialect).Each enter HasRows := by
  refine statement_each dialect (insert_hasRows h dialect hregular) (bypass_hasRows h hregular)
    fun rule form hrows hinner => .ofParts fun parts _ => ?_
  intro hrule
  have hcore : (ofParts rule parts).core = ofParts rule parts := by
    rw [ofParts, Tree.core]
    rintro span children heq
    cases heq
    exact hinner rfl
  rw [hcore] at hrule
  exact absurd (Option.some.inj (hasRule_iff.mp hrule)) hrows

end

/-- **At every depth, rows are lists of expressions**, and lists of columns are lists of columns.
The induction is on the levels that are left. -/
theorem listsInside_enter (dialect : Dialect) (limit left : Nat) :
    ListsInside (Grammar.enter (bodies dialect) limit left) := by
  induction left with
  | zero =>
    constructor
    all_goals
      rintro trees ⟨input, rest, hread⟩
      cases hread
  | succ left ih =>
    have hregular := regular_enter dialect limit left
    constructor
    · exact lists_of_parenthesized (expression_makes hregular).one
    · exact lists_of_parenthesized columnName_makes.one
    · exact statement_hasRows ih dialect hregular

end Grammar

end SqlFront
