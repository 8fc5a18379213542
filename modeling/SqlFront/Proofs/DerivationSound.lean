import SqlFront.Proofs.Derivation

/-!
Every expression that is read is a derivation: the parts of its nodes stand at the levels that the
productions ask for, and it opens no more levels of nesting than there were left.

The argument follows the forms. What a construct may yield with so many levels left is a
hypothesis here, `Nests`, which is discharged by induction on the levels in the next module.
-/

namespace SqlFront

open Grammar

namespace Tree

/-- A derivation that opens at most so many levels. -/
structure DerivedWithin (levels : Nat) (tree : Tree) : Prop where
  derived : tree.IsDerivation
  nests : tree.nesting ≤ levels

theorem DerivedWithin.mono {few many : Nat} {tree : Tree} (h : tree.DerivedWithin few)
    (hle : few ≤ many) : tree.DerivedWithin many :=
  ⟨h.derived, Nat.le_trans h.nests hle⟩

theorem derivedWithin_leaf {levels : Nat} (lexeme : Lexeme) :
    (leaf lexeme).DerivedWithin levels :=
  ⟨.leaf, Nat.zero_le levels⟩

end Tree

open SqlFront.Tree

/-- The productions whose nodes open no level of their own. -/
def Rule.opensNone : Rule → Bool
  | additiveExpr | multiplicativeExpr | notExpr | unaryExpr | parenExpr | expressionList | subquery
  | functionCall => false
  | _ => true

/-- The productions of which derivations ask nothing. -/
def Rule.isPlain (rule : Rule) : Bool :=
  !(rule.isExpression || rule == .expressionList || rule == .selectItem)

theorem Rule.allows_of_isPlain {rule : Rule} (h : rule.isPlain) (parts : List Tree) :
    rule.Allows parts := by
  cases rule <;> trivial

theorem Rule.opensNone_of_isPlain {rule : Rule} (h : rule.isPlain) : rule.opensNone := by
  cases rule <;> first | rfl | cases h

namespace Tree

theorem nesting_ofParts {rule : Rule} (h : rule.opensNone) (parts : List Tree) :
    (ofParts rule parts).nesting = nestingOf parts := by
  cases rule <;> first | rfl | cases h

/-- A node of derivations is one when its production allows them. -/
theorem derivedWithin_ofParts {rule : Rule} {levels : Nat} {parts : List Tree}
    (hrule : rule.opensNone) (hallows : rule.Allows parts)
    (hparts : ∀ part ∈ parts, part.DerivedWithin levels) :
    (ofParts rule parts).DerivedWithin levels := by
  constructor
  · exact .node rfl hallows fun part hmem => (hparts part hmem).derived
  · rw [nesting_ofParts hrule]
    exact nestingOf_le.mpr fun part hmem => (hparts part hmem).nests

/-- A node that opens one level needs one more than its parts. -/
theorem derivedWithin_succ {rule : Rule} {levels : Nat} {parts : List Tree}
    (hopens : (ofParts rule parts).nesting = nestingOf parts + 1) (hallows : rule.Allows parts)
    (hparts : ∀ part ∈ parts, part.DerivedWithin levels) :
    (ofParts rule parts).DerivedWithin (levels + 1) := by
  constructor
  · exact .node rfl hallows fun part hmem => (hparts part hmem).derived
  · rw [hopens]
    exact Nat.succ_le_succ (nestingOf_le.mpr fun part hmem => (hparts part hmem).nests)

/-! ### Levels -/

theorem bindsAt_of_hasRule {rule : Rule} {level : Level}
    (h : ∀ span children, (node rule span children).bindsAt level) (tree : Tree)
    (htree : tree.hasRule rule) : tree.bindsAt level := by
  cases tree with
  | leaf lexeme => cases htree
  | node other span children =>
    obtain rfl : other = rule := by simpa [hasRule, rule?] using htree
    exact h span children

theorem bindsAt_iff {tree : Tree} {level : Level} :
    tree.bindsAt level ↔ ∃ own, tree.level? = some own ∧ level.rank ≤ own.rank := by
  cases hown : tree.level? <;> simp [bindsAt, hown]

theorem bindsAt_mono {tight loose : Level} (hle : loose.rank ≤ tight.rank) {tree : Tree}
    (h : tree.bindsAt tight) : tree.bindsAt loose := by
  obtain ⟨own, hown, hrank⟩ := bindsAt_iff.mp h
  exact bindsAt_iff.mpr ⟨own, hown, Nat.le_trans hle hrank⟩

theorem isLeaf_of_bindsAt {tree : Tree} {level : Level} (h : tree.bindsAt level) :
    tree.isLeaf = false := by
  cases tree with
  | leaf lexeme => cases h
  | node rule span children => rfl

@[simp]
theorem nestingOfChain_leaf (lexeme : Lexeme) (trees : List Tree) :
    nestingOfChain (leaf lexeme :: trees) = nestingOfChain trees + 1 := by
  simp [nestingOfChain, isLeaf]

theorem nestingOfChain_cons {tree : Tree} {level : Level} (h : tree.bindsAt level)
    (trees : List Tree) :
    nestingOfChain (tree :: trees) = max tree.nesting (nestingOfChain trees) := by
  simp [nestingOfChain, isLeaf_of_bindsAt h]

/-- The end of a chain with so many levels for its operators. -/
structure ChainTail (isOperator : Token → Bool) (level : Level) (levels : Nat)
    (trees : List Tree) : Prop where
  links : Links (isTokenOf isOperator) (bindsAt level) trees
  ne_nil : trees ≠ []
  nests : nestingOfChain trees ≤ levels

end Tree

namespace Grammar

open Form

variable {enter : Construct → Reader} {form first second item : Form} {levels : Nat}
  {level loose tight : Level} {rule : Rule} {test : Tree → Bool}

namespace Form

/-- All trees that the form yields are derivations within these levels. -/
def Derives (enter : Construct → Reader) (levels : Nat) (form : Form) : Prop :=
  form.Each enter (DerivedWithin levels)

/-- The form yields one tree, which passes a test. -/
def Single (enter : Construct → Reader) (test : Tree → Bool) (form : Form) : Prop :=
  ∀ trees, form.Yields enter trees → ∃ tree, trees = [tree] ∧ test tree

/-- The form yields one expression of a level, derived within these levels of nesting. -/
def MakesAt (enter : Construct → Reader) (levels : Nat) (level : Level) (form : Form) : Prop :=
  ∀ trees, form.Yields enter trees →
    ∃ tree, trees = [tree] ∧ tree.bindsAt level ∧ tree.DerivedWithin levels

theorem MakesAt.derives (h : form.MakesAt enter levels level) : form.Derives enter levels := by
  intro trees hyields tree hmem
  obtain ⟨only, rfl, -, hderived⟩ := h trees hyields
  obtain rfl := List.mem_singleton.mp hmem
  exact hderived

theorem MakesAt.single (h : form.MakesAt enter levels level) :
    form.Single enter (bindsAt level) := by
  intro trees hyields
  obtain ⟨tree, rfl, hlevel, -⟩ := h trees hyields
  exact ⟨tree, rfl, hlevel⟩

theorem MakesAt.mono (h : form.MakesAt enter levels tight) (hle : loose.rank ≤ tight.rank) :
    form.MakesAt enter levels loose := by
  intro trees hyields
  obtain ⟨tree, rfl, hlevel, hderived⟩ := h trees hyields
  exact ⟨tree, rfl, bindsAt_mono hle hlevel, hderived⟩

theorem MakesAt.ifAt {look : Lookahead} {yes no : Form} (hyes : yes.MakesAt enter levels level)
    (hno : no.MakesAt enter levels level) : (Form.ifAt look yes no).MakesAt enter levels level := by
  intro trees hyields
  rcases hyields.ifAt with hyields | hyields
  · exact hyes trees hyields
  · exact hno trees hyields

theorem Single.token {accepts : Token → Bool} {wanted : String} :
    (Form.token accepts wanted).Single enter (isTokenOf accepts) := by
  intro trees hyields
  obtain ⟨lexeme, rfl, haccepts⟩ := hyields.token
  exact ⟨_, rfl, haccepts⟩

namespace Derives

theorem token {accepts : Token → Bool} {wanted : String} :
    (Form.token accepts wanted).Derives enter levels :=
  Each.token fun lexeme _ => derivedWithin_leaf lexeme

theorem commaList (h : item.Derives enter levels) : (Form.commaList item).Derives enter levels :=
  Each.seq h (.whileAt (.seq token h))

theorem parenthesized (h : item.Derives enter levels) :
    (Form.parenthesized item).Derives enter levels :=
  Each.seq token (.seq (commaList h) token)

/-- A node of a production that asks nothing. -/
theorem plain (hrule : rule.isPlain) (h : form.Derives enter levels) :
    (Form.node rule form).Derives enter levels := by
  refine Each.node h fun parts _ hparts => ?_
  exact derivedWithin_ofParts (Rule.opensNone_of_isPlain hrule)
    (Rule.allows_of_isPlain hrule parts) hparts

/-- A node that opens no level and is allowed its parts. -/
theorem node (hrule : rule.opensNone) (h : form.Derives enter levels)
    (hallows : ∀ parts, form.Yields enter parts → rule.Allows parts) :
    (Form.node rule form).Derives enter levels :=
  Each.node h fun parts hyields hparts => derivedWithin_ofParts hrule (hallows parts hyields) hparts

/-- A node that opens one level and is allowed its parts. -/
theorem nodeSucc (hopens : ∀ parts, (ofParts rule parts).nesting = nestingOf parts + 1)
    (h : form.Derives enter levels)
    (hallows : ∀ parts, form.Yields enter parts → rule.Allows parts) :
    (Form.node rule form).Derives enter (levels + 1) := by
  intro trees hyields tree hmem
  obtain ⟨_, _, left, right, hleft, hright, rfl⟩ := hyields.always
  obtain rfl := hleft.empty
  obtain rfl := List.mem_singleton.mp hmem
  exact derivedWithin_succ (hopens right) (hallows right hright) (h right hright)

end Derives

/-! ### Lists -/

/-- A repetition of marks, each with an item after it. -/
theorem links_of_whileAt {look : Lookahead} {accepts : Token → Bool} {wanted : String}
    {trees : List Tree} (hitem : item.Single enter test)
    (hyields : (Form.whileAt look (.seq (.token accepts wanted) item)).Yields enter trees) :
    Links (isTokenOf accepts) test trees := by
  obtain ⟨rounds, hrounds, rfl⟩ := hyields.whileAt
  clear hyields
  induction rounds with
  | nil => exact .nil
  | cons round rounds ih =>
    obtain ⟨_, _, hmark, hpart, rfl⟩ := (hrounds round (by simp)).seq
    obtain ⟨mark, rfl, haccepts⟩ := hmark.token
    obtain ⟨part, rfl, htest⟩ := hitem _ hpart
    exact .cons haccepts htest (ih fun round hmem => hrounds round (by simp [hmem]))

/-- An item, and a repetition of marks with an item after each. -/
theorem listed_of_seq {look : Lookahead} {accepts : Token → Bool} {wanted : String}
    {trees : List Tree} (hitem : item.Single enter test)
    (hyields : (Form.seq item (.whileAt look (.seq (.token accepts wanted) item))).Yields enter
      trees) : Listed (isTokenOf accepts) test trees := by
  obtain ⟨_, more, hfirst, hmore, rfl⟩ := hyields.seq
  obtain ⟨first, rfl, htest⟩ := hitem _ hfirst
  exact ⟨first, more, rfl, htest, links_of_whileAt hitem hmore⟩

theorem enclosed_of_parenthesized {trees : List Tree} (hitem : item.Single enter test)
    (hyields : (Form.parenthesized item).Yields enter trees) :
    Enclosed (Listed (isSymbolLeaf .comma) test) trees := by
  obtain ⟨_, _, hleft, hrest, rfl⟩ := hyields.seq
  obtain ⟨left, rfl, hopen⟩ := hleft.token
  obtain ⟨inner, _, hinner, hright, rfl⟩ := hrest.seq
  obtain ⟨right, rfl, hclose⟩ := hright.token
  exact ⟨.leaf left, inner, .leaf right, rfl, hopen, hclose, listed_of_seq hitem hinner⟩

/-! ### Chains -/

/-- A repetition that starts where it can go on yields something. -/
theorem ne_nil_of_read_whileAt {accepts : Token → Bool} {wanted : String}
    {input rest : List Lexeme} {trees : List Tree} (hend : accepts .eof = false)
    (hstart : accepts (current input))
    (h : (Form.whileAt [accepts] (.seq (.token accepts wanted) item)).read enter input =
      .ok (trees, rest)) : trees ≠ [] := by
  cases input with
  | nil =>
    rw [current, hend] at hstart
    cases hstart
  | cons lexeme input =>
    rcases readWhile_succ_eq_ok h with ⟨-, _, _, more, hround, -, rfl⟩ | ⟨hstops, -, -⟩
    · obtain ⟨_, _, right, hmark, -, rfl⟩ := read_seq_eq_ok hround
      obtain ⟨mark, -, rfl, -⟩ := readToken_eq_ok hmark
      simp
    · rw [holds_single, hstart] at hstops
      cases hstops

/-- A flat chain is its only operand, or a node over all its operands. -/
theorem flatChain_makesAt {isOperator : Token → Bool} (hend : isOperator .eof = false)
    (hopens : rule.opensNone)
    (hallows : ∀ parts, Chain isOperator tight parts → rule.Allows parts)
    (hlevel : ∀ span children, (Tree.node rule span children).bindsAt loose)
    (hle : loose.rank ≤ tight.rank) (hitem : item.MakesAt enter levels tight) :
    (flatChain rule isOperator item).MakesAt enter levels loose := by
  rintro trees ⟨input, rest, hread⟩
  rcases read_extend_eq_ok hread with hread | ⟨_, mid, right, production, hleft, hproduction,
    hright, rfl⟩
  · exact hitem.mono hle trees ⟨input, rest, hread⟩
  · obtain ⟨hoperator, rfl⟩ : isOperator (current mid) = true ∧ rule = production := by
      simpa [whenAt] using hproduction
    have hyields : item.Yields enter _ := ⟨input, mid, hleft⟩
    have hparts := Each.parts hitem.derives (.whileAt (.seq Derives.token hitem.derives)) hyields
      ⟨mid, rest, hright⟩
    obtain ⟨first, rfl, hfirst, -⟩ := hitem _ hyields
    have hlinks := links_of_whileAt hitem.single ⟨mid, rest, hright⟩
    refine ⟨_, rfl, hlevel _ _, derivedWithin_ofParts hopens (hallows _ ⟨?_, ?_⟩) hparts⟩
    · exact ⟨first, right, rfl, hfirst, hlinks⟩
    · have hne := ne_nil_of_read_whileAt hend hoperator hright
      simpa using List.length_pos_iff.mpr hne

/-- A chain that nests is its only operand, or a node over an operand and the end of a chain. -/
theorem deepChain_makesAt {isOperator : Token → Bool} {tail : Construct}
    (hnests : ∀ parts, (ofParts rule parts).nesting = nestingOfChain parts)
    (hallows : ∀ parts, Chain isOperator tight parts → rule.Allows parts)
    (hlevel : ∀ span children, (Tree.node rule span children).bindsAt loose)
    (hle : loose.rank ≤ tight.rank) (hitem : item.MakesAt enter levels tight)
    (hderives : (Form.deeper tail).Derives enter levels)
    (htail : ∀ trees, (Form.deeper tail).Yields enter trees →
      ChainTail isOperator tight levels trees) :
    (deepChain rule isOperator item tail).MakesAt enter levels loose := by
  intro trees hyields
  rcases hyields.extend with hyields | ⟨token, next, production, left, right, hproduction, hleft,
    hright, rfl⟩
  · exact hitem.mono hle trees hyields
  · obtain rfl := eq_of_whenAt hproduction
    have hparts := Each.parts hitem.derives hderives hleft hright
    obtain ⟨first, rfl, hfirst, hderived⟩ := hitem _ hleft
    have hchain := htail _ hright
    refine ⟨_, rfl, hlevel _ _, .node rfl (hallows _ ⟨?_, ?_⟩) fun part hmem =>
      (hparts part hmem).derived, ?_⟩
    · exact ⟨first, right, rfl, hfirst, hchain.links⟩
    · simpa using List.length_pos_iff.mpr hchain.ne_nil
    · rw [hnests, List.singleton_append, nestingOfChain_cons hfirst]
      exact Nat.max_le.mpr ⟨hderived.nests, hchain.nests⟩

/-- An operator, its operand and the end of a chain open one level more. -/
theorem deepChainTail_chainTail {isOperator : Token → Bool} {tail : Construct} {trees : List Tree}
    (hitem : item.MakesAt enter levels level)
    (htail : ∀ trees, (Form.deeper tail).Yields enter trees →
      ChainTail isOperator level levels trees)
    (hyields : (deepChainTail isOperator item tail).Yields enter trees) :
    ChainTail isOperator level (levels + 1) trees := by
  obtain ⟨_, _, hoperator, hrest, rfl⟩ := hyields.seq
  obtain ⟨operator, rfl, haccepts⟩ := hoperator.token
  obtain ⟨_, more, hoperand, hmore, rfl⟩ := hrest.seq
  obtain ⟨operand, rfl, hlevel, hderived⟩ := hitem _ hoperand
  obtain ⟨hlinks, hnests⟩ : Links (isTokenOf isOperator) (bindsAt level) more ∧
      nestingOfChain more ≤ levels := by
    rcases hmore.optional with hmore | rfl
    · exact ⟨(htail more hmore).links, (htail more hmore).nests⟩
    · exact ⟨.nil, Nat.zero_le levels⟩
  refine ⟨.cons haccepts hlevel hlinks, by simp, ?_⟩
  rw [List.singleton_append, List.singleton_append, nestingOfChain_leaf, nestingOfChain_cons hlevel]
  exact Nat.succ_le_succ (Nat.max_le.mpr ⟨hderived.nests, hnests⟩)

end Form

/-- With so many levels left, the constructs inside yield derivations that open no more. -/
structure Nests (enter : Construct → Reader) (levels : Nat) : Prop extends Regular enter where
  derives : ∀ construct, (Form.deeper construct).Derives enter levels
  sums : ∀ trees, (Form.deeper .sumTail).Yields enter trees → ChainTail isSign .product levels trees
  products : ∀ trees, (Form.deeper .productTail).Yields enter trees →
    ChainTail isProductSign .sign levels trees
  arguments : ∀ trees, (Form.deeper .arguments).Yields enter trees →
    Enclosed Arguments trees ∧ nestingOf trees < levels

/-- A construct that stands for one kind of expression makes one of its level. -/
theorem Nests.makesAt (h : Nests enter levels) {construct : Construct}
    (hrule : construct.rule? = some rule)
    (hlevel : ∀ span children, (Tree.node rule span children).bindsAt level) :
    (Form.deeper construct).MakesAt enter levels level := by
  intro trees hyields
  obtain ⟨tree, rfl, htree⟩ := (Construct.fits_iff hrule).mp (h.fits construct trees hyields)
  exact ⟨tree, rfl, bindsAt_of_hasRule hlevel tree htree,
    h.derives construct _ hyields tree (by simp)⟩

/-! ### Operands -/

theorem columnName_derives : columnName.Derives enter levels := by
  refine .node rfl (Each.seq Derives.token (.whileAt (.seq Derives.token Derives.token))) ?_
  intro parts hyields
  exact listed_of_seq Single.token hyields

/-- What a name starts that is not the call of a function: a column, or all columns of a table. -/
theorem columnOrAll_makesAt {input rest : List Lexeme} {trees : List Tree}
    (hname : isWordOf bareFunctions (current input) = false)
    (h : columnOrAll.read enter input = .ok (trees, rest)) :
    ∃ tree, trees = [tree] ∧ tree.bindsAt .primary ∧ tree.DerivedWithin levels := by
  obtain ⟨names, mid, last, hnames, hlast, rfl⟩ := read_always_eq_ok h
  obtain ⟨_, start, more, hfirst, hmore, rfl⟩ := read_seq_eq_ok hnames
  obtain ⟨first, haccepts, rfl, rfl⟩ := readToken_eq_ok hfirst
  have hdotted : Dotted ([.leaf first] ++ more) :=
    ⟨.leaf first, more, rfl, haccepts, links_of_whileAt Single.token ⟨start, mid, hmore⟩⟩
  have hderives : ∀ tree ∈ ([.leaf first] ++ more) ++ last, tree.DerivedWithin levels := by
    refine Each.parts (Each.seq Derives.token (.whileAt (.seq Derives.token Derives.token)))
      (.optional (.seq Derives.token Derives.token)) ⟨_, mid, hnames⟩ ⟨mid, rest, hlast⟩
  have hstarts : startsColumn first.token := by
    have hplain : isWordOf bareFunctions first.token = false := hname
    simp [startsColumn, haccepts, hplain]
  have hlevel {rule : Rule} (hrule : rule = .columnName ∨ rule = .allColumns) :
      (ofParts rule (([.leaf first] ++ more) ++ last)).bindsAt .primary := by
    rcases hrule with rfl | rfl <;> simp [bindsAt, ofParts, level?, isTokenOf, token?, hstarts]
  rcases read_ifAt_eq_ok hlast with ⟨hdot, hlast⟩ | ⟨hdot, hlast⟩
  · rw [holds_single] at hdot
    rw [if_pos hdot]
    refine ⟨_, rfl, hlevel (.inr rfl), derivedWithin_ofParts rfl (.inr ?_) hderives⟩
    obtain ⟨_, _, hmark, hstar, rfl⟩ := Yields.seq ⟨mid, rest, hlast⟩
    obtain ⟨mark, rfl, hdot⟩ := hmark.token
    obtain ⟨star, rfl, haccepts⟩ := hstar.token
    exact ⟨_, _, rfl, hdotted, .cons hdot (.cons haccepts .nil)⟩
  · rw [holds_single] at hdot
    rw [if_neg (by simp [hdot])]
    refine ⟨_, rfl, hlevel (.inl rfl), derivedWithin_ofParts rfl ?_ hderives⟩
    obtain rfl : last = [] := by
      cases hlast
      rfl
    rw [List.append_nil]
    exact hdotted

/-- A node over one token. -/
theorem tokenNode_makesAt {accepts : Token → Bool} {wanted : String} (hopens : rule.opensNone)
    (hlevel : ∀ span children, (Tree.node rule span children).bindsAt level)
    (hallows : ∀ parts, Row [isTokenOf accepts] parts → rule.Allows parts) :
    (Form.node rule (.token accepts wanted)).MakesAt enter levels level := by
  intro trees hyields
  obtain ⟨_, _, left, right, hleft, hright, rfl⟩ := hyields.always
  obtain rfl := hleft.empty
  obtain ⟨lexeme, rfl, haccepts⟩ := hright.token
  refine ⟨_, rfl, hlevel _ _, derivedWithin_ofParts hopens (hallows _ (.cons haccepts .nil)) ?_⟩
  exact Derives.token _ hright

/-- The call of a function by its name alone. -/
theorem bareCall_makesAt {input rest : List Lexeme} {trees : List Tree}
    (hname : isWordOf bareFunctions (current input))
    (hread : (Form.node .functionCall .name).read enter input = .ok (trees, rest)) :
    ∃ tree, trees = [tree] ∧ tree.bindsAt .primary ∧ tree.DerivedWithin levels := by
  obtain ⟨parts, hparts, rfl⟩ := read_node_eq_ok hread
  obtain ⟨name, haccepts, rfl, rfl⟩ := readToken_eq_ok hparts
  refine ⟨_, rfl, rfl, .node rfl (.inl (.cons hname .nil)) ?_, ?_⟩
  · intro child hmem
    obtain rfl := List.mem_singleton.mp hmem
    exact .leaf
  · have hopen : hasToken (.symbol .leftParen) [.leaf name] = false := by
      cases hlexeme : name.token <;>
        simp_all [hasToken, leaves, Token.isName, Token.name?]
    simp [ofParts, nesting, hopen, nestingOf]

section

variable (h : Nests enter levels)
include h

/-- A call with arguments. -/
theorem call_makesAt {input rest : List Lexeme} {trees : List Tree}
    (hname : isPlainName (current input))
    (hread : (Form.node .functionCall (.seq .name (.deeper .arguments))).read enter input =
      .ok (trees, rest)) :
    ∃ tree, trees = [tree] ∧ tree.bindsAt .primary ∧ tree.DerivedWithin levels := by
  obtain ⟨parts, hparts, rfl⟩ := read_node_eq_ok hread
  obtain ⟨_, mid, arguments, hfirst, harguments, rfl⟩ := read_seq_eq_ok hparts
  obtain ⟨name, -, rfl, rfl⟩ := readToken_eq_ok hfirst
  obtain ⟨henclosed, hnests⟩ := h.arguments arguments ⟨mid, rest, harguments⟩
  have hderives := h.derives .arguments arguments ⟨mid, rest, harguments⟩
  refine ⟨_, rfl, rfl, .node rfl (.inr ⟨_, _, rfl, hname, henclosed⟩) ?_, ?_⟩
  · intro child hmem
    rcases List.mem_cons.mp hmem with rfl | hmem
    · exact .leaf
    · exact (hderives child hmem).derived
  · have hle : nestingOf ([.leaf name] ++ arguments) ≤ nestingOf arguments := by
      simp [nestingOf, nesting]
    rw [ofParts, nesting]
    split <;> omega

theorem primary_makesAt : primary.MakesAt enter levels .primary := by
  rintro trees ⟨input, rest, hread⟩
  rcases read_ifAt_eq_ok hread with ⟨-, hread⟩ | ⟨-, hread⟩
  · exact h.makesAt rfl (fun _ _ => rfl) trees ⟨input, rest, hread⟩
  rcases read_ifAt_eq_ok hread with ⟨-, hread⟩ | ⟨-, hread⟩
  · exact h.makesAt rfl (fun _ _ => rfl) trees ⟨input, rest, hread⟩
  rcases read_ifAt_eq_ok hread with ⟨-, hread⟩ | ⟨-, hread⟩
  · have literal : (Form.node .literal (.token isLiteral "a literal")).MakesAt enter levels
        .primary := tokenNode_makesAt rfl (fun _ _ => rfl) fun _ hrow => hrow
    exact literal trees ⟨input, rest, hread⟩
  rcases read_ifAt_eq_ok hread with ⟨-, hread⟩ | ⟨-, hread⟩
  · have placeholder : (Form.node .placeholder (.token isPlaceholder "a placeholder")).MakesAt
        enter levels .primary := tokenNode_makesAt rfl (fun _ _ => rfl) fun _ hrow => hrow
    exact placeholder trees ⟨input, rest, hread⟩
  rcases read_ifAt_eq_ok hread with ⟨hcall, hread⟩ | ⟨-, hread⟩
  · simp only [Lookahead.holds, Bool.and_eq_true] at hcall
    exact call_makesAt h hcall.1 hread
  rcases read_ifAt_eq_ok hread with ⟨hbare, hread⟩ | ⟨hbare, hread⟩
  · rw [holds_single] at hbare
    exact bareCall_makesAt hbare hread
  rw [holds_single] at hbare
  rcases read_ifAt_eq_ok hread with ⟨-, hread⟩ | ⟨-, hread⟩
  · exact columnOrAll_makesAt hbare hread
  · cases hread

/-! ### Sums and products -/

theorem unary_makesAt : unary.MakesAt enter levels .sign := by
  apply MakesAt.ifAt
  · exact h.makesAt rfl fun _ _ => rfl
  · exact (primary_makesAt h).mono (by decide)

theorem product_makesAt : product.MakesAt enter levels .product :=
  deepChain_makesAt (fun _ => rfl) (fun _ hchain => hchain) (fun _ _ => rfl) (by decide)
    (unary_makesAt h) (h.derives .productTail) h.products

theorem sum_makesAt : sum.MakesAt enter levels .sum :=
  deepChain_makesAt (fun _ => rfl) (fun _ hchain => hchain) (fun _ _ => rfl) (by decide)
    (product_makesAt h) (h.derives .sumTail) h.sums

/-! ### Comparisons and predicates -/

theorem predicateTail_derives : predicateTail.Derives enter levels := by
  have hsum : sum.Derives enter levels := (sum_makesAt h).derives
  have hword {k : Keyword} : (Form.keyword k).Derives enter levels := Derives.token
  refine Each.ifAt (.seq Derives.token hsum) <|
    .ifAt (.seq hword (.seq (.optional hword) hword)) <| .seq (.optional hword) <|
    .ifAt (.seq hword (.ifAt (h.derives _) (h.derives _))) <|
    .ifAt (.seq hword (.seq hsum (.optional (.seq hword hsum)))) ?_
  exact .seq hword (.seq hsum (.seq hword hsum))


omit h in
/-- The parts of a predicate, with its word and its operands after the left operand and perhaps a
`NOT`. -/
theorem predicate_of_read_not {input mid : List Lexeme} {tests : List (Tree → Bool)}
    {left : Tree} {negation operands : List Tree} (hleft : left.bindsAt .sum)
    (hread : (Form.optional [isKeyword .NOT] (.keyword .NOT)).read enter input =
      .ok (negation, mid)) (hrow : Row tests operands) :
    Predicate tests (left :: (negation ++ operands)) := by
  rcases Yields.optional ⟨input, mid, hread⟩ with hnot | rfl
  · obtain ⟨word, rfl, haccepts⟩ := hnot.token
    exact .inr (.cons hleft (.cons haccepts hrow))
  · exact .inl (.cons hleft hrow)

omit h in
theorem isNullTail_row {left : Tree} {trees : List Tree} (hleft : left.bindsAt .sum)
    (hyields : (Form.all [.keyword .IS, .optional [isKeyword .NOT] (.keyword .NOT),
      .keyword .NULL]).Yields enter trees) :
    Rule.isNullExpr.Allows (left :: trees) := by
  obtain ⟨_, _, hfirst, hrest, rfl⟩ := hyields.seq
  obtain ⟨word, rfl, his⟩ := hfirst.token
  obtain ⟨_, _, hmiddle, hlast, rfl⟩ := hrest.seq
  obtain ⟨null, rfl, hnull⟩ := hlast.token
  rcases hmiddle.optional with hmiddle | rfl
  · obtain ⟨negation, rfl, hnot⟩ := hmiddle.token
    exact .inr (.cons hleft (.cons his (.cons hnot (.cons hnull .nil))))
  · exact .inl (.cons hleft (.cons his (.cons hnull .nil)))

theorem inTail_row {trees : List Tree}
    (hyields : (Form.seq (.keyword .IN) (.ifAt [isSymbol .leftParen, isKeyword .SELECT]
      (.deeper .subquery) (.deeper .members))).Yields enter trees) :
    Row [isWordLeaf .IN, either (hasRule .subquery) (hasRule .expressionList)] trees := by
  obtain ⟨_, _, hin, hlist, rfl⟩ := hyields.seq
  obtain ⟨word, rfl, haccepts⟩ := hin.token
  rcases hlist.ifAt with hlist | hlist
  · obtain ⟨list, rfl, hrule, -⟩ := h.makes rfl _ hlist
    exact .cons haccepts (.cons (either_of_left _ _ hrule) .nil)
  · obtain ⟨list, rfl, hrule, -⟩ := h.makes rfl _ hlist
    exact .cons haccepts (.cons (either_of_right _ _ hrule) .nil)

theorem likeTail_row {trees : List Tree}
    (hyields : (Form.all [.keyword .LIKE, sum,
      .optional [isKeyword .ESCAPE] (.seq (.keyword .ESCAPE) sum)]).Yields enter trees) :
    Row [isWordLeaf .LIKE, bindsAt .sum] trees ∨
      Row [isWordLeaf .LIKE, bindsAt .sum, isWordLeaf .ESCAPE, bindsAt .sum] trees := by
  obtain ⟨_, _, hfirst, hrest, rfl⟩ := hyields.seq
  obtain ⟨word, rfl, hlike⟩ := hfirst.token
  obtain ⟨_, _, hsecond, hlast, rfl⟩ := hrest.seq
  obtain ⟨pattern, rfl, hpattern, -⟩ := sum_makesAt h _ hsecond
  rcases hlast.optional with hlast | rfl
  · obtain ⟨_, _, hthird, hfourth, rfl⟩ := hlast.seq
    obtain ⟨mark, rfl, hescape⟩ := hthird.token
    obtain ⟨character, rfl, hcharacter, -⟩ := sum_makesAt h _ hfourth
    exact .inr (.cons hlike (.cons hpattern (.cons hescape (.cons hcharacter .nil))))
  · exact .inl (.cons hlike (.cons hpattern .nil))

theorem betweenTail_row {trees : List Tree}
    (hyields : (Form.all [.keyword .BETWEEN, sum, .keyword .AND, sum]).Yields enter trees) :
    Row [isWordLeaf .BETWEEN, bindsAt .sum, isWordLeaf .AND, bindsAt .sum] trees := by
  obtain ⟨_, _, hfirst, hrest, rfl⟩ := hyields.seq
  obtain ⟨word, rfl, hbetween⟩ := hfirst.token
  obtain ⟨_, _, hsecond, hbounds, rfl⟩ := hrest.seq
  obtain ⟨low, rfl, hlow, -⟩ := sum_makesAt h _ hsecond
  obtain ⟨_, _, hthird, hfourth, rfl⟩ := hbounds.seq
  obtain ⟨conjunction, rfl, hand⟩ := hthird.token
  obtain ⟨high, rfl, hhigh, -⟩ := sum_makesAt h _ hfourth
  exact .cons hbetween (.cons hlow (.cons hand (.cons hhigh .nil)))

/-- After an operand, the tail of the production that the next tokens call for completes its
parts. -/
theorem predicateTail_allows {input rest : List Lexeme} {left : Tree} {right : List Tree}
    {production : Rule} (hleft : left.bindsAt .sum)
    (hproduction : predicateRule (current input) (current input.tail) = some production)
    (hread : predicateTail.read enter input = .ok (right, rest)) :
    production.opensNone ∧ (∀ parts, (ofParts production parts).bindsAt .comparison) ∧
      production.Allows (left :: right) := by
  rcases read_ifAt_eq_ok hread with ⟨hsign, htail⟩ | ⟨hsign, hread⟩
  · obtain rfl : .comparisonExpr = production := by
      rw [holds_single] at hsign
      simpa [predicateRule, hsign] using hproduction
    obtain ⟨_, _, hfirst, hsecond, rfl⟩ := Yields.seq ⟨input, rest, htail⟩
    obtain ⟨sign, rfl, haccepts⟩ := hfirst.token
    obtain ⟨operand, rfl, hoperand, -⟩ := sum_makesAt h _ hsecond
    exact ⟨rfl, fun _ => rfl, .cons hleft (.cons haccepts (.cons hoperand .nil))⟩
  rcases read_ifAt_eq_ok hread with ⟨his, htail⟩ | ⟨his, hread⟩
  · have heq : current input = .keyword .IS := by simpa [isKeyword] using his
    obtain rfl : .isNullExpr = production := by
      simpa [predicateRule, heq, isComparisonSign] using hproduction
    exact ⟨rfl, fun _ => rfl, isNullTail_row hleft ⟨input, rest, htail⟩⟩
  rw [holds_single] at hsign his
  obtain ⟨negation, mid, operands, hnot, hpredicate, rfl⟩ := read_seq_eq_ok hread
  obtain ⟨hproduction, -⟩ := predicateOf_of_read_not hsign his hproduction hnot
  rcases read_ifAt_eq_ok hpredicate with ⟨hin, htail⟩ | ⟨hin, hpredicate⟩
  · have heq : current mid = .keyword .IN := by simpa [isKeyword] using hin
    obtain rfl : .inExpr = production := by simpa [predicateOf?, heq] using hproduction
    exact ⟨rfl, fun _ => rfl, predicate_of_read_not hleft hnot (inTail_row h ⟨mid, rest, htail⟩)⟩
  rcases read_ifAt_eq_ok hpredicate with ⟨hlike, htail⟩ | ⟨hlike, htail⟩
  · have heq : current mid = .keyword .LIKE := by simpa [isKeyword] using hlike
    obtain rfl : .likeExpr = production := by simpa [predicateOf?, heq] using hproduction
    refine ⟨rfl, fun _ => rfl, ?_⟩
    rcases likeTail_row h ⟨mid, rest, htail⟩ with hrow | hrow
    · exact .inl (predicate_of_read_not hleft hnot hrow)
    · exact .inr (predicate_of_read_not hleft hnot hrow)
  · obtain rfl : .betweenExpr = production := by
      rw [holds_single] at hin hlike
      exact betweenExpr_of_predicateOf hin hlike hproduction
    exact ⟨rfl, fun _ => rfl,
      predicate_of_read_not hleft hnot (betweenTail_row h ⟨mid, rest, htail⟩)⟩

theorem comparison_makesAt : comparison.MakesAt enter levels .comparison := by
  rintro trees ⟨input, rest, hread⟩
  rcases read_extend_eq_ok hread with hread | ⟨_, mid, right, production, hleft, hproduction,
    hright, rfl⟩
  · exact (sum_makesAt h).mono (by decide) trees ⟨input, rest, hread⟩
  · have hyields : sum.Yields enter _ := ⟨input, mid, hleft⟩
    have hparts := Each.parts (sum_makesAt h).derives (predicateTail_derives h) hyields
      ⟨mid, rest, hright⟩
    obtain ⟨left, rfl, hlevel, -⟩ := sum_makesAt h _ hyields
    obtain ⟨hopens, hbinds, hallows⟩ := predicateTail_allows h hlevel hproduction hright
    exact ⟨_, rfl, hbinds _, derivedWithin_ofParts hopens hallows hparts⟩

/-! ### Conditions -/

theorem bitwise_makesAt : bitwise.MakesAt enter levels .bitwise :=
  flatChain_makesAt rfl rfl (fun _ hchain => hchain) (fun _ _ => rfl) (by decide)
    (comparison_makesAt h)

theorem negatable_makesAt : negatable.MakesAt enter levels .negation := by
  apply MakesAt.ifAt
  · exact h.makesAt rfl fun _ _ => rfl
  · exact (bitwise_makesAt h).mono (by decide)

theorem conjunction_makesAt : conjunction.MakesAt enter levels .conjunction :=
  flatChain_makesAt rfl rfl (fun _ hchain => hchain) (fun _ _ => rfl) (by decide)
    (negatable_makesAt h)

/-- **An expression that is read is a derivation.** -/
theorem expression_makesAt : expression.MakesAt enter levels .disjunction :=
  flatChain_makesAt rfl rfl (fun _ hchain => hchain) (fun _ _ => rfl) (by decide)
    (conjunction_makesAt h)

end

end Grammar

end SqlFront
