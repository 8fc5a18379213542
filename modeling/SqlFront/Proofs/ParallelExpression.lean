import SqlFront.Proofs.InsideTree
import SqlFront.Proofs.Parallel

/-!
Expressions of two texts side by side.

The builder looks at the text of a node for the alias, and at the text of a token for the name of a
function; all else it takes from the tokens. So related trees build expressions that look alike,
where the first one builds an expression at all.
-/

namespace SqlFront

/-! ### Constants without a label -/

section

variable {view : View} {value : Constant}

theorem Literal.seen_of_number {reader : Decimal.Reader} {negative : Bool} {text : String}
    (h : Literal.numberBy reader negative text = .ok value) : value.seen view = value := by
  simp only [Literal.numberBy] at h
  generalize (if text.toList.all Char.isDigit then int64? (signed negative text.toList)
    else none) = integer? at h
  cases integer? with
  | some n =>
    cases h
    rfl
  | none =>
    obtain ⟨decimal, -, rfl⟩ := map_eq_ok.mp h
    rfl

variable {decoder : HexDecoder}

theorem Literal.seen_of_hex {digits : String}
    (h : (Literal.hexBy decoder digits).map .binary = .ok value) : value.seen view = value := by
  obtain ⟨bytes, -, rfl⟩ := map_eq_ok.mp h
  rfl

theorem Literal.seen_of_string {body : String} {kind : StringKind} {escapes : Bool}
    (h : Literal.stringBy decoder body kind escapes = .ok value) : value.seen view = value := by
  unfold Literal.stringBy at h
  split at h
  · obtain ⟨bytes, -, rfl⟩ := map_eq_ok.mp h
    rfl
  · cases h
    rfl

end

namespace Parallel

open Build

variable {p : Parallel}

/-- A constant that has no label looks alike to itself. -/
theorem constant_follows (p : Parallel) {x : Built Constant}
    (h : ∀ {value view}, x = .ok value → value.seen view = value) :
    Follows (p.Alike Constant.seen) x x :=
  fun value hvalue => ⟨value, hvalue, (h hvalue).trans (h hvalue).symm⟩

/-! ### Expressions that look alike -/

section

variable {e e' : Expr}

theorem isPredicate_eq (h : p.Alike Expr.seen e e') : e.isPredicate = e'.isPredicate :=
  h.apply_eq fun _ => Expr.isPredicate_seen

theorem column_of_alike {a : Option String} {column : ColumnRef}
    (h : p.Alike Expr.seen (.column a column) e') : ∃ a', e' = .column a' column := by
  cases e' with
  | column a' column' =>
    obtain rfl := (Expr.column.inj h).2
    exact ⟨a', rfl⟩
  | _ => cases h

theorem constant_of_alike {a : Option String} {value : Constant}
    (h : p.Alike Expr.seen (.constant a value) e') :
    ∃ a' value', e' = .constant a' value' ∧ p.Alike Constant.seen value value' := by
  cases e' with
  | constant a' value' => exact ⟨a', value', rfl, (Expr.constant.inj h).2⟩
  | _ => cases h

theorem withAlias_alike (h : p.Alike Expr.seen e e') {a a' : Option String}
    (ha : a.bind p.leftView.aliasName = a'.bind p.rightView.aliasName) :
    p.Alike Expr.seen (e.withAlias a) (e'.withAlias a') := by
  rw [Alike, Expr.seen_withAlias, Expr.seen_withAlias, h, ha]

theorem compare_alike (negated : Bool) (op : ComparisonOp) {l l' r r' : Expr}
    (hl : p.Alike Expr.seen l l') (hr : p.Alike Expr.seen r r') :
    p.Alike Expr.seen (.compare none negated op l r) (.compare none negated op l' r') := by
  simp only [Alike, Expr.seen, hl, hr, Option.bind_none]

theorem and_alike {l l' r r' : Expr} (hl : p.Alike Expr.seen l l')
    (hr : p.Alike Expr.seen r r') : p.Alike Expr.seen (.and none l r) (.and none l' r') := by
  simp only [Alike, Expr.seen, hl, hr, Option.bind_none]

theorem or_alike {l l' r r' : Expr} (hl : p.Alike Expr.seen l l')
    (hr : p.Alike Expr.seen r r') : p.Alike Expr.seen (.or none l r) (.or none l' r') := by
  simp only [Alike, Expr.seen, hl, hr, Option.bind_none]

theorem arithmetic_alike {a a' : Option String} (op : ArithmeticOp) {l l' r r' : Expr}
    (ha : a.bind p.leftView.aliasName = a'.bind p.rightView.aliasName)
    (hl : p.Alike Expr.seen l l') (hr : p.Alike Expr.seen r r') :
    p.Alike Expr.seen (.arithmetic a op l r) (.arithmetic a' op l' r') := by
  simp only [Alike, Expr.seen, hl, hr, ha]

theorem literal_alike {value value' : Constant} (h : p.Alike Constant.seen value value') :
    p.Alike Expr.seen (.constant none value) (.constant none value') := by
  simp only [Alike, Expr.seen, h, Option.bind_none]

theorem negate_follows (h : p.Alike Expr.seen e e') :
    Follows (p.Alike Expr.seen) e.negate e'.negate := by
  rw [Expr.negate, Expr.negate, ← isPredicate_eq h]
  split
  · refine .ok ?_
    rw [Alike, Expr.seen_complement, h, Expr.seen_complement]
  · rintro _ ⟨⟩

theorem balanced_rel {combine : Expr → Expr → Expr}
    (hcombine : ∀ view l r,
      (combine l r).seen view = combine (l.seen view) (r.seen view)) {es es' : List Expr}
    (h : List.Forall₂ (p.Alike Expr.seen) es es') :
    Option.Rel (p.Alike Expr.seen) (balanced combine es) (balanced combine es') := by
  have hboth : (balanced combine es).map (Expr.seen p.leftView) =
      (balanced combine es').map (Expr.seen p.rightView) := by
    rw [Expr.seen_balanced (hcombine _), map_eq_map_of_forall₂ h, Expr.seen_balanced (hcombine _)]
  cases hleft : balanced combine es <;> cases hright : balanced combine es' <;>
    rw [hleft, hright] at hboth
  · exact .none
  · cases hboth
  · cases hboth
  · exact .some (Option.some.inj hboth)

end

/-- Constants that look alike are equal, or both are placeholders. -/
theorem constant_cases {value value' : Constant} (h : p.Alike Constant.seen value value') :
    value = value' ∨ ∃ label label', value = .placeholder label ∧ value' = .placeholder label' := by
  cases value with
  | placeholder label =>
    cases value' with
    | placeholder label' => exact .inr ⟨label, label', rfl, rfl⟩
    | _ => cases h
  | _ =>
    cases value' with
    | placeholder label' => cases h
    | _ => exact .inl h

theorem character_follows {value value' : Constant} (h : p.Alike Constant.seen value value') :
    Follows Eq (Literal.character value) (Literal.character value') := by
  rcases constant_cases h with rfl | ⟨label, label', rfl, rfl⟩
  · exact .of_eq rfl
  · rintro _ ⟨⟩

/-! ### Trees -/

section

variable {tree tree' : Tree}

theorem token?_rel (h : p.Trees tree tree') :
    Option.Rel (p.Alike Token.seen) tree.token? tree'.token? := by
  cases h with
  | leaf h => exact .some h.token
  | node _ _ => exact .none

/-- Related trees consist of the same number, or neither of them is one. -/
theorem numberText?_eq (h : p.Trees tree tree') :
    Node.numberText? tree = Node.numberText? tree' := by
  cases h with
  | leaf _ => rfl
  | @node rule _ _ children children' _ hchildren =>
    cases hchildren with
    | nil => cases rule <;> rfl
    | cons hfirst _ =>
      cases hfirst with
      | node _ _ => cases rule <;> rfl
      | @leaf lexeme lexeme' h =>
        obtain ⟨token, span⟩ := lexeme
        obtain ⟨token', span'⟩ := lexeme'
        rcases token_cases h.token with hsame | ⟨label, label', hlabel, hlabel', -⟩
        · obtain rfl : token = token' := hsame
          cases rule <;> first | rfl | (cases token <;> rfl)
        · obtain rfl : token = .placeholder label := hlabel
          obtain rfl : token' = .placeholder label' := hlabel'
          cases rule <;> rfl

end

/-! ### Parts and nodes -/

/-- Parts of related trees that build expressions which look alike. -/
structure Parts (p : Parallel) (part part' : Part) : Prop where
  tree : p.Trees part.tree part'.tree
  built : Follows (p.Alike Expr.seen) part.built part'.built

/-- Nodes of the same production with such parts. -/
structure Nodes (p : Parallel) (node node' : Node) : Prop where
  rule : node.rule = node'.rule
  range : p.Ranges node.span node'.span
  parts : List.Forall₂ p.Parts node.parts node'.parts
  members : Option.Rel (List.Forall₂ p.Parts) node.members node'.members

namespace Parts

variable {part part' : Part}

theorem value (h : p.Parts part part') :
    Follows (p.Alike Expr.seen) (p.left.value part) (p.right.value part') := by
  refine h.built.bind fun e e' he => ?_
  rw [← isPredicate_eq he]
  split
  · exact .reject
  · exact .ok he

theorem constant (h : p.Parts part part') (what : String) :
    Follows (p.Alike Constant.seen) (p.left.constant what part) (p.right.constant what part') := by
  refine h.built.bind fun e e' he => ?_
  cases e with
  | constant a value =>
    obtain ⟨a', value', rfl, hvalue⟩ := constant_of_alike he
    exact .ok hvalue
  | _ => exact .refuse

theorem columnOperand (h : p.Parts part part') (operator : String) :
    Follows Eq (columnOperand operator part) (Build.columnOperand operator part') := by
  refine h.built.bind fun e e' he => ?_
  cases e with
  | column a column =>
    obtain ⟨a', rfl⟩ := column_of_alike he
    exact .ok rfl
  | _ => exact .refuse

theorem expressions {parts parts' : List Part} (h : List.Forall₂ p.Parts parts parts') :
    List.Forall₂ p.Parts (parts.filter fun part => part.tree.isExpression)
      (parts'.filter fun part => part.tree.isExpression) :=
  rel_filter h fun _ _ h => h.tree.isExpression_eq

end Parts

namespace Nodes

variable {node node' : Node}

theorem trees (h : p.Nodes node node') : List.Forall₂ p.Trees node.trees node'.trees :=
  List.rel_map (fun _ _ h => h.tree) h.parts

theorem operands (h : p.Nodes node node') :
    List.Forall₂ p.Parts node.operands node'.operands :=
  Parts.expressions h.parts

theorem operand (h : p.Nodes node node') (n : Nat) :
    Follows p.Parts (node.operand n) (node'.operand n) :=
  .require (rel_getElem? h.operands n)

theorem firstLeaf (h : p.Nodes node node') :
    Option.Rel p.Lexemes node.firstLeaf node'.firstLeaf :=
  rel_head? (Tree.Matches.leaves h.trees)

theorem hasKeyword_eq (h : p.Nodes node node') (keyword : Keyword) :
    node.hasKeyword keyword = node'.hasKeyword keyword :=
  Tree.Matches.hasKeyword_eq p.keepsToken h.trees keyword

theorem headToken? (h : p.Nodes node node') :
    Option.Rel (p.Alike Token.seen) node.headToken? node'.headToken? := by
  unfold Node.headToken?
  rcases rel_cases (rel_head? h.trees) with ⟨hhead, hhead'⟩ | ⟨tree, tree', hhead, hhead', htree⟩
  · rw [hhead, hhead']
    exact .none
  · rw [hhead, hhead']
    exact token?_rel htree

/-! ### Productions -/

theorem logical {combine : Expr → Expr → Expr}
    (hcombine : ∀ view l r,
      (combine l r).seen view = combine (l.seen view) (r.seen view))
    (h : p.Nodes node node') :
    Follows (p.Alike Expr.seen) (node.logical combine) (node'.logical combine) := by
  have hoperand {part part' : Part} (h : p.Parts part part') :
      Follows (p.Alike Expr.seen)
        (do
          let e ← part.built
          if e.isPredicate then return e else Built.reject (.notAnOperand e.kindName))
        (do
          let e ← part'.built
          if e.isPredicate then return e else Built.reject (.notAnOperand e.kindName)) := by
    refine h.built.bind fun e e' he => ?_
    rw [← isPredicate_eq he]
    split
    · exact .ok he
    · exact .reject
  exact (Follows.mapM h.operands fun _ _ h => hoperand h).bind fun _ _ h =>
    .require (balanced_rel hcombine h)

theorem comparison (h : p.Nodes node node') :
    Follows (p.Alike Expr.seen) (node.comparison p.left) (node'.comparison p.right) := by
  refine (h.operand 0).bind fun _ _ hfirst => hfirst.value.bind fun left left' hleft => ?_
  refine (h.operand 1).bind fun _ _ hsecond => hsecond.value.bind fun right right' hright => ?_
  have hop : (node.firstLeaf.bind fun leaf => comparisonOf? leaf.token) =
      node'.firstLeaf.bind fun leaf => comparisonOf? leaf.token := by
    rcases rel_cases h.firstLeaf with ⟨hleaf, hleaf'⟩ | ⟨leaf, leaf', hleaf, hleaf', hlexeme⟩
    · rw [hleaf, hleaf']
    · rw [hleaf, hleaf']
      rcases token_cases hlexeme.token with hsame | ⟨label, label', hlabel, hlabel', -⟩
      · exact congrArg comparisonOf? hsame
      · simp only [Option.bind_some, hlabel, hlabel', comparisonOf?]
  refine (Follows.require_eq hop).bind ?_
  rintro ⟨negated, op⟩ _ rfl
  exact .ok (compare_alike negated op hleft hright)

theorem isNull (h : p.Nodes node node') :
    Follows (p.Alike Expr.seen) node.isNull node'.isNull := by
  refine (h.operand 0).bind fun _ _ hpart => (hpart.columnOperand _).bind ?_
  rintro column _ rfl
  rw [← h.hasKeyword_eq]
  exact .ok rfl

theorem inList (h : p.Nodes node node') :
    Follows (p.Alike Expr.seen) (node.inList p.left) (node'.inList p.right) := by
  refine (h.operand 0).bind fun _ _ hpart => (hpart.columnOperand _).bind ?_
  rintro column _ rfl
  have hlist : Follows (p.Alike Expr.seen)
      (do
        let members ← Built.require node.malformed node.members
        let values ← (members.filter fun part => part.tree.isExpression).mapM
          (p.left.constant "an IN list value")
        return .inList none (node.hasKeyword .NOT) column values)
      (do
        let members ← Built.require node'.malformed node'.members
        let values ← (members.filter fun part => part.tree.isExpression).mapM
          (p.right.constant "an IN list value")
        return .inList none (node'.hasKeyword .NOT) column values) := by
    refine (Follows.require h.members).bind fun members members' hmembers => ?_
    refine (Follows.mapM (Parts.expressions hmembers) fun _ _ h => h.constant _).bind
      fun values values' hvalues => .ok ?_
    simp only [Alike, Expr.seen, Option.bind_none, Alike.map hvalues, h.hasKeyword_eq]
  dsimp only
  rw [← Tree.Matches.isSome_find?_eq h.trees .subquery]
  split
  · exact .refuse
  · exact hlist

theorem like (h : p.Nodes node node') :
    Follows (p.Alike Expr.seen) (node.like p.left) (node'.like p.right) := by
  refine (h.operand 0).bind fun _ _ hpart => (hpart.columnOperand _).bind ?_
  rintro column _ rfl
  refine (h.operand 1).bind fun _ _ hpart => ?_
  refine (hpart.constant _).bind fun pattern pattern' hpattern => ?_
  have hlike (escape : Option Char) : p.Alike Expr.seen
      (.like none (node.hasKeyword .NOT) column pattern escape)
      (.like none (node'.hasKeyword .NOT) column pattern' escape) := by
    simp only [Alike, Expr.seen, Option.bind_none, hpattern, h.hasKeyword_eq]
  dsimp only
  rw [← h.hasKeyword_eq .ESCAPE]
  split
  · refine (h.operand 2).bind fun _ _ hpart => ?_
    refine (hpart.constant _).bind fun value value' hvalue => ?_
    refine (Follows.mapError (character_follows hvalue)).bind ?_
    rintro c _ rfl
    exact .ok (hlike _)
  · exact .ok (hlike _)

theorem between (h : p.Nodes node node') :
    Follows (p.Alike Expr.seen) (node.between p.left) (node'.between p.right) := by
  refine (h.operand 0).bind fun _ _ hpart => hpart.value.bind fun subject subject' hsubject => ?_
  refine (h.operand 1).bind fun _ _ hpart => hpart.value.bind fun low low' hlow => ?_
  refine (h.operand 2).bind fun _ _ hpart => hpart.value.bind fun high high' hhigh => ?_
  rw [← h.hasKeyword_eq]
  split
  · exact .ok (or_alike (compare_alike _ _ hsubject hlow) (compare_alike _ _ hsubject hhigh))
  · exact .ok (and_alike (compare_alike _ _ hsubject hlow) (compare_alike _ _ hsubject hhigh))

theorem arithmeticOf {token? token?' : Option Token} (node node' : Node)
    (h : Option.Rel (p.Alike Token.seen) token? token?') :
    Follows Eq (node.arithmeticOf token?) (node'.arithmeticOf token?') := by
  rcases rel_cases h with ⟨rfl, rfl⟩ | ⟨token, token', rfl, rfl, htoken⟩
  · exact .reject
  · rcases token_cases htoken with rfl | ⟨label, label', rfl, rfl, -⟩
    · unfold Node.arithmeticOf
      split <;> first | exact .ok rfl | exact .refuse | exact .reject
    · exact .reject

/-- The rest of a chain of arithmetic. The induction follows the chain, two parts at a time. -/
theorem arithmeticFrom (node' : Node) {node : Node} {start start' : Span}
    (hstart : p.Ranges start start') {parts parts' : List Part} {built built' : Expr}
    (hparts : List.Forall₂ p.Parts parts parts') (hbuilt : p.Alike Expr.seen built built') :
    Follows (p.Alike Expr.seen) (node.arithmeticFrom p.left start built parts)
      (node'.arithmeticFrom p.right start' built' parts') := by
  fun_induction Node.arithmeticFrom p.left node start built parts generalizing parts' built' with
  | case1 built =>
    cases hparts with
    | nil => exact .ok hbuilt
  | case2 built part =>
    exact .reject
  | case3 built operator operand rest ih =>
    cases hparts with
    | cons hoperator hothers =>
      cases hothers with
      | cons hoperand hrest =>
        refine hoperand.value.bind fun right right' hright => ?_
        refine (arithmeticOf node node' (token?_rel hoperator.tree)).bind ?_
        rintro op _ rfl
        refine ih right op hrest (arithmetic_alike op ?_ hbuilt hright)
        exact p.slice (p.join hstart (range_of_trees hoperand.tree))

theorem arithmetic (h : p.Nodes node node') :
    Follows (p.Alike Expr.seen) (node.arithmetic p.left) (node'.arithmetic p.right) := by
  have hparts := h.parts
  unfold Node.arithmetic
  generalize node.parts = parts at hparts ⊢
  generalize node'.parts = parts' at hparts ⊢
  cases hparts with
  | nil => exact .reject
  | cons hfirst hrest =>
    exact hfirst.value.bind fun built built' hbuilt =>
      arithmeticFrom node' (range_of_trees hfirst.tree) hrest hbuilt

theorem signed (h : p.Nodes node node') :
    Follows (p.Alike Expr.seen) (node.signed p.left) (node'.signed p.right) := by
  have hminus := Tree.Matches.hasSymbol_eq p.keepsToken h.trees .minus
  refine (h.operand 0).bind fun inner inner' hinner => ?_
  rw [← hminus, ← numberText?_eq hinner.tree, ← p.decimals]
  split
  · exact (p.constant_follows fun h => Literal.seen_of_number (mapError_eq_ok.mp h)).bind
      fun value value' hvalue => .ok (literal_alike hvalue)
  · refine hinner.value.bind fun e e' he => .ok (arithmetic_alike _ rfl ?_ he)
    rw [Alike, Expr.seen, Expr.seen, p.aliases]
    rfl
  · exact hinner.value

theorem call (h : p.Nodes node node') :
    Follows (p.Alike Expr.seen) (node.call p.left) (node'.call p.right) := by
  refine (Follows.require h.firstLeaf).bind fun leaf leaf' hleaf => ?_
  refine (Follows.mapM h.operands fun _ _ h => h.value).bind fun es es' hes => ?_
  have hstar : es.any Node.isAllColumns = es'.any Node.isAllColumns :=
    any_eq_of_forall₂ hes fun e e' h => h.apply_eq fun _ => Expr.isAllColumns_seen
  have hall := map_eq_map_of_forall₂ hes
  simp only [← hleaf.text, ← hstar, ← h.hasKeyword_eq]
  split
  · exact .reject
  · split
    · refine .ok ?_
      simp only [Alike, Expr.seen, Expr.seenAll_eq_map, Option.bind_none, hall]
    · split
      · exact .reject
      · refine .ok ?_
        simp only [Alike, Expr.seen, Expr.seenAll_eq_map, Option.bind_none, hall]

theorem allColumns (h : p.Nodes node node') :
    Follows (p.Alike Expr.seen) (node.allColumns p.left) (node'.allColumns p.right) := by
  unfold Node.allColumns
  rw [← Tree.Matches.names_eq p.keepsToken h.trees, ← p.limits.dialect]
  split
  · exact .ok rfl
  · refine (Follows.of_eq rfl).bind ?_
    rintro table _ rfl
    exact .ok rfl

theorem literal (rule rule' : Rule) {token? token?' : Option Token}
    (h : Option.Rel (p.Alike Token.seen) token? token?') :
    Follows (p.Alike Constant.seen) (p.left.literal rule token?)
      (p.right.literal rule' token?') := by
  rcases rel_cases h with ⟨rfl, rfl⟩ | ⟨token, token', rfl, rfl, htoken⟩
  · exact .reject
  · rcases token_cases htoken with rfl | ⟨label, label', rfl, rfl, -⟩
    · unfold Context.literal
      rw [← p.limits.effectiveBackslashEscapes, ← p.decimals, ← p.hexDigits]
      split
      · exact p.constant_follows fun h => Literal.seen_of_number (mapError_eq_ok.mp h)
      · exact p.constant_follows fun h => Literal.seen_of_hex (mapError_eq_ok.mp h)
      · exact p.constant_follows fun h => Literal.seen_of_hex (mapError_eq_ok.mp h)
      · exact p.constant_follows fun h => Literal.seen_of_string (mapError_eq_ok.mp h)
      · exact .ok rfl
      · exact .ok rfl
      · exact .ok rfl
      · exact .reject
    · exact .reject

theorem bare (h : p.Nodes node node') :
    Follows (p.Alike Expr.seen) (node.bare p.left) (node'.bare p.right) := by
  unfold Node.bare
  rw [← h.rule]
  cases node.rule with
  | orExpr => exact h.logical fun _ _ _ => by simp [Expr.seen]
  | andExpr => exact h.logical fun _ _ _ => by simp [Expr.seen]
  | notExpr =>
    exact (h.operand 0).bind fun _ _ hpart => hpart.built.bind fun _ _ he =>
      (negate_follows he).mapError
  | bitwiseExpr => exact .refuse
  | comparisonExpr => exact h.comparison
  | inExpr => exact h.inList
  | likeExpr => exact h.like
  | isNullExpr => exact h.isNull
  | betweenExpr => exact h.between
  | additiveExpr => exact h.arithmetic
  | multiplicativeExpr => exact h.arithmetic
  | unaryExpr => exact h.signed
  | parenExpr => exact (h.operand 0).bind fun _ _ hpart => hpart.built
  | functionCall => exact h.call
  | literal =>
    exact (literal _ _ h.headToken?).bind fun value value' hvalue => .ok (literal_alike hvalue)
  | placeholder =>
    rcases rel_cases h.headToken? with ⟨hhead, hhead'⟩ | ⟨token, token', hhead, hhead', htoken⟩
    · simp only [hhead]
      exact .reject
    · simp only [hhead, hhead']
      -- the labels differ only where they are numbers that the lexer gave
      rcases token_cases htoken with rfl | ⟨label, label', rfl, rfl, hlabel⟩
      · split
        · rename_i label hplaceholder
          obtain rfl := Option.some.inj hplaceholder
          exact .ok (literal_alike (congrArg Constant.placeholder (Token.placeholder.inj htoken)))
        · exact .reject
      · exact .ok (literal_alike (congrArg Constant.placeholder hlabel))
  | columnName =>
    dsimp only
    rw [← p.limits.dialect]
    refine (Tree.Matches.column_follows p.keepsToken _ (.node h.range h.trees)).bind ?_
    rintro column _ rfl
    exact .ok rfl
  | allColumns => exact h.allColumns
  | subquery => exact .refuse
  | _ => exact .reject

theorem build (h : p.Nodes node node') :
    Follows (p.Alike Expr.seen) (node.build p.left) (node'.build p.right) := by
  refine h.bare.bind fun e e' he => .ok (withAlias_alike he ?_)
  exact p.slice h.range

end Nodes

/-! ### Expressions -/

theorem parts_rel {trees trees' : List Tree} (h : List.Forall₂ p.Trees trees trees')
    (hbuilt : ∀ tree ∈ trees, ∀ tree', p.Trees tree tree' →
      Follows (p.Alike Expr.seen) (p.left.expression tree) (p.right.expression tree')) :
    List.Forall₂ p.Parts (p.left.parts trees) (p.right.parts trees') := by
  rw [Context.parts_eq_map, Context.parts_eq_map, List.forall₂_map_left_iff,
    List.forall₂_map_right_iff]
  exact forall₂_of_mem h fun tree hmem tree' _ htree => ⟨htree, hbuilt tree hmem tree' htree⟩

/-- **Related trees build expressions that look alike.** -/
theorem expression_follows {tree tree' : Tree} (h : p.Trees tree tree') :
    Follows (p.Alike Expr.seen) (p.left.expression tree) (p.right.expression tree') := by
  induction tree using Tree.induct_inside generalizing tree' with
  | step tree ih =>
    cases h with
    | leaf _ => exact .reject
    | @node rule span span' children children' hspan hchildren =>
      rw [Context.expression, Context.expression]
      split
      · refine Nodes.build ⟨rfl, hspan, ?_, ?_⟩
        · exact parts_rel hchildren fun child hmem child' h => ih child hmem child .self h
        · rw [Context.members_eq_map, Context.members_eq_map]
          rcases rel_cases (Tree.Matches.find? hchildren .expressionList) with ⟨hlist, hlist'⟩ |
            ⟨list, list', hlist, hlist', hrel⟩
          · rw [hlist, hlist']
            exact .none
          · rw [hlist, hlist']
            refine .some (parts_rel hrel.children fun child hmem child' h => ?_)
            exact ih list (List.mem_of_find?_eq_some hlist) child (.of_mem hmem) h
      · exact .reject

end Parallel

end SqlFront
