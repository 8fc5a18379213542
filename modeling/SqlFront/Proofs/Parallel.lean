import SqlFront.Proofs.ParseTree
import SqlFront.Proofs.Simulation
import SqlFront.Proofs.View

/-!
Two texts side by side.

`Follows` relates two results: where the first one is a value, so is the second one, and the two
values are related. A `Parallel` is two texts with their settings, a view on each of them, and the
ranges of the texts that stand for each other. Their trees are related where they have the same form
and related tokens. What is read off such trees without a look at the text is the same on both
sides.
-/

namespace SqlFront

/-! ### Results that follow each other -/

section

variable {ε α β γ δ : Type} {R : α → β → Prop} {T : γ → δ → Prop}

/-- Where the first result is a value, the second one is a value that is related to it. -/
def Follows (R : α → β → Prop) (x : Except ε α) (y : Except ε β) : Prop :=
  ∀ a, x = .ok a → ∃ b, y = .ok b ∧ R a b

namespace Follows

variable {x : Except ε α} {y : Except ε β}

theorem ok {a : α} {b : β} (h : R a b) : Follows R (.ok a : Except ε α) (.ok b) := by
  rintro _ ⟨⟩
  exact ⟨b, rfl, h⟩

theorem of_eq {x y : Except ε α} (h : x = y) : Follows Eq x y := by
  rintro a rfl
  exact ⟨a, h.symm, rfl⟩

theorem reject {cause : SemanticCause} {y : Built β} :
    Follows R (Built.reject cause : Built α) y :=
  fun _ h => absurd h reject_ne_ok

theorem refuse {cause : UnsupportedCause} {y : Built β} :
    Follows R (Built.refuse cause : Built α) y :=
  fun _ h => absurd h refuse_ne_ok

theorem bind {f : α → Except ε γ} {g : β → Except ε δ} (h : Follows R x y)
    (hnext : ∀ a b, R a b → Follows T (f a) (g b)) : Follows T (x >>= f) (y >>= g) := by
  intro c hc
  obtain ⟨a, ha, hc⟩ := bind_eq_ok.mp hc
  obtain ⟨b, hb, hab⟩ := h a ha
  obtain ⟨d, hd, hcd⟩ := hnext a b hab c hc
  exact ⟨d, bind_eq_ok.mpr ⟨b, hb, hd⟩, hcd⟩

theorem map {f : α → γ} {g : β → δ} (h : Follows R x y) (hnext : ∀ a b, R a b → T (f a) (g b)) :
    Follows T (f <$> x) (g <$> y) := by
  intro c hc
  obtain ⟨a, ha, rfl⟩ := map_eq_ok.mp hc
  obtain ⟨b, hb, hab⟩ := h a ha
  exact ⟨g b, map_eq_ok.mpr ⟨b, hb, rfl⟩, hnext a b hab⟩

theorem mapError {ε' : Type} {f g : ε → ε'} (h : Follows R x y) :
    Follows R (x.mapError f) (y.mapError g) := by
  intro a ha
  obtain ⟨b, hb, hab⟩ := h a (mapError_eq_ok.mp ha)
  exact ⟨b, mapError_eq_ok.mpr hb, hab⟩

theorem require {cause cause' : SemanticCause} {value : Option α} {value' : Option β}
    (h : Option.Rel R value value') :
    Follows R (Built.require cause value) (Built.require cause' value') := by
  cases h with
  | some h => exact .ok h
  | none => exact .reject

theorem require_eq {cause cause' : SemanticCause} {value value' : Option α} (h : value = value') :
    Follows Eq (Built.require cause value) (Built.require cause' value') := by
  subst h
  cases value with
  | none => exact .reject
  | some a => exact .ok rfl

theorem mapM {f : α → Except ε γ} {g : β → Except ε δ} {items : List α} {items' : List β}
    (h : List.Forall₂ R items items') (hstep : ∀ a b, R a b → Follows T (f a) (g b)) :
    Follows (List.Forall₂ T) (items.mapM f) (items'.mapM g) := by
  induction h with
  | nil => exact .ok .nil
  | @cons item item' items items' hitem _ ih =>
    rw [List.mapM_cons, List.mapM_cons]
    refine (hstep item item' hitem).bind fun _ _ hfirst => ih.bind fun _ _ hrest => ?_
    exact .ok (.cons hfirst hrest)

theorem mapM_eq {f : α → Except ε γ} {g : β → Except ε γ} {items : List α} {items' : List β}
    (h : List.Forall₂ R items items') (hstep : ∀ a b, R a b → Follows Eq (f a) (g b)) :
    Follows Eq (items.mapM f) (items'.mapM g) := by
  rw [← List.forall₂_eq_eq_eq]
  exact mapM h hstep

theorem foldlM {f : γ → α → Except ε γ} {g : δ → β → Except ε δ} {items : List α}
    {items' : List β} {c : γ} {d : δ} (h : List.Forall₂ R items items') (hstart : T c d)
    (hstep : ∀ c d a b, T c d → R a b → Follows T (f c a) (g d b)) :
    Follows T (items.foldlM f c) (items'.foldlM g d) := by
  induction h generalizing c d with
  | nil => exact .ok hstart
  | @cons item item' items items' hitem _ ih =>
    rw [List.foldlM_cons, List.foldlM_cons]
    exact (hstep c d item item' hstart hitem).bind fun _ _ hnext => ih hnext

end Follows

/-! ### Related lists -/

theorem rel_cases {a? : Option α} {b? : Option β} (h : Option.Rel R a? b?) :
    (a? = none ∧ b? = none) ∨ ∃ a b, a? = some a ∧ b? = some b ∧ R a b := by
  cases h with
  | some h => exact .inr ⟨_, _, rfl, rfl, h⟩
  | none => exact .inl ⟨rfl, rfl⟩

theorem rel_find? {p : α → Bool} {q : β → Bool} {items : List α} {items' : List β}
    (h : List.Forall₂ R items items') (htest : ∀ a b, R a b → p a = q b) :
    Option.Rel R (items.find? p) (items'.find? q) := by
  induction h with
  | nil => exact .none
  | @cons item item' items items' hitem _ ih =>
    rw [List.find?_cons, List.find?_cons, ← htest item item' hitem]
    split
    · exact .some hitem
    · exact ih

theorem rel_getElem? {items : List α} {items' : List β} (h : List.Forall₂ R items items')
    (n : Nat) : Option.Rel R items[n]? items'[n]? := by
  induction h generalizing n with
  | nil => exact .none
  | cons hitem _ ih =>
    cases n with
    | zero => exact .some hitem
    | succ n => simpa using ih n

theorem rel_head? {items : List α} {items' : List β} (h : List.Forall₂ R items items') :
    Option.Rel R items.head? items'.head? := by
  cases h with
  | nil => exact .none
  | cons hitem _ => exact .some hitem

theorem rel_getLast? {items : List α} {items' : List β} (h : List.Forall₂ R items items') :
    Option.Rel R items.getLast? items'.getLast? := by
  rw [← List.head?_reverse, ← List.head?_reverse]
  exact rel_head? (List.rel_reverse h)

theorem rel_filter {p : α → Bool} {q : β → Bool} {items : List α} {items' : List β}
    (h : List.Forall₂ R items items') (htest : ∀ a b, R a b → p a = q b) :
    List.Forall₂ R (items.filter p) (items'.filter q) :=
  List.rel_filter (fun a b hab => Bool.eq_iff_iff.mp (htest a b hab)) h

/-- Members that are related one by one are also related in any way that follows for members. -/
theorem forall₂_of_mem {T : α → β → Prop} {items : List α} {items' : List β}
    (h : List.Forall₂ R items items') (himp : ∀ a ∈ items, ∀ b ∈ items', R a b → T a b) :
    List.Forall₂ T items items' := by
  induction h with
  | nil => exact .nil
  | @cons item item' items items' hitem _ ih =>
    refine .cons (himp item List.mem_cons_self item' List.mem_cons_self hitem) (ih ?_)
    exact fun a ha b hb => himp a (List.mem_cons_of_mem _ ha) b (List.mem_cons_of_mem _ hb)

/-- Lists whose items have the same image are lists with the same images. -/
theorem map_eq_map_of_forall₂ {f : α → γ} {g : β → γ} {items : List α} {items' : List β}
    (h : List.Forall₂ (fun a b => f a = g b) items items') : items.map f = items'.map g := by
  rw [← List.forall₂_eq_eq_eq, List.forall₂_map_left_iff, List.forall₂_map_right_iff]
  exact h

theorem filterMap_eq_of_forall₂ {f : α → Option γ} {g : β → Option γ} {items : List α}
    {items' : List β} (h : List.Forall₂ R items items') (hsame : ∀ a b, R a b → f a = g b) :
    items.filterMap f = items'.filterMap g := by
  induction h with
  | nil => rfl
  | @cons item item' items items' hitem _ ih =>
    rw [List.filterMap_cons, List.filterMap_cons, hsame item item' hitem, ih]

theorem any_eq_of_forall₂ {p : α → Bool} {q : β → Bool} {items : List α} {items' : List β}
    (h : List.Forall₂ R items items') (hsame : ∀ a b, R a b → p a = q b) :
    items.any p = items'.any q := by
  induction h with
  | nil => rfl
  | @cons item item' items items' hitem _ ih =>
    rw [List.any_cons, List.any_cons, hsame item item' hitem, ih]

end

/-! ### Trees of the same form -/

namespace Tree.Matches

variable {P : Lexeme → Lexeme → Prop} {S : Span → Span → Prop} {tree tree' : Tree}
  {trees trees' : List Tree}

theorem rule?_eq (h : Matches P S tree tree') : tree.rule? = tree'.rule? := by
  cases h <;> rfl

theorem isLeaf_eq (h : Matches P S tree tree') : tree.isLeaf = tree'.isLeaf := by
  cases h <;> rfl

theorem hasRule_eq (h : Matches P S tree tree') (rule : Rule) :
    tree.hasRule rule = tree'.hasRule rule := by
  rw [hasRule, h.rule?_eq, hasRule]

theorem isExpression_eq (h : Matches P S tree tree') : tree.isExpression = tree'.isExpression := by
  rw [isExpression, h.rule?_eq, isExpression]

theorem children (h : Matches P S tree tree') :
    List.Forall₂ (Matches P S) tree.children tree'.children := by
  cases h with
  | leaf _ => exact .nil
  | node _ hchildren => exact hchildren

theorem find? (h : List.Forall₂ (Matches P S) trees trees') (rule : Rule) :
    Option.Rel (Matches P S) (Tree.find? rule trees) (Tree.find? rule trees') :=
  rel_find? h fun _ _ h => h.hasRule_eq rule

theorem isSome_find?_eq (h : List.Forall₂ (Matches P S) trees trees') (rule : Rule) :
    (Tree.find? rule trees).isSome = (Tree.find? rule trees').isSome := by
  rcases rel_cases (find? h rule) with ⟨hfound, hfound'⟩ | ⟨_, _, hfound, hfound', -⟩
  · rw [hfound, hfound']
  · rw [hfound, hfound']
    rfl

theorem ofRule (h : List.Forall₂ (Matches P S) trees trees') (rule : Rule) :
    List.Forall₂ (Matches P S) (trees.filter (hasRule rule)) (trees'.filter (hasRule rule)) :=
  rel_filter h fun _ _ h => h.hasRule_eq rule

theorem expressions (h : List.Forall₂ (Matches P S) trees trees') :
    List.Forall₂ (Matches P S) (trees.filter isExpression) (trees'.filter isExpression) :=
  rel_filter h fun _ _ h => h.isExpression_eq

theorem leaves (h : List.Forall₂ (Matches P S) trees trees') :
    List.Forall₂ P (Tree.leaves trees) (Tree.leaves trees') := by
  refine List.rel_filterMap (fun tree tree' h => ?_) h
  cases h with
  | leaf h => exact .some h
  | node _ _ => exact .none

/-- A part of each tree is required, and is there for both or for none. -/
theorem required (h : Matches P S tree tree') (rule : Rule) :
    Follows (Matches P S) (tree.required rule) (tree'.required rule) :=
  .require (find? h.children rule)

theorem span_rel (hspan : ∀ {lexeme lexeme'}, P lexeme lexeme' → S lexeme.span lexeme'.span)
    (h : Matches P S tree tree') : S tree.span tree'.span := by
  cases h with
  | leaf h => exact hspan h
  | node h _ => exact h

theorem cover_rel (hspan : ∀ {lexeme lexeme'}, P lexeme lexeme' → S lexeme.span lexeme'.span)
    (hjoin : ∀ {left left' right right'}, S left left' → S right right' →
      S (left.join right) (left'.join right')) (hne : trees ≠ [])
    (h : List.Forall₂ (Matches P S) trees trees') : S (cover trees) (cover trees') := by
  have hfirst := rel_head? h
  have hlast := rel_getLast? h
  obtain ⟨first, rest, rfl⟩ := List.exists_cons_of_ne_nil hne
  rw [List.getLast?_eq_some_getLast hne] at hlast
  unfold cover
  rw [List.getLast?_eq_some_getLast hne]
  generalize trees'.head? = first' at hfirst ⊢
  generalize trees'.getLast? = last' at hlast ⊢
  cases hfirst with
  | some hfirst =>
    cases hlast with
    | some hlast => exact hjoin (hfirst.span_rel hspan) (hlast.span_rel hspan)

/-- Where tokens lie in related ranges, and well-formed trees cover their tokens, trees do so
too. -/
theorem of_wellFormed (hspan : ∀ {lexeme lexeme'}, P lexeme lexeme' → S lexeme.span lexeme'.span)
    (hjoin : ∀ {left left' right right'}, S left left' → S right right' →
      S (left.join right) (left'.join right'))
    (h : Matches P (fun _ _ => True) tree tree') (hformed : tree.WellFormed)
    (hformed' : tree'.WellFormed) : Matches P S tree tree' := by
  induction tree using Tree.induct generalizing tree' with
  | leaf lexeme =>
    cases h with
    | leaf h => exact .leaf h
  | node rule span children ih =>
    cases h with
    | @node _ _ span' _ children' _ hchildren =>
      cases hformed with
      | node hcover hshape hparts =>
        cases hformed' with
        | node hcover' _ hparts' =>
          have hall : List.Forall₂ (Matches P S) children children' :=
            forall₂_of_mem hchildren fun child hmem child' hmem' h =>
              ih child hmem h (hparts child hmem) (hparts' child' hmem')
          refine .node ?_ hall
          rw [hcover, hcover']
          exact cover_rel hspan hjoin hshape.ne_nil hall

/-! ### What trees say without the text -/

section

variable (hP : Grammar.KeepsToken P)

include hP

theorem any_eq (test : Token → Bool) (htest : ∀ token, test token.unlabelled = test token)
    (h : List.Forall₂ (Matches P S) trees trees') :
    ((Tree.leaves trees).any fun lexeme => test lexeme.token) =
      (Tree.leaves trees').any fun lexeme => test lexeme.token := by
  refine any_eq_of_forall₂ (leaves h) fun lexeme lexeme' h => ?_
  rw [← htest, hP h, htest]

/-- A token without a label is among both or among none. -/
theorem hasToken_eq {token : Token} (htoken : ∀ label, token ≠ .placeholder label)
    (h : List.Forall₂ (Matches P S) trees trees') :
    hasToken token trees = hasToken token trees' := by
  refine any_eq hP (· == token) (fun other => ?_) h
  have hother (label : String) : (Token.placeholder label == token) = false :=
    beq_eq_false_iff_ne.mpr (htoken label).symm
  cases other with
  | placeholder label => exact (hother "").trans (hother label).symm
  | _ => rfl

theorem hasKeyword_eq (h : List.Forall₂ (Matches P S) trees trees') (keyword : Keyword) :
    hasKeyword keyword trees = hasKeyword keyword trees' :=
  hasToken_eq hP nofun h

theorem hasSymbol_eq (h : List.Forall₂ (Matches P S) trees trees') (symbol : Symbol) :
    hasToken (.symbol symbol) trees = hasToken (.symbol symbol) trees' :=
  hasToken_eq hP nofun h

theorem hasWord_eq (h : List.Forall₂ (Matches P S) trees trees') (word : String) :
    hasWord word trees = hasWord word trees' := by
  refine any_eq hP (Token.isWord word) (fun token => ?_) h
  cases token <;> rfl

theorem names_eq (h : List.Forall₂ (Matches P S) trees trees') : names trees = names trees' := by
  refine filterMap_eq_of_forall₂ (leaves h) fun lexeme lexeme' h => ?_
  have hname (token : Token) : token.unlabelled.name? = token.name? := by
    cases token <;> rfl
  rw [← hname, hP h, hname]

theorem lastName_follows (h : Matches P S tree tree') :
    Follows Eq tree.lastName tree'.lastName := by
  refine .require_eq ?_
  rw [names_eq hP h.children]

theorem aliasName_follows (h : Matches P S tree tree') :
    Follows Eq tree.aliasName tree'.aliasName := by
  refine .require_eq ?_
  rcases rel_cases (find? h.children .aliasClause) with ⟨hclause, hclause'⟩ |
    ⟨clause, clause', hclause, hclause', hmatches⟩
  · rw [hclause, hclause']
  · rw [hclause, hclause']
    exact congrArg List.getLast? (names_eq hP hmatches.children)

theorem table_follows (dialect : Dialect) (h : Matches P S tree tree') :
    Follows Eq (TableRef.ofTree dialect tree) (TableRef.ofTree dialect tree') := by
  rw [TableRef.ofTree, TableRef.ofTree, names_eq hP h.children]
  refine (Follows.of_eq rfl).bind ?_
  rintro table _ rfl
  rcases rel_cases (find? h.children .aliasClause) with ⟨hclause, hclause'⟩ |
    ⟨clause, clause', hclause, hclause', -⟩
  · rw [hclause, hclause']
    exact .ok rfl
  · rw [hclause, hclause']
    refine (aliasName_follows hP h).bind ?_
    rintro name _ rfl
    exact .ok rfl

theorem column_follows (dialect : Dialect) (h : Matches P S tree tree') :
    Follows Eq (ColumnRef.ofTree dialect tree) (ColumnRef.ofTree dialect tree') := by
  rw [ColumnRef.ofTree, ColumnRef.ofTree, names_eq hP h.children]
  refine (lastName_follows hP h).bind ?_
  rintro name _ rfl
  exact .of_eq rfl

end

end Tree.Matches

/-! ### Texts side by side -/

/-- Settings that differ in the limits only: the second ones allow at least what the first ones
do. -/
structure Config.AtMost (config larger : Config) : Prop where
  dialect : config.dialect = larger.dialect
  backslashEscapes : config.backslashEscapes = larger.backslashEscapes
  allowUseStatements : config.allowUseStatements = larger.allowUseStatements
  maxNestingDepth : config.maxNestingDepth ≤ larger.maxNestingDepth
  maxCnfLeaves : config.maxCnfLeaves ≤ larger.maxCnfLeaves

theorem Config.AtMost.refl (config : Config) : config.AtMost config :=
  ⟨rfl, rfl, rfl, Nat.le_refl _, Nat.le_refl _⟩

theorem Config.AtMost.effectiveBackslashEscapes {config larger : Config}
    (h : config.AtMost larger) :
    config.effectiveBackslashEscapes = larger.effectiveBackslashEscapes := by
  rw [Config.effectiveBackslashEscapes, h.backslashEscapes, h.dialect,
    Config.effectiveBackslashEscapes]

/-- Two texts with their settings, and how what they stand for is looked at. -/
structure Parallel where
  left : Build.Context
  right : Build.Context
  leftView : View
  rightView : View
  /-- The ranges of the two texts that stand for each other. -/
  Ranges : Span → Span → Prop
  limits : left.config.AtMost right.config
  decimals : left.decimals = right.decimals
  hexDigits : left.hexDigits = right.hexDigits
  aliases : leftView.aliasName = rightView.aliasName
  join : ∀ {first first' last last' : Span}, Ranges first first' → Ranges last last' →
    Ranges (first.join last) (first'.join last')
  slice : ∀ {span span' : Span}, Ranges span span' →
    leftView.aliasName (left.source.slice span) = rightView.aliasName (right.source.slice span')

/-- Texts are built with the same decimals, whatever their settings are. -/
theorem Build.Context.decimals_eq (config larger : Config) (source source' : Source) :
    Build.Context.decimals { config, source } =
      Build.Context.decimals { config := larger, source := source' } := rfl

/-- Texts are built with the same bytes of digits, whatever their settings are. -/
theorem Build.Context.hexDigits_eq (config larger : Config) (source source' : Source) :
    Build.Context.hexDigits { config, source } =
      Build.Context.hexDigits { config := larger, source := source' } := rfl

namespace Parallel

variable (p : Parallel)

/-- Two things look alike, each in its text. -/
abbrev Alike {α : Type} (seen : View → α → α) (x y : α) : Prop :=
  seen p.leftView x = seen p.rightView y

/-- Tokens that look alike, with the same text in related ranges. -/
structure Lexemes (lexeme lexeme' : Lexeme) : Prop where
  token : p.Alike Token.seen lexeme.token lexeme'.token
  text : p.left.source.slice lexeme.span = p.right.source.slice lexeme'.span
  range : p.Ranges lexeme.span lexeme'.span

/-- Trees of the same form over such tokens. -/
abbrev Trees : Tree → Tree → Prop := Tree.Matches p.Lexemes p.Ranges

variable {p}

/-- What does not depend on the look is the same for what looks alike. -/
theorem Alike.apply_eq {α β : Type} {seen : View → α → α} {f : α → β}
    (hf : ∀ view x, f (seen view x) = f x) {x y : α} (h : p.Alike seen x y) : f x = f y := by
  rw [← hf p.leftView, h, hf]

/-- Items that look alike one by one are lists that look alike. -/
theorem Alike.map {α : Type} {seen : View → α → α} {xs ys : List α}
    (h : List.Forall₂ (p.Alike seen) xs ys) :
    p.Alike (fun view => List.map (seen view)) xs ys :=
  map_eq_map_of_forall₂ h

/-- Tokens that look alike are equal, or both are placeholders. -/
theorem token_cases {token token' : Token} (h : p.Alike Token.seen token token') :
    token = token' ∨ ∃ label label', token = .placeholder label ∧ token' = .placeholder label' ∧
      p.leftView.label label = p.rightView.label label' := by
  cases token with
  | placeholder label =>
    cases token' with
    | placeholder label' => exact .inr ⟨label, label', rfl, rfl, Token.placeholder.inj h⟩
    | _ => cases h
  | _ =>
    cases token' with
    | placeholder label' => cases h
    | _ => exact .inl h

theorem keepsToken (p : Parallel) : Grammar.KeepsToken p.Lexemes := by
  intro lexeme lexeme' h
  rcases token_cases h.token with hsame | ⟨label, label', hlabel, hlabel', -⟩
  · rw [hsame]
  · rw [hlabel, hlabel']
    rfl

theorem range_of_trees {tree tree' : Tree} (h : p.Trees tree tree') :
    p.Ranges tree.span tree'.span :=
  h.span_rel Lexemes.range

end Parallel

end SqlFront
