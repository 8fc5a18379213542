import SqlFront.Parse
import SqlFront.Proofs.ParserBatch
import SqlFront.Proofs.Pieces
import SqlFront.Proofs.StatementShape

/-!
The parse tree of a batch holds the whole text: its tokens are those of the lexer, in the same
order, and every node spans exactly the tokens under it.
-/

namespace SqlFront

namespace Tree

/-- A tree lies inside another one: it is that one, or it lies inside one of its parts. -/
inductive Inside (inner : Tree) : Tree → Prop where
  | self : Inside inner inner
  | part {rule : Rule} {span : Span} {children : List Tree} {child : Tree} :
      child ∈ children → Inside inner child → Inside inner (.node rule span children)

/-- The range from the first of some tokens to the last. -/
def Bounds (lexemes : List Lexeme) (span : Span) : Prop :=
  ∃ first last, lexemes.head? = some first ∧ lexemes.getLast? = some last ∧
    span = ⟨first.span.start, last.span.stop⟩

/-- Ranges in increasing order, none of them empty and none overlapping another one. -/
structure InOrder (trees : List Tree) : Prop where
  filled : ∀ tree ∈ trees, tree.span.start < tree.span.stop
  apart : trees.Pairwise fun left right => left.span.stop ≤ right.span.start

theorem terminals_infix_of_mem {child : Tree} {children : List Tree} (h : child ∈ children) :
    child.terminals <:+: terminalsOf children := by
  induction children with
  | nil => cases h
  | cons first children ih =>
    rw [terminalsOf]
    rcases List.mem_cons.mp h with rfl | h
    · exact (List.prefix_append _ _).isInfix
    · exact (ih h).trans (List.suffix_append _ _).isInfix

theorem terminals_sublist_of_mem {child : Tree} {children : List Tree} (h : child ∈ children) :
    child.terminals.Sublist (terminalsOf children) :=
  (terminals_infix_of_mem h).sublist

theorem forall_mem_terminalsOf {p : Lexeme → Prop} {trees : List Tree}
    (h : ∀ tree ∈ trees, ∀ lexeme ∈ tree.terminals, p lexeme) :
    ∀ lexeme ∈ terminalsOf trees, p lexeme := by
  induction trees with
  | nil => simp [terminalsOf]
  | cons first trees ih =>
    intro lexeme hmem
    rw [terminalsOf] at hmem
    rcases List.mem_append.mp hmem with hmem | hmem
    · exact h first (by simp) lexeme hmem
    · exact ih (fun tree hmem => h tree (by simp [hmem])) lexeme hmem

/-- The tokens of a tree stand beside each other among those of a tree that it lies inside. -/
theorem Inside.terminals_infix {inner outer : Tree} (h : inner.Inside outer) :
    inner.terminals <:+: outer.terminals := by
  induction h with
  | self => exact List.infix_rfl
  | part hmem _ ih =>
    rw [terminals]
    exact ih.trans (terminals_infix_of_mem hmem)

theorem Inside.terminals_sublist {inner outer : Tree} (h : inner.Inside outer) :
    inner.terminals.Sublist outer.terminals :=
  h.terminals_infix.sublist

theorem Inside.wellFormed {inner outer : Tree} (h : inner.Inside outer)
    (houter : outer.WellFormed) : inner.WellFormed := by
  induction h with
  | self => exact houter
  | part hmem hinside ih =>
    cases houter with
    | node hspan hshape hchildren => exact ih (hchildren _ hmem)

end Tree

theorem Spaced.sublist {offset : Nat} {some all : List Lexeme} (h : Spaced offset all)
    (hsub : some.Sublist all) : Spaced offset some :=
  ⟨fun lexeme hmem => h.after lexeme (hsub.subset hmem),
    fun lexeme hmem => h.filled lexeme (hsub.subset hmem), h.apart.sublist hsub,
    fun lexeme hmem => h.proper lexeme (hsub.subset hmem)⟩

namespace Tree

/-- The range of tokens that lie apart is not empty. -/
theorem Bounds.filled {offset : Nat} {lexemes : List Lexeme} {span : Span}
    (h : Bounds lexemes span) (hspaced : Spaced offset lexemes) : span.start < span.stop := by
  obtain ⟨first, last, hfirst, hlast, rfl⟩ := h
  obtain ⟨rest, rfl⟩ := List.head?_eq_some_iff.mp hfirst
  have hmem : last ∈ first :: rest := List.mem_of_getLast? hlast
  have hfilled := hspaced.filled
  rcases List.mem_cons.mp hmem with rfl | hmem
  · exact hfilled last (by simp)
  · have hapart := (List.pairwise_cons.mp hspaced.apart).1 last hmem
    have hfirst := hfilled first (by simp)
    have hlast := hfilled last (by simp [hmem])
    simp only
    omega

/-- The parts of a node are in order when each of them spans its own tokens. -/
theorem inOrder_of_bounds {offset : Nat} {trees : List Tree}
    (hbounds : ∀ tree ∈ trees, Bounds tree.terminals tree.span)
    (hspaced : Spaced offset (terminalsOf trees)) : InOrder trees := by
  constructor
  · intro tree hmem
    exact (hbounds tree hmem).filled (hspaced.sublist (terminals_sublist_of_mem hmem))
  induction trees with
  | nil => exact .nil
  | cons first trees ih =>
    rw [terminalsOf] at hspaced
    have hrest := ih (fun tree hmem => hbounds tree (by simp [hmem]))
      (hspaced.sublist (List.sublist_append_right _ _))
    refine .cons ?_ hrest
    intro other hmem
    obtain ⟨_, last, -, hlast, hspan⟩ := hbounds first (by simp)
    obtain ⟨start, _, hstart, -, hother⟩ := hbounds other (by simp [hmem])
    rw [hspan, hother]
    refine (List.pairwise_append.mp hspaced.apart).2.2 last (List.mem_of_getLast? hlast) start ?_
    exact (terminals_sublist_of_mem hmem).subset (List.mem_of_head? hstart)

/-- Trees in order are covered from the start of the first to the end of the last. -/
theorem cover_eq_of_inOrder {first last : Tree} {trees : List Tree} (h : InOrder trees)
    (hfirst : trees.head? = some first) (hlast : trees.getLast? = some last) :
    cover trees = ⟨first.span.start, last.span.stop⟩ := by
  obtain ⟨rest, rfl⟩ := List.head?_eq_some_iff.mp hfirst
  have hjoin : cover (first :: rest) = first.span.join last.span := by
    simp only [cover, hlast, List.head?_cons]
  rw [hjoin, Span.join]
  have hmem : last ∈ first :: rest := List.mem_of_getLast? hlast
  rcases List.mem_cons.mp hmem with rfl | hmem
  · simp
  · have hapart := (List.pairwise_cons.mp h.apart).1 last hmem
    have hleft := h.filled first (by simp)
    have hright := h.filled last (by simp [hmem])
    congr 1 <;> omega

/-- Trees that span their own tokens are covered by the range of all their tokens. -/
theorem bounds_cover {offset : Nat} {trees : List Tree} (hne : trees ≠ [])
    (hbounds : ∀ tree ∈ trees, Bounds tree.terminals tree.span)
    (hspaced : Spaced offset (terminalsOf trees)) :
    Bounds (terminalsOf trees) (cover trees) := by
  obtain ⟨first, rest, rfl⟩ := List.exists_cons_of_ne_nil hne
  obtain ⟨before, last, hsplit⟩ : ∃ before last, first :: rest = before ++ [last] :=
    ⟨_, _, (List.dropLast_append_getLast (by simp)).symm⟩
  have hcover := cover_eq_of_inOrder (inOrder_of_bounds hbounds hspaced) rfl
    (by rw [hsplit]; simp : (first :: rest).getLast? = some last)
  obtain ⟨start, _, hstart, -, hfirst⟩ := hbounds first (by simp)
  obtain ⟨_, stop, -, hstop, hlast⟩ := hbounds last (by rw [hsplit]; simp)
  refine ⟨start, stop, ?_, ?_, by rw [hcover, hfirst, hlast]⟩
  · rw [terminalsOf, List.head?_append, hstart]
    rfl
  · rw [hsplit, terminalsOf_append, terminalsOf, terminalsOf, List.append_nil,
      List.getLast?_append, hstop]
    rfl

theorem WellFormed.terminals_ne_nil {tree : Tree} (h : tree.WellFormed) : tree.terminals ≠ [] := by
  induction h with
  | leaf => simp [terminals]
  | @node rule span children hspan hshape hchildren ih =>
    obtain ⟨first, rest, rfl⟩ := List.exists_cons_of_ne_nil hshape.ne_nil
    rw [terminals, terminalsOf]
    exact List.append_ne_nil_of_left_ne_nil (ih first (by simp)) _

theorem WellFormed.proper {tree : Tree} (h : tree.WellFormed) :
    ∀ lexeme ∈ tree.terminals, lexeme.token ≠ .eof := by
  induction h with
  | leaf hproper => simpa [terminals] using hproper
  | @node rule span children hspan hshape hchildren ih =>
    rw [terminals]
    exact forall_mem_terminalsOf ih

/-- **A well-formed tree spans exactly its tokens**, as long as these lie apart in the text. -/
theorem WellFormed.bounds {offset : Nat} {tree : Tree} (h : tree.WellFormed)
    (hspaced : Spaced offset tree.terminals) : Bounds tree.terminals tree.span := by
  induction h with
  | leaf => exact ⟨_, _, rfl, rfl, rfl⟩
  | node hspan hshape hchildren ih =>
    rw [terminals] at hspaced ⊢
    rw [span, hspan]
    refine bounds_cover hshape.ne_nil (fun child hmem => ?_) hspaced
    exact ih child hmem (hspaced.sublist (terminals_sublist_of_mem hmem))

end Tree

/-! ### Reading to the end -/

namespace Grammar

/-- A repetition whose rounds take tokens ends at the first place where it cannot go on. -/
theorem holds_after_readWhile {look : Lookahead} {body : Reader} (hnil : look.holds [] = false)
    (hbody : ∀ {input trees rest}, body input = .ok (trees, rest) → rest.length < input.length)
    {times : Nat} {input rest : List Lexeme} {trees : List Tree} (htimes : input.length ≤ times)
    (h : readWhile look body times input = .ok (trees, rest)) : look.holds rest = false := by
  induction times generalizing input trees with
  | zero =>
    cases h
    obtain rfl : rest = [] := List.length_eq_zero_iff.mp (Nat.le_zero.mp htimes)
    exact hnil
  | succ times ih =>
    rcases readWhile_succ_eq_ok h with ⟨-, first, mid, more, hfirst, hmore, -⟩ | ⟨hlook, -, rfl⟩
    · have hshort := hbody hfirst
      exact ih (by omega) hmore
    · exact hlook

theorem length_lt_of_keeps {reader : Reader} (hkeeps : Keeps reader) {input rest : List Lexeme}
    {trees : List Tree} (h : reader input = .ok (trees, rest))
    (hne : Tree.terminalsOf trees ≠ []) : rest.length < input.length := by
  have hpos := List.length_pos_iff.mpr hne
  rw [← hkeeps h, List.length_append]
  omega

variable {dialect : Dialect} {levels : Nat}

/-- A statement takes tokens, and so does each round of a batch. -/
theorem length_lt_of_read_statement {more : Form} {input rest : List Lexeme} {trees : List Tree}
    (h : (Form.seq (statement dialect) more).read
      (Grammar.enter (bodies dialect) levels levels) input = .ok (trees, rest)) :
    rest.length < input.length := by
  have hkeeps := read_keeps (enter_keeps (bodies dialect) levels levels)
  refine length_lt_of_keeps (hkeeps _) h ?_
  obtain ⟨left, mid, right, hleft, -, rfl⟩ := read_seq_eq_ok h
  obtain ⟨tree, rfl, -, hformed⟩ :=
    statement_makes dialect (regular_enter dialect levels levels) left ⟨input, mid, hleft⟩
  exact List.append_ne_nil_of_left_ne_nil hformed.terminals_ne_nil _

/-- A batch is read up to the end of the text. -/
theorem current_of_readBatch {input rest : List Lexeme} {trees : List Tree}
    (h : readForm dialect levels (batch dialect) input = .ok (trees, rest)) :
    current rest = .eof := by
  obtain ⟨_, mid, _, -, hstatements, rfl⟩ := read_seq_eq_ok h
  rw [Form.read] at hstatements
  have hend := holds_after_readWhile rfl length_lt_of_read_statement (Nat.le_refl _) hstatements
  simpa using hend

/-- What is left of a text after a batch is its end. -/
theorem eq_of_append_eq {read rest tokens : List Lexeme} {last : Lexeme} (hlast : last.token = .eof)
    (hread : ∀ lexeme ∈ read, lexeme.token ≠ .eof)
    (htokens : ∀ lexeme ∈ tokens, lexeme.token ≠ .eof) (hrest : current rest = .eof)
    (h : read ++ rest = tokens ++ [last]) : read = tokens := by
  rcases List.append_eq_append_iff.mp h with ⟨more, rfl, hmore⟩ | ⟨more, rfl, hmore⟩
  · cases more with
    | nil => simp
    | cons lexeme more =>
      rw [hmore] at hrest
      exact absurd hrest (htokens lexeme (by simp))
  · cases more with
    | nil => simp
    | cons lexeme more =>
      obtain ⟨rfl, -⟩ : last = lexeme ∧ [] = more ++ rest := by simpa using hmore
      exact absurd hlast (hread last (by simp))

end Grammar

namespace Config

open SqlFront.Tree Grammar

/-- A parse tree is the batch of what the forms read from the tokens of the text. -/
theorem parseTree_eq_ok {config : Config} {source : Source} {tree : Tree}
    (h : config.parseTree source = .ok tree) :
    ∃ lexemes parts rest, config.lexer.lexemes source = .ok lexemes ∧
      readForm config.dialect config.maxNestingDepth (batch config.dialect) lexemes =
        .ok (parts, rest) ∧ tree = ofParts .batch parts := by
  simp only [parseTree, readBatch_eq, mapError_eq_ok, bind_eq_ok, map_eq_ok, Prod.exists] at h
  obtain ⟨lexemes, hlexemes, parts, rest, hread, rfl⟩ := h
  exact ⟨lexemes, parts, rest, hlexemes, hread, rfl⟩

/-- The parts of a batch stand for the tokens of the text up to its end. -/
theorem lexemes_of_readForm {config : Config} {source : Source} {lexemes rest : List Lexeme}
    {parts : List Tree} (hlexemes : config.lexer.lexemes source = .ok lexemes)
    (hread : readForm config.dialect config.maxNestingDepth (batch config.dialect) lexemes =
      .ok (parts, rest)) :
    ∃ stop, lexemes = terminalsOf parts ++ [⟨.eof, ⟨stop, stop⟩⟩] ∧
      Spaced 0 (terminalsOf parts) := by
  obtain ⟨tokens, stop, rfl, hspaced⟩ := config.lexer.lexemes_spaced hlexemes
  have hregular := regular_enter config.dialect config.maxNestingDepth config.maxNestingDepth
  have hformed := batch_sound hregular parts ⟨_, rest, hread⟩
  have hproper := forall_mem_terminalsOf fun part hmem => (hformed part hmem).proper
  have hkeeps := read_keeps (enter_keeps (bodies config.dialect) _ _) _ hread
  obtain rfl : terminalsOf parts = tokens :=
    eq_of_append_eq rfl hproper hspaced.proper (current_of_readBatch hread) hkeeps
  exact ⟨stop, rfl, hspaced⟩

/-- **The parse tree of a text is lossless.** Read from left to right, its tokens are those of the
lexer up to the end of the text. Every node with parts spans from the start of the first token under
it to the end of the last one, and its parts follow each other without overlapping.

The productions put each leaf among the parts themselves and could leave one out or put it at
another place. None of them does, as they yield the trees of their forms. -/
theorem parseTree_lossless {config : Config} {source : Source} {tree : Tree}
    (h : config.parseTree source = .ok tree) :
    (∃ stop, tokenize config.lexer source = .ok (tree.terminals ++ [⟨.eof, ⟨stop, stop⟩⟩])) ∧
    (∀ lexeme ∈ tree.terminals, lexeme.token ≠ .eof) ∧
    tree.hasRule .batch ∧
    ∀ rule span children, (Tree.node rule span children).Inside tree → children ≠ [] →
      Bounds (terminalsOf children) span ∧ InOrder children := by
  obtain ⟨lexemes, parts, rest, hlexemes, hread, rfl⟩ := parseTree_eq_ok h
  obtain ⟨stop, rfl, hspaced⟩ := lexemes_of_readForm hlexemes hread
  have hregular := regular_enter config.dialect config.maxNestingDepth config.maxNestingDepth
  have hformed := batch_sound hregular parts ⟨_, rest, hread⟩
  have hproper := forall_mem_terminalsOf fun part hmem => (hformed part hmem).proper
  -- the parts of every node, those of the batch as well, span their own tokens
  have hnode {children : List Tree} (hne : children ≠ [])
      (hchildren : ∀ child ∈ children, child.WellFormed)
      (hsub : (terminalsOf children).Sublist (terminalsOf parts)) :
      Bounds (terminalsOf children) (cover children) ∧ InOrder children := by
    have hbounds : ∀ child ∈ children, Bounds child.terminals child.span := by
      intro child hmem
      exact (hchildren child hmem).bounds
        (hspaced.sublist ((terminals_sublist_of_mem hmem).trans hsub))
    exact ⟨bounds_cover hne hbounds (hspaced.sublist hsub),
      inOrder_of_bounds hbounds (hspaced.sublist hsub)⟩
  refine ⟨⟨stop, ?_⟩, hproper, rfl, fun rule span children hinside hne => ?_⟩
  · rw [tokenize, hlexemes]
    rfl
  have hsub : (terminalsOf children).Sublist (terminalsOf parts) := hinside.terminals_sublist
  cases hinside with
  | self => exact hnode hne hformed hsub
  | part hmem hinside =>
    cases hinside.wellFormed (hformed _ hmem) with
    | node hspan hshape hchildren =>
      subst hspan
      exact hnode hne hchildren hsub

/-- `USE a` has a tree, which holds both of its words. -/
theorem parseTree_lossless_of_use :
    let config := ofDialect .mysql
    let source := ['U', 'S', 'E', ' ', 'a']
    ∃ tree, config.parseTree source = .ok tree ∧
      tree.terminals = [⟨.keyword .USE, ⟨0, 3⟩⟩, ⟨.name "a", ⟨4, 5⟩⟩] ∧
      ∃ stop, tokenize config.lexer source = .ok (tree.terminals ++ [⟨.eof, ⟨stop, stop⟩⟩]) := by
  intro config source
  suffices kept : ∀ tree, config.parseTree source = .ok tree →
      ∃ stop, tokenize config.lexer source = .ok (tree.terminals ++ [⟨.eof, ⟨stop, stop⟩⟩]) from
    ⟨_, rfl, rfl, kept _ rfl⟩
  intro tree parsed
  exact (parseTree_lossless parsed).1

end Config

end SqlFront
