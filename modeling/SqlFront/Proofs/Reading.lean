import SqlFront.Grammar.Form
import SqlFront.Proofs.Outcome

/-!
What reading by a form does: it takes tokens off the front of the input, and what it takes stands
in the trees it yields, in the same order. `Form.Yields` forgets the input and keeps which trees a
form can yield; it is taken apart along the form.
-/

namespace SqlFront

namespace Tree

mutual

/-- The tokens of a tree, from the first to the last. -/
def terminals : Tree → List Lexeme
  | leaf lexeme => [lexeme]
  | node _ _ children => terminalsOf children

/-- The tokens of some trees, from the first to the last. -/
def terminalsOf : List Tree → List Lexeme
  | [] => []
  | tree :: trees => terminals tree ++ terminalsOf trees

end

@[simp]
theorem terminalsOf_append (left right : List Tree) :
    terminalsOf (left ++ right) = terminalsOf left ++ terminalsOf right := by
  induction left with
  | nil => rfl
  | cons tree left ih => simp only [List.cons_append, terminalsOf, ih, List.append_assoc]

@[simp]
theorem terminalsOf_ofParts (rule : Rule) (parts : List Tree) :
    terminalsOf [ofParts rule parts] = terminalsOf parts := by
  simp [terminalsOf, ofParts, terminals]

end Tree

namespace Grammar

/-! ### No token is lost -/

/-- What a reader takes off the input stands in its trees, in the same order. -/
def Keeps (reader : Reader) : Prop :=
  ∀ {input trees rest}, reader input = .ok (trees, rest) → Tree.terminalsOf trees ++ rest = input

theorem readToken_eq_ok {accepts : Token → Bool} {wanted : String} {input rest : List Lexeme}
    {trees : List Tree} (h : readToken accepts wanted input = .ok (trees, rest)) :
    ∃ lexeme, accepts lexeme.token ∧ trees = [.leaf lexeme] ∧ input = lexeme :: rest := by
  cases input with
  | nil => cases h
  | cons lexeme input =>
    rcases ite_eq_iff.mp h with ⟨haccepts, h⟩ | ⟨-, h⟩
    · cases h
      exact ⟨lexeme, haccepts, rfl, rfl⟩
    · cases h

/-- A repetition goes on with one more round, or it ends. -/
theorem readWhile_succ_eq_ok {look : Lookahead} {body : Reader} {times : Nat}
    {input rest : List Lexeme} {trees : List Tree}
    (h : readWhile look body (times + 1) input = .ok (trees, rest)) :
    (look.holds input ∧ ∃ first mid more, body input = .ok (first, mid) ∧
      readWhile look body times mid = .ok (more, rest) ∧ trees = first ++ more) ∨
    (look.holds input = false ∧ trees = [] ∧ rest = input) := by
  rw [readWhile] at h
  split at h
  · rename_i hlook
    simp only [bind_eq_ok, pure_eq_ok, Prod.exists, Prod.mk.injEq] at h
    obtain ⟨first, mid, hfirst, more, rest', hmore, rfl, rfl⟩ := h
    exact .inl ⟨hlook, first, mid, more, hfirst, hmore, rfl⟩
  · rename_i hlook
    cases h
    exact .inr ⟨by simpa using hlook, rfl, rfl⟩

theorem readWhile_of_holds {look : Lookahead} {body : Reader} {times : Nat}
    {input mid rest : List Lexeme} {left right : List Tree} (hlook : look.holds input)
    (hround : body input = .ok (left, mid))
    (hmore : readWhile look body times mid = .ok (right, rest)) :
    readWhile look body (times + 1) input = .ok (left ++ right, rest) := by
  rw [readWhile, if_pos hlook, hround]
  simp [hmore]

theorem readWhile_of_not_holds {look : Lookahead} {body : Reader} (times : Nat)
    {input : List Lexeme} (hlook : look.holds input = false) :
    readWhile look body times input = .ok ([], input) := by
  cases times with
  | zero => rfl
  | succ times => rw [readWhile, if_neg (by simp [hlook])]

theorem readWhile_keeps {look : Lookahead} {body : Reader} (hbody : Keeps body) (times : Nat) :
    Keeps (readWhile look body times) := by
  induction times with
  | zero =>
    intro input trees rest h
    cases h
    rfl
  | succ times ih =>
    intro input trees rest h
    rcases readWhile_succ_eq_ok h with ⟨-, first, mid, more, hfirst, hmore, rfl⟩ | ⟨-, rfl, rfl⟩
    · rw [Tree.terminalsOf_append, List.append_assoc, ih hmore, hbody hfirst]
    · rfl

variable {enter : Construct → Reader}

theorem read_seq_eq_ok {first second : Form} {input rest : List Lexeme} {trees : List Tree}
    (h : (Form.seq first second).read enter input = .ok (trees, rest)) :
    ∃ left mid right, first.read enter input = .ok (left, mid) ∧
      second.read enter mid = .ok (right, rest) ∧ trees = left ++ right := by
  simp only [Form.read, bind_eq_ok, pure_eq_ok, Prod.exists, Prod.mk.injEq] at h
  obtain ⟨left, mid, hleft, right, rest', hright, rfl, rfl⟩ := h
  exact ⟨left, mid, right, hleft, hright, rfl⟩

theorem read_seq_of_read {first second : Form} {input mid rest : List Lexeme}
    {left right : List Tree} (hfirst : first.read enter input = .ok (left, mid))
    (hsecond : second.read enter mid = .ok (right, rest)) :
    (Form.seq first second).read enter input = .ok (left ++ right, rest) := by
  rw [Form.read, hfirst]
  simp [hsecond]

@[simp]
theorem holds_single (test : Token → Bool) (input : List Lexeme) :
    Lookahead.holds [test] input = test (current input) := by
  simp [Lookahead.holds]

theorem read_ifAt_eq_ok {look : Lookahead} {yes no : Form} {input rest : List Lexeme}
    {trees : List Tree} (h : (Form.ifAt look yes no).read enter input = .ok (trees, rest)) :
    (look.holds input ∧ yes.read enter input = .ok (trees, rest)) ∨
    (look.holds input = false ∧ no.read enter input = .ok (trees, rest)) := by
  rw [Form.read] at h
  split at h
  · rename_i hlook
    exact .inl ⟨hlook, h⟩
  · rename_i hlook
    exact .inr ⟨by simpa using hlook, h⟩

/-- An extension yields what its first form does, or one node over that and what follows. -/
theorem read_extend_eq_ok {first more : Form} {rule : Token → Token → Option Rule}
    {input rest : List Lexeme} {trees : List Tree}
    (h : (Form.extend first rule more).read enter input = .ok (trees, rest)) :
    first.read enter input = .ok (trees, rest) ∨
    ∃ left mid right production, first.read enter input = .ok (left, mid) ∧
      rule (current mid) (current mid.tail) = some production ∧
      more.read enter mid = .ok (right, rest) ∧
      trees = [Tree.ofParts production (left ++ right)] := by
  simp only [Form.read, bind_eq_ok, Prod.exists] at h
  obtain ⟨left, mid, hleft, h⟩ := h
  split at h
  · cases h
    exact .inl hleft
  · rename_i production hrule
    simp only [bind_eq_ok, pure_eq_ok, Prod.exists, Prod.mk.injEq] at h
    obtain ⟨right, rest', hright, rfl, rfl⟩ := h
    exact .inr ⟨left, mid, right, production, hleft, hrule, hright, rfl⟩

/-- An extension that never stops short yields one node. -/
theorem read_always_eq_ok {first more : Form} {rule : Token → Token → Rule}
    {input rest : List Lexeme} {trees : List Tree}
    (h : (Form.extend first (fun token next => some (rule token next)) more).read enter input =
      .ok (trees, rest)) :
    ∃ left mid right, first.read enter input = .ok (left, mid) ∧
      more.read enter mid = .ok (right, rest) ∧
      trees = [Tree.ofParts (rule (current mid) (current mid.tail)) (left ++ right)] := by
  simp only [Form.read, bind_eq_ok, pure_eq_ok, Prod.exists, Prod.mk.injEq] at h
  obtain ⟨left, mid, hleft, right, rest', hright, rfl, rfl⟩ := h
  exact ⟨left, mid, right, hleft, hright, rfl⟩

theorem read_node_eq_ok {rule : Rule} {form : Form} {input rest : List Lexeme} {trees : List Tree}
    (h : (Form.node rule form).read enter input = .ok (trees, rest)) :
    ∃ parts, form.read enter input = .ok (parts, rest) ∧ trees = [Tree.ofParts rule parts] := by
  obtain ⟨_, _, right, hleft, hright, rfl⟩ := read_always_eq_ok h
  cases hleft
  exact ⟨right, hright, rfl⟩

theorem read_node_of_read {rule : Rule} {form : Form} {input rest : List Lexeme}
    {parts : List Tree} (h : form.read enter input = .ok (parts, rest)) :
    (Form.node rule form).read enter input = .ok ([Tree.ofParts rule parts], rest) := by
  simp [Form.node, Form.read, h]

/-- **Reading by a form loses no token** and changes no order, when the constructs inside do
not. -/
theorem read_keeps (henter : ∀ construct, Keeps (enter construct)) (form : Form) :
    Keeps (form.read enter) := by
  induction form with
  | empty =>
    intro input trees rest h
    cases h
    rfl
  | token accepts wanted =>
    intro input trees rest h
    obtain ⟨lexeme, -, rfl, rfl⟩ := readToken_eq_ok h
    rfl
  | refuse cause =>
    intro input trees rest h
    cases h
  | seq first second ihfirst ihsecond =>
    intro input trees rest h
    obtain ⟨left, mid, right, hleft, hright, rfl⟩ := read_seq_eq_ok h
    rw [Tree.terminalsOf_append, List.append_assoc, ihsecond hright, ihfirst hleft]
  | ifAt look yes no ihyes ihno =>
    intro input trees rest h
    rcases read_ifAt_eq_ok h with ⟨-, h⟩ | ⟨-, h⟩
    · exact ihyes h
    · exact ihno h
  | whileAt look body ih =>
    intro input trees rest h
    exact readWhile_keeps ih _ h
  | extend first rule more ihfirst ihmore =>
    intro input trees rest h
    rcases read_extend_eq_ok h with h | ⟨left, mid, right, production, hleft, -, hright, rfl⟩
    · exact ihfirst h
    · rw [Tree.terminalsOf_ofParts, Tree.terminalsOf_append, List.append_assoc, ihmore hright,
        ihfirst hleft]
  | deeper construct =>
    intro input trees rest h
    exact henter construct h

theorem enter_keeps (bodies : Construct → Form) (limit left : Nat) (construct : Construct) :
    Keeps (Grammar.enter bodies limit left construct) := by
  induction left generalizing construct with
  | zero =>
    intro input trees rest h
    cases h
  | succ left ih => exact read_keeps ih (bodies construct)

/-! ### The trees that a form can yield -/

/-- The form can yield these trees. -/
def Form.Yields (enter : Construct → Reader) (form : Form) (trees : List Tree) : Prop :=
  ∃ input rest, form.read enter input = .ok (trees, rest)

namespace Form.Yields

variable {form first second yes no body : Form} {look : Lookahead} {trees : List Tree}

theorem empty (h : Form.empty.Yields enter trees) : trees = [] := by
  obtain ⟨input, rest, h⟩ := h
  cases h
  rfl

theorem token {accepts : Token → Bool} {wanted : String}
    (h : (Form.token accepts wanted).Yields enter trees) :
    ∃ lexeme, trees = [.leaf lexeme] ∧ accepts lexeme.token := by
  obtain ⟨input, rest, h⟩ := h
  obtain ⟨lexeme, haccepts, htrees, -⟩ := readToken_eq_ok h
  exact ⟨lexeme, htrees, haccepts⟩

theorem refuse {cause : Token → SyntaxCause} (h : (Form.refuse cause).Yields enter trees) :
    False := by
  obtain ⟨input, rest, h⟩ := h
  cases h

theorem seq (h : (Form.seq first second).Yields enter trees) :
    ∃ left right, first.Yields enter left ∧ second.Yields enter right ∧ trees = left ++ right := by
  obtain ⟨input, rest, h⟩ := h
  obtain ⟨left, mid, right, hleft, hright, htrees⟩ := read_seq_eq_ok h
  exact ⟨left, right, ⟨input, mid, hleft⟩, ⟨mid, rest, hright⟩, htrees⟩

theorem ifAt (h : (Form.ifAt look yes no).Yields enter trees) :
    yes.Yields enter trees ∨ no.Yields enter trees := by
  obtain ⟨input, rest, h⟩ := h
  rcases read_ifAt_eq_ok h with ⟨-, h⟩ | ⟨-, h⟩
  · exact .inl ⟨input, rest, h⟩
  · exact .inr ⟨input, rest, h⟩

theorem optional (h : (Form.optional look form).Yields enter trees) :
    form.Yields enter trees ∨ trees = [] :=
  h.ifAt.imp_right Yields.empty

/-- A repetition yields the trees of its rounds. -/
theorem whileAt (h : (Form.whileAt look body).Yields enter trees) :
    ∃ rounds : List (List Tree),
      (∀ round ∈ rounds, body.Yields enter round) ∧ trees = rounds.flatten := by
  obtain ⟨input, rest, h⟩ := h
  rw [Form.read] at h
  generalize input.length = times at h
  induction times generalizing input trees with
  | zero =>
    cases h
    exact ⟨[], by simp, rfl⟩
  | succ times ih =>
    rcases readWhile_succ_eq_ok h with ⟨-, round, mid, more, hround, hmore, rfl⟩ | ⟨-, rfl, -⟩
    · obtain ⟨rounds, hrounds, rfl⟩ := ih mid hmore
      exact ⟨round :: rounds, List.forall_mem_cons.mpr ⟨⟨input, mid, hround⟩, hrounds⟩, rfl⟩
    · exact ⟨[], by simp, rfl⟩

theorem extend {rule : Token → Token → Option Rule}
    (h : (Form.extend first rule second).Yields enter trees) :
    first.Yields enter trees ∨
    ∃ token next production left right, rule token next = some production ∧
      first.Yields enter left ∧ second.Yields enter right ∧
      trees = [Tree.ofParts production (left ++ right)] := by
  obtain ⟨input, rest, h⟩ := h
  rcases read_extend_eq_ok h with h | ⟨left, mid, right, production, hleft, hrule, hright, htrees⟩
  · exact .inl ⟨input, rest, h⟩
  · exact .inr ⟨_, _, production, left, right, hrule, ⟨input, mid, hleft⟩, ⟨mid, rest, hright⟩,
      htrees⟩

theorem always {rule : Token → Token → Rule}
    (h : (Form.extend first (fun token next => some (rule token next)) second).Yields enter trees) :
    ∃ token next left right, first.Yields enter left ∧ second.Yields enter right ∧
      trees = [Tree.ofParts (rule token next) (left ++ right)] := by
  obtain ⟨input, rest, h⟩ := h
  obtain ⟨left, mid, right, hleft, hright, rfl⟩ := read_always_eq_ok h
  exact ⟨_, _, left, right, ⟨input, mid, hleft⟩, ⟨mid, rest, hright⟩, rfl⟩

end Form.Yields

/-! ### What holds of each tree -/

/-- Each tree that the form yields has a property. -/
def Form.Each (enter : Construct → Reader) (P : Tree → Prop) (form : Form) : Prop :=
  ∀ trees, form.Yields enter trees → ∀ tree ∈ trees, P tree

namespace Form.Each

variable {P : Tree → Prop} {form first second yes no body : Form} {look : Lookahead}

theorem empty : Form.empty.Each enter P := by
  intro trees hyields
  simp [hyields.empty]

theorem token {accepts : Token → Bool} {wanted : String}
    (h : ∀ lexeme : Lexeme, accepts lexeme.token → P (.leaf lexeme)) :
    (Form.token accepts wanted).Each enter P := by
  intro trees hyields tree hmem
  obtain ⟨lexeme, rfl, haccepts⟩ := hyields.token
  obtain rfl := List.mem_singleton.mp hmem
  exact h lexeme haccepts

theorem refuse {cause : Token → SyntaxCause} : (Form.refuse cause).Each enter P :=
  fun _ hyields => hyields.refuse.elim

/-- The trees of two forms, one after the other. -/
theorem parts (hfirst : first.Each enter P) (hsecond : second.Each enter P)
    {left right : List Tree} (hleft : first.Yields enter left)
    (hright : second.Yields enter right) :
    ∀ tree ∈ left ++ right, P tree := by
  intro tree hmem
  rcases List.mem_append.mp hmem with hmem | hmem
  · exact hfirst left hleft tree hmem
  · exact hsecond right hright tree hmem

theorem seq (hfirst : first.Each enter P) (hsecond : second.Each enter P) :
    (Form.seq first second).Each enter P := by
  intro trees hyields
  obtain ⟨left, right, hleft, hright, rfl⟩ := hyields.seq
  exact hfirst.parts hsecond hleft hright

theorem ifAt (hyes : yes.Each enter P) (hno : no.Each enter P) :
    (Form.ifAt look yes no).Each enter P := by
  intro trees hyields
  rcases hyields.ifAt with hyields | hyields
  · exact hyes trees hyields
  · exact hno trees hyields

theorem optional (h : form.Each enter P) : (Form.optional look form).Each enter P :=
  .ifAt h .empty

theorem whileAt (h : body.Each enter P) : (Form.whileAt look body).Each enter P := by
  intro trees hyields tree hmem
  obtain ⟨rounds, hrounds, rfl⟩ := hyields.whileAt
  obtain ⟨round, hround, hmem⟩ := List.mem_flatten.mp hmem
  exact h round (hrounds round hround) tree hmem

/-- A node has a property that nodes get from their parts. -/
theorem node {rule : Rule} (h : form.Each enter P)
    (hnode : ∀ parts, form.Yields enter parts → (∀ part ∈ parts, P part) →
      P (Tree.ofParts rule parts)) :
    (Form.node rule form).Each enter P := by
  intro trees hyields tree hmem
  obtain ⟨_, _, left, right, hleft, hright, rfl⟩ := hyields.always
  obtain rfl := hleft.empty
  obtain rfl := List.mem_singleton.mp hmem
  exact hnode right hright (h right hright)

end Form.Each

end Grammar

end SqlFront
