import SqlFront.Grammar.Statement
import SqlFront.Proofs.Reading

/-!
What reading looks at: the part that a token can play, and nothing behind the end of a statement.

`Token.role` forgets the labels of placeholders, and what it is that ends a statement. A form is
`Form.Plain` when its tests do not tell tokens of one role apart, and none of them goes on beyond
such an end. Then two texts that have tokens of the same roles up to the ends of their statements
are read in the same way up to there, whatever comes after these ends and however many levels of
nesting are left beyond those that the first text needs.
-/

namespace SqlFront

/-- The token without the label of a placeholder. -/
def Token.unlabelled : Token → Token
  | .placeholder _ => .placeholder ""
  | token => token

theorem Token.unlabelled_eq_semicolon {token : Token} :
    token.unlabelled = .symbol .semicolon ↔ token = .symbol .semicolon := by
  cases token <;> simp [unlabelled]

/-- What the grammar distinguishes of a token. -/
def Token.role : Token → Token
  | .placeholder _ => .placeholder ""
  | .symbol .semicolon => .eof
  | token => token

theorem Token.role_of_unlabelled {token token' : Token}
    (h : token.unlabelled = token'.unlabelled) : token.role = token'.role := by
  have hrole (token : Token) : token.unlabelled.role = token.role := by
    cases token <;> rfl
  rw [← hrole, h, hrole]

/-- Trees of the same form. Their tokens and the ranges of their nodes are related one by one. -/
inductive Tree.Matches (P : Lexeme → Lexeme → Prop) (S : Span → Span → Prop) :
    Tree → Tree → Prop where
  | leaf {lexeme lexeme' : Lexeme} : P lexeme lexeme' → Matches P S (.leaf lexeme) (.leaf lexeme')
  | node {rule : Rule} {span span' : Span} {children children' : List Tree} : S span span' →
      List.Forall₂ (Matches P S) children children' →
      Matches P S (.node rule span children) (.node rule span' children')

namespace Grammar

/-! ### Forms that do not look beyond a statement -/

/-- The test does not tell tokens of one role apart. -/
def PlainTest (test : Token → Bool) : Prop := ∀ token, test token.role = test token

/-- Each test but the last one fails at the end of a statement. -/
def Lookahead.Plain : Lookahead → Prop
  | [] => True
  | [test] => PlainTest test
  | test :: tests => (PlainTest test ∧ test .eof = false) ∧ Lookahead.Plain tests

/-- The choice does not tell tokens of one role apart, and looks at no token behind the end of a
statement. -/
structure PlainRule (rule : Token → Token → Option Rule) : Prop where
  role : ∀ token next, rule token.role next.role = rule token next
  ends : ∀ next, rule .eof next = rule .eof .eof

/-- The form reads at least one token. -/
def Form.Consumes : Form → Prop
  | .empty | .whileAt _ _ | .deeper _ => False
  | .token _ _ | .refuse _ => True
  | .seq first second => first.Consumes ∨ second.Consumes
  | .ifAt _ yes no => yes.Consumes ∧ no.Consumes
  | .extend first rule rest =>
      first.Consumes ∨ (rest.Consumes ∧ ∀ token next, (rule token next).isSome)

/-- The form looks at the roles of tokens only, and stops at the end of a statement. -/
def Form.Plain : Form → Prop
  | .empty | .refuse _ | .deeper _ => True
  | .token accepts _ => PlainTest accepts ∧ accepts .eof = false
  | .seq first second => first.Plain ∧ second.Plain
  | .ifAt look yes no => look.Plain ∧ yes.Plain ∧ no.Plain
  | .whileAt look body => (look.Plain ∧ look.holds [] = false) ∧ body.Consumes ∧ body.Plain
  | .extend first rule rest => PlainRule rule ∧ first.Plain ∧ rest.Plain

theorem PlainRule.of_role {rule : Token → Token → Option Rule} (h : PlainRule rule)
    {token token' next next' : Token} (htoken : token.role = token'.role)
    (hnext : next.role = next'.role) : rule token next = rule token' next' := by
  rw [← h.role, htoken, hnext, h.role]

theorem Form.Consumes.length_lt {enter : Construct → Reader}
    (hkeeps : ∀ construct, Keeps (enter construct)) {form : Form} (h : form.Consumes)
    {input rest : List Lexeme} {trees : List Tree}
    (hread : form.read enter input = .ok (trees, rest)) : rest.length < input.length := by
  have hle {form : Form} {input rest : List Lexeme} {trees : List Tree}
      (hread : form.read enter input = .ok (trees, rest)) : rest.length ≤ input.length := by
    rw [← read_keeps hkeeps form hread, List.length_append]
    exact Nat.le_add_left _ _
  induction form generalizing input rest trees with
  | empty | whileAt | deeper => exact h.elim
  | token accepts wanted =>
    obtain ⟨lexeme, -, -, rfl⟩ := readToken_eq_ok hread
    exact Nat.lt_succ_self _
  | refuse cause => cases hread
  | seq first second ihfirst ihsecond =>
    obtain ⟨left, mid, right, hleft, hright, -⟩ := read_seq_eq_ok hread
    rcases h with h | h
    · exact Nat.lt_of_le_of_lt (hle hright) (ihfirst h hleft)
    · exact Nat.lt_of_lt_of_le (ihsecond h hright) (hle hleft)
  | ifAt look yes no ihyes ihno =>
    rcases read_ifAt_eq_ok hread with ⟨-, hread⟩ | ⟨-, hread⟩
    · exact ihyes h.1 hread
    · exact ihno h.2 hread
  | extend first rule more ihfirst ihmore =>
    simp only [Form.read, bind_eq_ok, Prod.exists] at hread
    obtain ⟨left, mid, hleft, hread⟩ := hread
    split at hread
    · rename_i hnone
      cases hread
      rcases h with h | ⟨-, hsome⟩
      · exact ihfirst h hleft
      · have hrule := hsome (current rest) (current rest.tail)
        rw [hnone] at hrule
        cases hrule
    · simp only [bind_eq_ok, pure_eq_ok, Prod.exists, Prod.mk.injEq] at hread
      obtain ⟨right, rest, hright, -, rfl⟩ := hread
      rcases h with h | ⟨h, -⟩
      · exact Nat.lt_of_le_of_lt (hle hright) (ihfirst h hleft)
      · exact Nat.lt_of_lt_of_le (ihmore h hright) (hle hleft)

/-! ### Tokens up to the end of a statement -/

theorem endsStatement_iff {token : Token} : endsStatement token ↔ token.role = .eof := by
  unfold endsStatement Token.role
  split
  · simp
  · simp
  · rename_i hsemicolon heof
    split <;> simp_all

theorem role_of_endsStatement {token : Token} (h : endsStatement token) : token.role = .eof :=
  endsStatement_iff.mp h

section

variable {P : Lexeme → Lexeme → Prop} {read read' ends ends' : List Lexeme}

/-- Tokens that are related differ in the labels of placeholders only. -/
def KeepsToken (P : Lexeme → Lexeme → Prop) : Prop :=
  ∀ {lexeme lexeme'}, P lexeme lexeme' → lexeme.token.unlabelled = lexeme'.token.unlabelled

theorem KeepsToken.role (hP : KeepsToken P) {lexeme lexeme' : Lexeme} (h : P lexeme lexeme') :
    lexeme.token.role = lexeme'.token.role :=
  Token.role_of_unlabelled (hP h)

theorem role_current_append (hP : KeepsToken P) (hread : List.Forall₂ P read read')
    (hends : endsStatement (current ends)) (hends' : endsStatement (current ends')) :
    (current (read ++ ends)).role = (current (read' ++ ends')).role := by
  cases hread with
  | nil => exact (role_of_endsStatement hends).trans (role_of_endsStatement hends').symm
  | cons hfirst _ => exact hP.role hfirst

/-- At the end of a statement, tests pass as they do at the end of the text. -/
theorem Lookahead.Plain.holds_ends {look : Lookahead} (h : look.Plain)
    (hends : endsStatement (current ends)) : look.holds ends = look.holds [] := by
  have htest {test : Token → Bool} (hplain : PlainTest test) :
      test (current ends) = test .eof := by
    rw [← hplain, role_of_endsStatement hends]
  cases look with
  | nil => rfl
  | cons test tests =>
    cases tests with
    | nil => exact ((holds_single _ _).trans (htest h)).trans (holds_single test []).symm
    | cons next tests =>
      obtain ⟨⟨hplain, hfails⟩, -⟩ := h
      have hfirst : test (current ends) = false := (htest hplain).trans hfails
      have hlast : test (current []) = false := hfails
      simp only [Lookahead.holds, hfirst, hlast, Bool.false_and]

theorem Lookahead.Plain.holds_append (hP : KeepsToken P) {look : Lookahead} (h : look.Plain)
    (hread : List.Forall₂ P read read') (hends : endsStatement (current ends))
    (hends' : endsStatement (current ends')) :
    look.holds (read ++ ends) = look.holds (read' ++ ends') := by
  induction look generalizing read read' with
  | nil => rfl
  | cons test tests ih =>
    cases hread with
    | nil => exact (h.holds_ends hends).trans (h.holds_ends hends').symm
    | @cons lexeme lexeme' read read' hfirst hrest =>
      have hsplit : PlainTest test ∧ Lookahead.Plain tests := by
        cases tests with
        | nil => exact ⟨h, trivial⟩
        | cons next tests => exact ⟨h.1.1, h.2⟩
      have htest : test lexeme.token = test lexeme'.token := by
        rw [← hsplit.1, hP.role hfirst, hsplit.1]
      simp only [List.cons_append, Lookahead.holds, current, List.tail_cons, htest,
        ih hsplit.2 hrest]

theorem PlainRule.append (hP : KeepsToken P) {rule : Token → Token → Option Rule}
    (h : PlainRule rule) (hread : List.Forall₂ P read read')
    (hends : endsStatement (current ends)) (hends' : endsStatement (current ends')) :
    rule (current (read ++ ends)) (current (read ++ ends).tail) =
      rule (current (read' ++ ends')) (current (read' ++ ends').tail) := by
  cases hread with
  | nil =>
    have heof {ends : List Lexeme} (hends : endsStatement (current ends)) :
        rule (current ends) (current ends.tail) = rule .eof .eof := by
      rw [← h.role, role_of_endsStatement hends, h.ends]
    exact (heof hends).trans (heof hends').symm
  | cons hfirst hrest =>
    have hnext := role_current_append hP hrest hends hends'
    exact (h.of_role (hP.role hfirst) hnext)

/-! ### The same reading -/

/-- Where the first reader reads tokens up to the end of a statement, the second one reads tokens of
the same roles in the same way. -/
def Simulates (P : Lexeme → Lexeme → Prop) (reader reader' : Reader) : Prop :=
  ∀ {input input' ends ends' : List Lexeme} {trees : List Tree} {rest : List Lexeme},
    List.Forall₂ P input input' → endsStatement (current ends) → endsStatement (current ends') →
    reader (input ++ ends) = .ok (trees, rest) →
    ∃ left left' trees', rest = left ++ ends ∧ List.Forall₂ P left left' ∧
      List.Forall₂ (Tree.Matches P fun _ _ => True) trees trees' ∧
      reader' (input' ++ ends') = .ok (trees', left' ++ ends')

variable {reader reader' body body' : Reader} {look : Lookahead}

/-- A repetition is read in the same way, where its rounds are and each of them takes a token. -/
theorem readWhile_simulates (hP : KeepsToken P) (hlook : look.Plain) (hnil : look.holds [] = false)
    (hbody : Simulates P body body')
    (hconsumes : ∀ {input trees rest}, body input = .ok (trees, rest) → rest.length < input.length)
    {times times' : Nat} {trees : List Tree} {rest : List Lexeme}
    (hread : List.Forall₂ P read read')
    (hends : endsStatement (current ends)) (hends' : endsStatement (current ends'))
    (htimes : read.length ≤ times) (htimes' : read.length ≤ times')
    (h : readWhile look body times (read ++ ends) = .ok (trees, rest)) :
    ∃ left left' trees', rest = left ++ ends ∧ List.Forall₂ P left left' ∧
      List.Forall₂ (Tree.Matches P fun _ _ => True) trees trees' ∧
      readWhile look body' times' (read' ++ ends') = .ok (trees', left' ++ ends') := by
  have hsame := hlook.holds_append hP hread hends hends'
  -- where the repetition ends, it ends in both texts
  have hstop (hlast : look.holds (read ++ ends) = false) :
      readWhile look body' times' (read' ++ ends') = .ok ([], read' ++ ends') :=
    readWhile_of_not_holds _ (hsame.symm.trans hlast)
  induction times generalizing times' trees read read' with
  | zero =>
    cases h
    obtain rfl := List.length_eq_zero_iff.mp (Nat.le_zero.mp htimes)
    exact ⟨[], read', [], rfl, hread, .nil, hstop ((hlook.holds_ends hends).trans hnil)⟩
  | succ times ih =>
    rcases readWhile_succ_eq_ok h with ⟨hgoes, first, mid, more, hfirst, hmore, rfl⟩ |
      ⟨hlast, rfl, rfl⟩
    · obtain ⟨left, left', first', rfl, hleft, htrees, hfirst'⟩ := hbody hread hends hends' hfirst
      have hshort := hconsumes hfirst
      rw [List.length_append, List.length_append, Nat.add_lt_add_iff_right] at hshort
      obtain ⟨times', rfl⟩ : ∃ n, times' = n + 1 := ⟨times' - 1, by omega⟩
      have hsame' := hlook.holds_append hP hleft hends hends'
      obtain ⟨last, last', more', rfl, hlast, hmores, hmore'⟩ := ih hleft (by omega)
        (Nat.le_of_lt_succ (Nat.lt_of_lt_of_le hshort htimes')) hmore hsame'
        fun hlast => readWhile_of_not_holds _ (hsame'.symm.trans hlast)
      exact ⟨last, last', _, rfl, hlast, List.rel_append htrees hmores,
        readWhile_of_holds (hsame ▸ hgoes) hfirst' hmore'⟩
    · exact ⟨read, read', [], rfl, hread, .nil, hstop hlast⟩

/-- **A plain form is read in the same way**, when the constructs inside are. -/
theorem read_simulates {enter enter' : Construct → Reader} (hP : KeepsToken P)
    (hkeeps : ∀ construct, Keeps (enter construct))
    (henter : ∀ construct, Simulates P (enter construct) (enter' construct)) {form : Form}
    (h : form.Plain) : Simulates P (form.read enter) (form.read enter') := by
  induction form with
  | empty =>
    intro input input' ends ends' trees rest hinput hends hends' hread
    cases hread
    exact ⟨input, input', [], rfl, hinput, .nil, rfl⟩
  | token accepts wanted =>
    intro input input' ends ends' trees rest hinput hends hends' hread
    obtain ⟨lexeme, haccepts, rfl, hsplit⟩ := readToken_eq_ok hread
    cases hinput with
    | nil =>
      -- a plain form accepts nothing that ends a statement
      rw [List.nil_append] at hsplit
      rw [hsplit, current] at hends
      rw [← h.1, role_of_endsStatement hends, h.2] at haccepts
      cases haccepts
    | @cons first first' input input' hfirst hinput =>
      obtain ⟨rfl, rfl⟩ := List.cons.inj hsplit
      refine ⟨input, input', _, rfl, hinput, .cons (.leaf hfirst) .nil, if_pos ?_⟩
      rwa [← h.1, ← hP.role hfirst, h.1]
  | refuse cause =>
    intro input input' ends ends' trees rest hinput hends hends' hread
    cases hread
  | seq first second ihfirst ihsecond =>
    intro input input' ends ends' trees rest hinput hends hends' hread
    obtain ⟨left, mid, right, hleft, hright, rfl⟩ := read_seq_eq_ok hread
    obtain ⟨_, _, left', rfl, hmid, hlefts, hleft'⟩ := ihfirst h.1 hinput hends hends' hleft
    obtain ⟨last, last', right', rfl, hlast, hrights, hright'⟩ :=
      ihsecond h.2 hmid hends hends' hright
    exact ⟨last, last', left' ++ right', rfl, hlast, List.rel_append hlefts hrights,
      read_seq_of_read hleft' hright'⟩
  | ifAt look yes no ihyes ihno =>
    intro input input' ends ends' trees rest hinput hends hends' hread
    have hsame := h.1.holds_append hP hinput hends hends'
    rw [Form.read, ← hsame]
    rcases read_ifAt_eq_ok hread with ⟨hlook, hread⟩ | ⟨hlook, hread⟩
    · rw [if_pos hlook]
      exact ihyes h.2.1 hinput hends hends' hread
    · rw [hlook]
      exact ihno h.2.2 hinput hends hends' hread
  | whileAt look body ih =>
    intro input input' ends ends' trees rest hinput hends hends' hread
    obtain ⟨⟨hlook, hnil⟩, hconsumes, hbody⟩ := h
    have hlength := hinput.length_eq
    rw [Form.read] at hread ⊢
    refine readWhile_simulates hP hlook hnil (ih hbody) (hconsumes.length_lt hkeeps) hinput hends
      hends' ?_ ?_ hread
    · rw [List.length_append]
      omega
    · rw [List.length_append]
      omega
  | extend first rule more ihfirst ihmore =>
    intro input input' ends ends' trees rest hinput hends hends' hread
    obtain ⟨hrule, hplain, hmore⟩ := h
    simp only [Form.read, bind_eq_ok, Prod.exists] at hread ⊢
    obtain ⟨left, mid, hleft, hread⟩ := hread
    obtain ⟨mids, mids', left', rfl, hmids, hlefts, hleft'⟩ :=
      ihfirst hplain hinput hends hends' hleft
    -- the two tokens that decide may stand behind the end of the statement, where they differ
    have hsame := hrule.append hP hmids hends hends'
    split at hread
    · rename_i hnone
      cases hread
      refine ⟨mids, mids', left', rfl, hmids, hlefts, left', _, hleft', ?_⟩
      rw [← hsame, hnone]
      rfl
    · rename_i production hproduction
      simp only [bind_eq_ok, pure_eq_ok, Prod.exists, Prod.mk.injEq] at hread
      obtain ⟨right, rest, hright, rfl, rfl⟩ := hread
      obtain ⟨last, last', right', rfl, hlast, hrights, hright'⟩ :=
        ihmore hmore hmids hends hends' hright
      refine ⟨last, last', [Tree.ofParts production (left' ++ right')], rfl, hlast,
        .cons (.node trivial (List.rel_append hlefts hrights)) .nil, left', _, hleft', ?_⟩
      rw [← hsame, hproduction, hright']
      rfl
  | deeper construct =>
    intro input input' ends ends' trees rest hinput hends hends' hread
    exact henter construct hinput hends hends' hread

/-- More levels of nesting change nothing in what could be read. -/
theorem enter_simulates {bodies : Construct → Form} (hP : KeepsToken P)
    (hplain : ∀ construct, (bodies construct).Plain) {limit limit' left left' : Nat}
    (hleft : left ≤ left') (construct : Construct) :
    Simulates P (Grammar.enter bodies limit left construct)
      (Grammar.enter bodies limit' left' construct) := by
  induction left generalizing left' construct with
  | zero =>
    intro input input' ends ends' trees rest hinput hends hends' hread
    cases hread
  | succ left ih =>
    obtain ⟨left', rfl⟩ : ∃ n, left' = n + 1 := ⟨left' - 1, by omega⟩
    exact read_simulates hP (enter_keeps _ _ _) (ih (by omega)) (hplain construct)

end

end Grammar

end SqlFront
