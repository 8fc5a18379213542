import SqlFront.Proofs.BatchReading
import SqlFront.Proofs.LabelledForms
import SqlFront.Proofs.StatementCores

/-!
The reading of `UPDATE`, of `UPDATE KEYS` and of what stands under `BYPASS`.

Behind `UPDATE` and a name that counts as `KEYS`, one more token decides what is read: only `SET`
goes on with the update of a table. The details that a table can have in that place, a qualifier or
an alias, start with other tokens, and none of them can follow the command.
-/

namespace SqlFront

/-- The update of a table that has neither qualifiers nor an alias. -/
def Tree.updateOf (word name : Lexeme) (changes : List Tree) : Tree :=
  ofParts .updateStatement (leaf word :: ofParts .tableName [leaf name] :: changes)

/-- A statement with such words, each of them a `BYPASS`, in front of it. -/
def Tree.underBypass (words : List Lexeme) (statement : Tree) : Tree :=
  words.foldr (fun word inner => ofParts .bypassStatement [leaf word, inner]) statement

namespace Grammar

open SqlFront.Tree

/-! ### The form that reads a production -/

/-- Where the form reads one node of this production, it is the target that reads it. -/
def Form.LeadsTo (form : Form) (rule : Rule) (target : Form) : Prop :=
  ∀ (enter : Construct → Reader) (input rest : List Lexeme) (tree : Tree),
    form.read enter input = .ok ([tree], rest) → tree.hasRule rule →
    target.read enter input = .ok ([tree], rest)

namespace Form.LeadsTo

variable {rule : Rule} {target form yes no first : Form} {look : Lookahead}
  {cause : Token → SyntaxCause}

theorem self : target.LeadsTo rule target := fun _ _ _ _ h _ => h

theorem node {other : Rule} (h : other ≠ rule) : (Form.node other form).LeadsTo rule target := by
  intro enter input rest tree hread htree
  obtain ⟨parts, -, hparts⟩ := read_node_eq_ok hread
  obtain rfl := (List.cons.inj hparts).1
  exact absurd (Option.some.inj (eq_of_beq htree)) h

theorem ifAt (hyes : yes.LeadsTo rule target) (hno : no.LeadsTo rule target) :
    (Form.ifAt look yes no).LeadsTo rule target := by
  intro enter input rest tree hread htree
  rcases read_ifAt_eq_ok hread with ⟨-, hread⟩ | ⟨-, hread⟩
  · exact hyes _ _ _ _ hread htree
  · exact hno _ _ _ _ hread htree

theorem refuse : (Form.refuse cause).LeadsTo rule target := by
  intro enter input rest tree hread _
  cases hread

theorem refused : (Form.seq first (.refuse cause)).LeadsTo rule target := by
  intro enter input rest tree hread _
  obtain ⟨_, _, _, -, hrefused, -⟩ := read_seq_eq_ok hread
  cases hrefused

end Form.LeadsTo

variable {dialect : Dialect} {enter : Construct → Reader} {input rest : List Lexeme} {tree : Tree}
  {trees : List Tree} {word lexeme : Lexeme}

/-- Only one form reads updates, and only one form reads what stands under `BYPASS`. -/
theorem statement_leadsTo {rule : Rule} {target : Form}
    (hrule : rule = .updateStatement ∨ rule = .bypassStatement)
    (hupdate : update.LeadsTo rule target) (hbypass : bypass.LeadsTo rule target) :
    (statement dialect).LeadsTo rule target := by
  have other {production : Rule} {form : Form}
      (h : production ≠ .updateStatement ∧ production ≠ .bypassStatement) :
      (Form.node production form).LeadsTo rule target := by
    refine .node ?_
    rintro rfl
    exact hrule.elim h.1 h.2
  exact .ifAt (.ifAt (other (by decide)) (.ifAt (other (by decide)) .refused)) <|
    .ifAt (other (by decide)) <|
    .ifAt (other (by decide)) <|
    .ifAt (other (by decide)) <|
    .ifAt (other (by decide)) <|
    .ifAt (other (by decide)) <|
    .ifAt (.ifAt (other (by decide)) (.ifAt (other (by decide)) .refused)) <|
    .ifAt (.ifAt (other (by decide)) (.ifAt (other (by decide)) .refused)) <|
    .ifAt hbypass <|
    .ifAt (.ifAt (other (by decide)) (.ifAt (other (by decide))
      (.ifAt (other (by decide)) .refused))) <|
    .ifAt (other (by decide)) <|
    .ifAt (other (by decide)) <|
    .ifAt (other (by decide)) <|
    .ifAt hupdate <|
    .ifAt (other (by decide)) <|
    .ifAt (.ifAt (other (by decide)) (.ifAt (other (by decide)) .refused)) <|
    .ifAt (other (by decide)) <|
    .ifAt (other (by decide)) <|
    .ifAt (other (by decide)) .refuse

theorem read_update_of_statement (h : (statement dialect).read enter input = .ok ([tree], rest))
    (hrule : tree.hasRule .updateStatement) : update.read enter input = .ok ([tree], rest) :=
  statement_leadsTo (.inl rfl) .self (.node (by decide)) _ _ _ _ h hrule

theorem read_bypass_of_statement (h : (statement dialect).read enter input = .ok ([tree], rest))
    (hrule : tree.hasRule .bypassStatement) : bypass.read enter input = .ok ([tree], rest) :=
  statement_leadsTo (.inr rfl) (.node (by decide)) .self _ _ _ _ h hrule

/-! ### The form that a word calls for -/

/-- At `BYPASS`, a statement is one under `BYPASS`. -/
theorem read_statement_bypass (hword : word.token.isWord "BYPASS") :
    (statement dialect).read enter (word :: input) = bypass.read enter (word :: input) := by
  simp only [statement, Form.read, holds_single, current, Token.isWord_eq_sameWord hword]
  rfl

/-- At `UPDATE`, a statement is an update or the command on keys. -/
theorem read_statement_update (hword : word.token = .keyword .UPDATE) :
    (statement dialect).read enter (word :: input) =
      if startsKeyUpdate.holds (word :: input) then
        (keysCommand .updateKeysStatement (.keyword .UPDATE)).read enter (word :: input)
      else update.read enter (word :: input) := by
  simp only [statement, Form.read, holds_single, current, hword]
  rfl

/-! ### Updates -/

/-- What can stand behind the name of a table: qualifiers and an alias. -/
def tableDetails : Form :=
  .seq (.optional [isSymbol .dot] (.seq dotName (.optional [isSymbol .dot] dotName))) alias?

/-- What stands behind the table of an update. -/
def changes : Form := .all [.keyword .SET, .commaList assignment, whereClause?]

theorem read_update_eq_ok :
    update.read enter input = .ok (trees, rest) ↔
      ∃ word lexeme tail details mid more, input = word :: lexeme :: tail ∧
        word.token = .keyword .UPDATE ∧ lexeme.token.isName ∧
        tableDetails.read enter tail = .ok (details, mid) ∧
        changes.read enter mid = .ok (more, rest) ∧
        trees = [ofParts .updateStatement
          (.leaf word :: ofParts .tableName (.leaf lexeme :: details) :: more)] := by
  constructor
  · intro h
    obtain ⟨parts, hparts, rfl⟩ := read_node_eq_ok h
    obtain ⟨_, _, _, hword, hrest, rfl⟩ := read_seq_eq_ok hparts
    obtain ⟨word, hupdate, rfl, rfl⟩ := readToken_eq_ok hword
    obtain ⟨_, mid, more, htable, hchanges, rfl⟩ := read_seq_eq_ok hrest
    obtain ⟨_, hall, rfl⟩ := read_node_eq_ok htable
    obtain ⟨_, behind, clause, hqualified, halias, rfl⟩ := read_seq_eq_ok hall
    obtain ⟨_, tail, qualifiers, hname, hqualifiers, rfl⟩ := read_seq_eq_ok hqualified
    obtain ⟨lexeme, hisName, rfl, rfl⟩ := readToken_eq_ok hname
    exact ⟨word, lexeme, tail, qualifiers ++ clause, mid, more, rfl, eq_of_beq hupdate, hisName,
      read_seq_of_read hqualifiers halias, hchanges, rfl⟩
  · rintro ⟨word, lexeme, tail, details, mid, more, rfl, hword, hname, hdetails, hchanges, rfl⟩
    obtain ⟨qualifiers, behind, clause, hqualifiers, halias, rfl⟩ := read_seq_eq_ok hdetails
    have hupdate : (Form.keyword .UPDATE).read enter (word :: lexeme :: tail) =
        .ok ([.leaf word], lexeme :: tail) := if_pos (by simp [hword])
    have hname : Form.name.read enter (lexeme :: tail) = .ok ([.leaf lexeme], tail) := if_pos hname
    have htable : aliasedTable.read enter (lexeme :: tail) =
        .ok ([ofParts .tableName (.leaf lexeme :: (qualifiers ++ clause))], mid) :=
      read_node_of_read (read_seq_of_read (read_seq_of_read hname hqualifiers) halias)
    exact read_node_of_read (read_seq_of_read hupdate (read_seq_of_read htable hchanges))

/-- Details of a table that is updated stand here: they start with a dot or with `AS`, or they are a
name in front of `SET`. -/
def DetailsAt (input : List Lexeme) : Prop :=
  current input = .symbol .dot ∨ current input = .keyword .AS ∨
    ((current input).isName ∧ current input.tail = .keyword .SET)

namespace DetailsAt

theorem ne_set (h : DetailsAt input) : current input ≠ .keyword .SET := by
  rintro hset
  rcases h with hdot | has | ⟨hname, -⟩
  · simp [hset] at hdot
  · simp [hset] at has
  · simp [hset, Token.isName, Token.name?] at hname

theorem not_endsStatement (h : DetailsAt input) : ¬endsStatement (current input) := by
  rcases h with hdot | has | ⟨hname, -⟩
  · simp [hdot, endsStatement]
  · simp [has, endsStatement]
  · intro hends
    rw [endsStatement_iff] at hends
    cases htoken : current input with
    | name | quotedName => simp [htoken, Token.role] at hends
    | _ => simp [htoken, Token.isName, Token.name?] at hname

/-- Only one name is a detail without a token in front of it. -/
theorem set_of_isWord {text : String} (h : DetailsAt input) (hword : (current input).isWord text) :
    current input.tail = .keyword .SET := by
  rcases h with hdot | has | ⟨-, hset⟩
  · simp [hdot, Token.isWord] at hword
  · simp [has, Token.isWord] at hword
  · exact hset

/-- Only the tokens count, not their places. -/
theorem of_map_token {other : List Lexeme} (h : DetailsAt input)
    (hsame : input.map Lexeme.token = other.map Lexeme.token) : DetailsAt other := by
  have hcurrent {lexemes : List Lexeme} :
      current lexemes = (lexemes.map Lexeme.token).headD .eof := by cases lexemes <;> rfl
  unfold DetailsAt at h ⊢
  rwa [hcurrent, hcurrent, List.map_tail, ← hsame, ← List.map_tail, ← hcurrent, ← hcurrent]

end DetailsAt

/-- In front of `SET`, a table has no details, or they start in one of the ways that are open. -/
theorem read_tableDetails_cases {details : List Tree} {tail mid : List Lexeme}
    (h : tableDetails.read enter tail = .ok (details, mid))
    (hmid : current mid = .keyword .SET) :
    (details = [] ∧ mid = tail) ∨ (details ≠ [] ∧ DetailsAt tail) := by
  obtain ⟨qualifiers, behind, clause, hqualifiers, halias, rfl⟩ := read_seq_eq_ok h
  rcases read_ifAt_eq_ok hqualifiers with ⟨hlook, hdot⟩ | ⟨-, hnone⟩
  · rw [holds_single] at hlook
    obtain ⟨_, _, more, hfirst, -, rfl⟩ := read_seq_eq_ok hdot
    obtain ⟨_, _, name, hsymbol, -, rfl⟩ := read_seq_eq_ok hfirst
    obtain ⟨dot, -, rfl, -⟩ := readToken_eq_ok hsymbol
    exact .inr ⟨by simp, .inl (eq_of_beq hlook)⟩
  · cases hnone
    rcases read_ifAt_eq_ok halias with ⟨hlook, hclause⟩ | ⟨-, hclause⟩
    · rw [holds_single] at hlook
      obtain ⟨parts, -, rfl⟩ := read_node_eq_ok hclause
      exact .inr ⟨by simp, .inr (.inl (eq_of_beq hlook))⟩
    · rcases read_ifAt_eq_ok hclause with ⟨hlook, hclause⟩ | ⟨-, hnone⟩
      · rw [holds_single] at hlook
        obtain ⟨parts, hname, rfl⟩ := read_node_eq_ok hclause
        obtain ⟨name, -, -, rfl⟩ := readToken_eq_ok hname
        exact .inr ⟨by simp, .inr (.inr ⟨hlook, hmid⟩)⟩
      · cases hnone
        exact .inl ⟨rfl, rfl⟩

/-- In front of `SET`, a table has no details. -/
theorem read_tableDetails_of_set {tail : List Lexeme} (h : current tail = .keyword .SET) :
    tableDetails.read enter tail = .ok ([], tail) := by
  simp [tableDetails, alias?, Form.optional, Form.read, h, isSymbol, isKeyword, Token.isName,
    Token.name?]

theorem current_of_read_changes (h : changes.read enter input = .ok (trees, rest)) :
    current input = .keyword .SET := by
  obtain ⟨_, _, _, hset, -, -⟩ := read_seq_eq_ok h
  obtain ⟨set, haccepts, -, rfl⟩ := readToken_eq_ok hset
  exact eq_of_beq haccepts

/-- An update of a table without details is read as one whatever the table is called. -/
theorem read_statement_of_update {tail : List Lexeme} {more : List Tree}
    (hword : word.token = .keyword .UPDATE) (hname : lexeme.token.isName)
    (hchanges : changes.read enter tail = .ok (more, rest)) :
    (statement dialect).read enter (word :: lexeme :: tail) =
      .ok ([updateOf word lexeme more], rest) := by
  have hset := current_of_read_changes hchanges
  have hlook : startsKeyUpdate.holds (word :: lexeme :: tail) = false := by
    simp [startsKeyUpdate, Lookahead.holds, hset, isKeyword]
  rw [read_statement_update hword, hlook]
  exact read_update_eq_ok.mpr ⟨word, lexeme, tail, [], tail, more, rfl, hword, hname,
    read_tableDetails_of_set hset, hchanges, rfl⟩

/-- **The command on keys does not go on with the details of a table**: it takes at most one name
of them, and no statement ends behind that. -/
theorem not_endsStatement_of_keyUpdate {tail : List Lexeme}
    (hword : word.token = .keyword .UPDATE) (hname : lexeme.token.isWord "KEYS")
    (htail : DetailsAt tail)
    (h : (statement dialect).read enter (word :: lexeme :: tail) = .ok (trees, rest)) :
    ¬endsStatement (current rest) := by
  have hlook : startsKeyUpdate.holds (word :: lexeme :: tail) := by
    simp only [startsKeyUpdate, Lookahead.holds, List.tail_cons, isKeyword, Bool.and_eq_true,
      beq_iff_eq, Bool.not_eq_true', beq_eq_false_iff_ne, and_true]
    exact ⟨hword, hname, htail.ne_set⟩
  rw [read_statement_update hword, if_pos hlook] at h
  obtain ⟨_, hparts, rfl⟩ := read_node_eq_ok h
  obtain ⟨_, _, _, hverb, hbehind, rfl⟩ := read_seq_eq_ok hparts
  obtain ⟨_, -, rfl, ⟨⟩⟩ := readToken_eq_ok hverb
  obtain ⟨_, _, _, hkeys, hbehind, rfl⟩ := read_seq_eq_ok hbehind
  obtain ⟨_, -, rfl, ⟨⟩⟩ := readToken_eq_ok hkeys
  obtain ⟨_, _, _, hdestination, hstatus, rfl⟩ := read_seq_eq_ok hbehind
  rcases read_ifAt_eq_ok hdestination with ⟨hto, hdestination⟩ | ⟨-, hnone⟩
  · -- behind `TO` the command asks for a string
    rw [holds_single] at hto
    obtain ⟨_, hwords, rfl⟩ := read_node_eq_ok hdestination
    obtain ⟨_, _, _, hfirst, hsecond, rfl⟩ := read_seq_eq_ok hwords
    obtain ⟨_, -, rfl, rfl⟩ := readToken_eq_ok hfirst
    obtain ⟨text, hstring, rfl, rfl⟩ := readToken_eq_ok hsecond
    have hset : text.token = .keyword .SET := htail.set_of_isWord hto
    rw [hset] at hstring
    cases hstring
  · cases hnone
    rcases read_ifAt_eq_ok hstatus with ⟨hflag, hstatus⟩ | ⟨-, hnone⟩
    · rw [holds_single] at hflag
      obtain ⟨_, hword, rfl⟩ := read_node_eq_ok hstatus
      obtain ⟨_, -, rfl, rfl⟩ := readToken_eq_ok hword
      have hset : current rest = .keyword .SET := htail.set_of_isWord hflag
      simp [hset, endsStatement]
    · cases hnone
      exact htail.not_endsStatement

/-! ### Statements under `BYPASS` -/

section

variable {limit left : Nat} {words tail : List Lexeme}

theorem read_bypass_eq_ok :
    bypass.read (Grammar.enter (bodies dialect) limit left) input = .ok (trees, rest) ↔
      ∃ word tail below inner, input = word :: tail ∧ word.token.isWord "BYPASS" ∧
        left = below + 1 ∧
        (statement dialect).read (Grammar.enter (bodies dialect) limit below) tail =
          .ok (inner, rest) ∧
        trees = [ofParts .bypassStatement (.leaf word :: inner)] := by
  constructor
  · intro h
    obtain ⟨_, hparts, rfl⟩ := read_node_eq_ok h
    obtain ⟨_, tail, inner, hword, hinner, rfl⟩ := read_seq_eq_ok hparts
    obtain ⟨word, hbypass, rfl, rfl⟩ := readToken_eq_ok hword
    cases left with
    | zero => cases hinner
    | succ below => exact ⟨word, tail, below, inner, rfl, hbypass, rfl, hinner, rfl⟩
  · rintro ⟨word, tail, below, inner, rfl, hbypass, rfl, hinner, rfl⟩
    have hword : (Form.word "BYPASS").read (Grammar.enter (bodies dialect) limit (below + 1))
        (word :: tail) = .ok ([.leaf word], tail) := if_pos hbypass
    exact read_node_of_read (read_seq_of_read hword hinner)

theorem core_under_bypass (h : tree.isLeaf = false) :
    (ofParts .bypassStatement [.leaf word, tree]).core = tree.core := by
  have hinner : Tree.innerCore [.leaf word, tree] = some tree.core := by
    have hleaf : (leaf word).isLeaf = true := rfl
    simp only [Tree.innerCore, hleaf, h, if_true, Bool.false_eq_true, if_false]
  rw [ofParts, Tree.core, hinner, Option.getD_some]

theorem core_of_not_bypass (h : tree.hasRule .bypassStatement = false) : tree.core = tree := by
  unfold Tree.core
  split
  · cases h
  · rfl

/-- A statement is read as its core under words `BYPASS`, one level deeper for each of them. -/
theorem exists_words_of_read
    (h : (statement dialect).read (Grammar.enter (bodies dialect) limit left) input =
      .ok ([tree], rest)) :
    ∃ words tail below, input = words ++ tail ∧ (∀ word ∈ words, word.token.isWord "BYPASS") ∧
      left = words.length + below ∧ tree = underBypass words tree.core ∧
      (statement dialect).read (Grammar.enter (bodies dialect) limit below) tail =
        .ok ([tree.core], rest) := by
  induction left using Nat.strongRecOn generalizing input tree with
  | _ left ih =>
    cases hbypass : tree.hasRule .bypassStatement with
    | false =>
      rw [core_of_not_bypass hbypass]
      exact ⟨[], input, left, rfl, by simp, by simp, rfl, h⟩
    | true =>
      obtain ⟨word, tail, below, parts, rfl, hword, rfl, hinner, htree⟩ :=
        read_bypass_eq_ok.mp (read_bypass_of_statement h hbypass)
      obtain ⟨inner, rfl, hstatement, -⟩ :=
        statement_makes dialect (regular_enter dialect limit below) parts ⟨tail, rest, hinner⟩
      obtain rfl := (List.cons.inj htree).1
      obtain ⟨words, behind, deeper, rfl, hwords, rfl, hbypassed, hcore⟩ :=
        ih below (Nat.lt_succ_self below) hinner
      rw [core_under_bypass (isLeaf_of_isStatement hstatement)]
      refine ⟨word :: words, behind, deeper, rfl, List.forall_mem_cons.mpr ⟨hword, hwords⟩, ?_, ?_,
        hcore⟩
      · rw [List.length_cons]
        omega
      · rw [underBypass, List.foldr_cons, ← underBypass, ← hbypassed]

theorem read_underBypass (hwords : ∀ word ∈ words, word.token.isWord "BYPASS")
    (h : (statement dialect).read (Grammar.enter (bodies dialect) limit left) tail =
      .ok ([tree], rest)) :
    (statement dialect).read (Grammar.enter (bodies dialect) limit (words.length + left))
      (words ++ tail) = .ok ([underBypass words tree], rest) := by
  induction words with
  | nil => simpa [underBypass] using h
  | cons word words ih =>
    obtain ⟨hword, hwords⟩ := List.forall_mem_cons.mp hwords
    rw [List.cons_append, read_statement_bypass hword]
    exact read_bypass_eq_ok.mpr ⟨word, words ++ tail, words.length + left, _, rfl, hword,
      by rw [List.length_cons]; omega, ih hwords, rfl⟩

theorem exists_read_of_words (hwords : ∀ word ∈ words, word.token.isWord "BYPASS")
    (h : (statement dialect).read (Grammar.enter (bodies dialect) limit left) (words ++ tail) =
      .ok (trees, rest)) :
    ∃ below inner, (statement dialect).read (Grammar.enter (bodies dialect) limit below) tail =
      .ok (inner, rest) := by
  induction words generalizing left trees with
  | nil => exact ⟨left, trees, h⟩
  | cons word words ih =>
    obtain ⟨hword, hwords⟩ := List.forall_mem_cons.mp hwords
    rw [List.cons_append, read_statement_bypass hword] at h
    obtain ⟨_, _, below, inner, ⟨⟩, -, -, hinner, -⟩ := read_bypass_eq_ok.mp h
    exact ih hwords hinner

/-- **No batch starts with `UPDATE KEYS` and details of a table**, under `BYPASS` or not. -/
theorem not_readsBatch_of_details {levels : Nat} {parts : List Tree}
    (hwords : ∀ word ∈ words, word.token.isWord "BYPASS") (hword : word.token = .keyword .UPDATE)
    (hname : lexeme.token.isWord "KEYS") (htail : DetailsAt tail) :
    ¬ReadsBatch (readStatement dialect levels) (words ++ word :: lexeme :: tail) parts := by
  intro h
  have hstarts : ¬endsStatement (current (words ++ word :: lexeme :: tail)) := by
    cases words with
    | nil => simp [current, hword, endsStatement]
    | cons first words =>
      have hfirst := hwords first List.mem_cons_self
      intro hends
      cases htoken : first.token with
      | name text => simp [current, htoken, endsStatement] at hends
      | _ => simp [htoken, Token.isWord] at hfirst
  generalize hinput : words ++ word :: lexeme :: tail = input at h hstarts
  cases h with
  | stop hend => exact hstarts (by rw [hend]; rfl)
  | semicolon hsemicolon _ => exact hstarts (by rw [current, hsemicolon]; rfl)
  | statement hread hends _ =>
    subst hinput
    obtain ⟨below, inner, hinner⟩ := exists_read_of_words hwords hread
    exact not_endsStatement_of_keyUpdate hword hname htail hinner hends

/-- An update of a table without details is read, under words `BYPASS`: its words, the name of the
table, and the trees of what stands behind it. -/
structure ReadsUpdate (dialect : Dialect) (limit : Nat) (words : List Lexeme) (word name : Lexeme)
    (tail : List Lexeme) (more : List Tree) (rest : List Lexeme) : Prop where
  bypass : ∀ word ∈ words, word.token.isWord "BYPASS"
  update : word.token = .keyword .UPDATE
  named : name.token.isName
  reads : ∃ below, limit = words.length + below ∧
    changes.read (Grammar.enter (bodies dialect) limit below) tail = .ok (more, rest)

namespace ReadsUpdate

variable {name name' : Lexeme} {more : List Tree}

theorem readStatement (h : ReadsUpdate dialect limit words word name tail more rest) :
    readStatement dialect limit (words ++ word :: name :: tail) =
      .ok ([(updateOf word name more).underBypass words], rest) := by
  obtain ⟨below, hlimit, hchanges⟩ := h.reads
  have hread := read_underBypass h.bypass (read_statement_of_update h.update h.named hchanges)
  rwa [← hlimit] at hread

theorem ne_nil (h : ReadsUpdate dialect limit words word name tail more rest) : more ≠ [] := by
  obtain ⟨below, -, hchanges⟩ := h.reads
  exact ne_nil_of_token more ⟨tail, rest, hchanges⟩

theorem wellFormed (h : ReadsUpdate dialect limit words word name tail more rest) :
    ∀ tree ∈ more, tree.WellFormed := by
  obtain ⟨below, -, hchanges⟩ := h.reads
  obtain ⟨tree, htree, -, hformed⟩ := statement_makes dialect (regular_enter dialect limit below) _
    ⟨_, rest, read_statement_of_update h.update h.named hchanges⟩
  obtain rfl := (List.cons.inj htree).1
  cases hformed with
  | node _ _ hparts => exact fun tree hmem => hparts tree (by simp [hmem])

/-- The name of the table can be another one, and behind it related tokens can stand. -/
theorem simulates {P : Lexeme → Lexeme → Prop} (hP : KeepsToken P)
    {tokens tokens' ends ends' : List Lexeme} {limit' : Nat}
    (h : ReadsUpdate dialect limit words word name (tokens ++ ends) more rest)
    (hlimit : limit ≤ limit') (hname : name'.token.isName) (htokens : List.Forall₂ P tokens tokens')
    (hends : endsStatement (current ends)) (hends' : endsStatement (current ends')) :
    ∃ last last' more', rest = last ++ ends ∧ List.Forall₂ P last last' ∧
      List.Forall₂ (Tree.Matches P fun _ _ => True) more more' ∧
      ReadsUpdate dialect limit' words word name' (tokens' ++ ends') more' (last' ++ ends') := by
  obtain ⟨below, rfl, hchanges⟩ := h.reads
  obtain ⟨more', rfl⟩ := Nat.exists_eq_add_of_le hlimit
  have hplain : changes.Plain := by simp [changes, assignment, Form.all]
  obtain ⟨last, last', trees, rfl, hlast, hmatches, hchanges'⟩ :=
    read_simulates hP (enter_keeps _ _ _)
      (enter_simulates hP (bodies_plain dialect) (Nat.le_add_right below more')) hplain htokens
      hends hends' hchanges
  exact ⟨last, last', trees, rfl, hlast, hmatches, h.bypass, h.update, hname, below + more',
    Nat.add_assoc .., hchanges'⟩

end ReadsUpdate

/-- **Where an update is read**, it stands behind words `BYPASS`, and behind the name of its table
there is what changes the table, or there are details of the table. -/
theorem exists_update_of_read (h : readStatement dialect limit input = .ok ([tree], rest))
    (hupdate : tree.core.hasRule .updateStatement) :
    ∃ words word name tail details more, input = words ++ word :: name :: tail ∧
      (∀ word ∈ words, word.token.isWord "BYPASS") ∧ word.token = .keyword .UPDATE ∧
      tree = underBypass words tree.core ∧
      tree.core = ofParts .updateStatement
        (.leaf word :: ofParts .tableName (.leaf name :: details) :: more) ∧
      ((details = [] ∧ ReadsUpdate dialect limit words word name tail more rest) ∨
        (details ≠ [] ∧ DetailsAt tail)) := by
  obtain ⟨words, behind, below, rfl, hwords, hlimit, hwhole, hcore⟩ := exists_words_of_read h
  obtain ⟨word, name, tail, details, mid, more, rfl, hword, hname, hdetails, hchanges, htree⟩ :=
    read_update_eq_ok.mp (read_update_of_statement hcore hupdate)
  refine ⟨words, word, name, tail, details, more, rfl, hwords, hword, hwhole,
    (List.cons.inj htree).1, ?_⟩
  rcases read_tableDetails_cases hdetails (current_of_read_changes hchanges) with ⟨rfl, rfl⟩ | hsome
  · exact .inl ⟨rfl, hwords, hword, hname, below, hlimit, hchanges⟩
  · exact .inr hsome

end

end Grammar

end SqlFront
