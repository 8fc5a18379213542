import SqlFront.Parse
import SqlFront.Proofs.ParseTree
import SqlFront.Proofs.PlainForms

/-!
How a batch falls into its statements.

`ReadsBatch` is the reading of a batch without the form that does it: statements up to their ends,
and semicolons. Where two texts have the same tokens up to the end of a statement, their batches
have the same parts up to there, and what follows is a batch of its own.
-/

namespace SqlFront.Grammar

/-- The parts of a batch, where `read` reads a statement. -/
inductive ReadsBatch (read : Reader) : List Lexeme → List Tree → Prop where
  | stop {input : List Lexeme} : current input = .eof → ReadsBatch read input []
  | semicolon {lexeme : Lexeme} {rest : List Lexeme} {parts : List Tree} :
      lexeme.token = .symbol .semicolon → ReadsBatch read rest parts →
      ReadsBatch read (lexeme :: rest) (.leaf lexeme :: parts)
  | statement {input rest : List Lexeme} {trees parts : List Tree} :
      read input = .ok (trees, rest) → endsStatement (current rest) → ReadsBatch read rest parts →
      ReadsBatch read input (trees ++ parts)

/-- The reader of statements. -/
def readStatement (dialect : Dialect) (levels : Nat) : Reader :=
  readForm dialect levels (statement dialect)

section

variable {dialect : Dialect} {levels levels' : Nat} {input rest : List Lexeme}
  {parts trees : List Tree} {P : Lexeme → Lexeme → Prop}

theorem readStatement_simulates (hP : KeepsToken P) (hlevels : levels ≤ levels') :
    Simulates P (readStatement dialect levels) (readStatement dialect levels') :=
  readForm_simulates hP hlevels (statement_plain dialect)

theorem length_lt_of_readStatement (h : readStatement dialect levels input = .ok (trees, rest)) :
    rest.length < input.length := by
  refine length_lt_of_keeps (read_keeps (enter_keeps _ _ _) _) h ?_
  obtain ⟨tree, rfl, -, hformed⟩ :=
    statement_makes dialect (regular_enter dialect levels levels) trees ⟨input, rest, h⟩
  simpa [Tree.terminalsOf] using hformed.terminals_ne_nil

/-- No statement starts where one ends. -/
theorem not_endsStatement_of_readStatement
    (h : readStatement dialect levels input = .ok (trees, rest)) :
    ¬endsStatement (current input) := by
  intro hends
  have hP : KeepsToken Eq := fun h => by rw [h]
  obtain ⟨left, -, -, hrest, -⟩ :=
    readStatement_simulates hP (Nat.le_refl levels) .nil hends hends h
  have hshort := length_lt_of_readStatement h
  rw [hrest, List.length_append] at hshort
  omega

/-! ### Batches and the form that reads them -/

/-- Semicolons in front of a batch belong to it. -/
theorem ReadsBatch.of_semicolons {read : Reader} {enter : Construct → Reader} {times : Nat}
    (h : readWhile [isSymbol .semicolon] ((Form.symbol .semicolon).read enter) times input =
      .ok (trees, rest)) (hrest : ReadsBatch read rest parts) :
    ReadsBatch read input (trees ++ parts) := by
  induction times generalizing input trees with
  | zero =>
    cases h
    exact hrest
  | succ times ih =>
    rcases readWhile_succ_eq_ok h with ⟨-, first, mid, more, hfirst, hmore, rfl⟩ | ⟨-, rfl, rfl⟩
    · obtain ⟨lexeme, haccepts, rfl, rfl⟩ := readToken_eq_ok hfirst
      exact .semicolon (by simpa using haccepts) (ih hmore)
    · exact hrest

/-- What a batch repeats: a statement, and the semicolons behind it. -/
def statements (dialect : Dialect) : Form :=
  .seq (statement dialect) (.ifAt [endsStatement] semicolons (.unexpected "';' or end of input"))

theorem ReadsBatch.of_statements {times : Nat} (htimes : input.length ≤ times)
    (h : readWhile [fun token => token != .eof]
      ((statements dialect).read (enter (bodies dialect) levels levels)) times input =
        .ok (parts, rest)) :
    ReadsBatch (readStatement dialect levels) input parts := by
  induction times generalizing input parts with
  | zero =>
    cases h
    obtain rfl := List.length_eq_zero_iff.mp (Nat.le_zero.mp htimes)
    exact .stop rfl
  | succ times ih =>
    rcases readWhile_succ_eq_ok h with ⟨-, round, mid, more, hround, hmore, rfl⟩ |
      ⟨hlast, rfl, rfl⟩
    · have hshort := length_lt_of_read_statement hround
      obtain ⟨trees, next, marks, htrees, hmarks, rfl⟩ := read_seq_eq_ok hround
      rcases read_ifAt_eq_ok hmarks with ⟨hends, hmarks⟩ | ⟨-, hmarks⟩
      · rw [holds_single] at hends
        rw [List.append_assoc]
        exact .statement htrees hends (.of_semicolons hmarks (ih (by omega) hmore))
      · cases hmarks
    · exact .stop (by simpa using hlast)

theorem endsStatement_of_isSymbol {token : Token} (h : isSymbol .semicolon token) :
    endsStatement token := by
  rw [eq_of_beq h]
  rfl

/-- The semicolons in front of a batch are read before the statements. -/
theorem ReadsBatch.exists_read (h : ReadsBatch (readStatement dialect levels) input parts) :
    ∃ marks mid more last, parts = marks ++ more ∧
      (∀ times, input.length ≤ times →
        readWhile [isSymbol .semicolon] ((Form.symbol .semicolon).read
          (enter (bodies dialect) levels levels)) times input = .ok (marks, mid)) ∧
      ∀ times, mid.length ≤ times →
        readWhile [fun token => token != .eof] ((statements dialect).read
          (enter (bodies dialect) levels levels)) times mid = .ok (more, last) := by
  induction h with
  | @stop input hend =>
    refine ⟨[], input, [], input, rfl, fun times _ => ?_, fun times _ => ?_⟩
    · exact readWhile_of_not_holds _ (by simp [hend])
    · exact readWhile_of_not_holds _ (by simp [hend])
  | @semicolon lexeme rest parts hsemicolon hrest ih =>
    obtain ⟨marks, mid, more, last, rfl, hmarks, hmore⟩ := ih
    refine ⟨.leaf lexeme :: marks, mid, more, last, rfl, fun times htimes => ?_, hmore⟩
    obtain ⟨times, rfl⟩ : ∃ n, times = n + 1 := ⟨times - 1, by simp at htimes; omega⟩
    have hround : (Form.symbol .semicolon).read (enter (bodies dialect) levels levels)
        (lexeme :: rest) = .ok ([.leaf lexeme], rest) := if_pos (by simp [hsemicolon])
    exact readWhile_of_holds (by simp [isSymbol, current, hsemicolon]) hround
      (hmarks times (by simpa using htimes))
  | @statement input rest trees parts hread hends hrest ih =>
    obtain ⟨marks, mid, more, last, rfl, hmarks, hmore⟩ := ih
    have hstarts := not_endsStatement_of_readStatement hread
    refine ⟨[], input, trees ++ (marks ++ more), last, rfl, fun times _ => ?_,
      fun times htimes => ?_⟩
    · refine readWhile_of_not_holds _ ?_
      rw [holds_single, ← Bool.not_eq_true]
      exact fun h => hstarts (endsStatement_of_isSymbol h)
    · -- the semicolons at the front of what follows belong to the round of this statement
      have hshort := length_lt_of_readStatement hread
      have hmarks : semicolons.read (enter (bodies dialect) levels levels) rest =
          .ok (marks, mid) := hmarks rest.length (Nat.le_refl _)
      have hle := congrArg List.length (read_keeps (enter_keeps _ _ _) _ hmarks)
      rw [List.length_append] at hle
      obtain ⟨times, rfl⟩ : ∃ n, times = n + 1 := ⟨times - 1, by omega⟩
      have hround : (statements dialect).read (enter (bodies dialect) levels levels) input =
          .ok (trees ++ marks, mid) := by
        refine read_seq_of_read hread ?_
        rw [Form.read, holds_single, if_pos hends, hmarks]
      rw [← List.append_assoc]
      refine readWhile_of_holds ?_ hround (hmore times (by omega))
      rw [holds_single, bne_iff_ne]
      rintro heof
      exact hstarts (by rw [heof]; rfl)

/-- **A batch is read as its form reads it.** -/
theorem readsBatch_iff : ReadsBatch (readStatement dialect levels) input parts ↔
    ∃ rest, readForm dialect levels (batch dialect) input = .ok (parts, rest) := by
  constructor
  · intro h
    obtain ⟨marks, mid, more, last, rfl, hmarks, hmore⟩ := h.exists_read
    have hmarks : semicolons.read _ input = .ok (marks, mid) := hmarks _ (Nat.le_refl _)
    have hmore : (Form.whileAt _ (statements dialect)).read _ mid = .ok (more, last) :=
      hmore _ (Nat.le_refl _)
    exact ⟨last, read_seq_of_read hmarks hmore⟩
  · rintro ⟨rest, h⟩
    obtain ⟨marks, mid, more, hmarks, hmore, rfl⟩ := read_seq_eq_ok h
    exact .of_semicolons hmarks (.of_statements (Nat.le_refl _) hmore)

/-! ### Batches that begin alike -/

/-- **Two batches with the same tokens up to the end of a statement have the same parts up to
there.** What follows in the first one is a batch of its own, and any other batch may stand in its
place in the second one. -/
theorem ReadsBatch.split {read read' : Reader} {input' ends ends' : List Lexeme} (hP : KeepsToken P)
    (hkeeps : Keeps read) (hread : Simulates P read read') (hinput : List.Forall₂ P input input')
    (hproper : ∀ lexeme ∈ input, lexeme.token ≠ .eof) (hends : endsStatement (current ends))
    (hends' : endsStatement (current ends')) (h : ReadsBatch read (input ++ ends) parts) :
    ∃ left right left', parts = left ++ right ∧ ReadsBatch read ends right ∧
      List.Forall₂ (Tree.Matches P fun _ _ => True) left left' ∧
      ∀ more, ReadsBatch read' ends' more → ReadsBatch read' (input' ++ ends') (left' ++ more) := by
  generalize hwhole : input ++ ends = whole at h
  induction h generalizing input input' with
  | @stop whole hend =>
    cases hinput with
    | nil =>
      obtain rfl := hwhole
      exact ⟨[], [], [], rfl, .stop hend, .nil, fun _ hmore => hmore⟩
    | @cons lexeme lexeme' input input' hfirst hinput =>
      rw [← hwhole] at hend
      exact absurd hend (hproper lexeme List.mem_cons_self)
  | @semicolon lexeme rest parts hsemicolon hparts ih =>
    cases hinput with
    | nil =>
      obtain rfl := hwhole
      exact ⟨[], _, [], rfl, .semicolon hsemicolon hparts, .nil, fun _ hmore => hmore⟩
    | @cons first first' input input' hfirst hinput =>
      obtain ⟨rfl, rfl⟩ := List.cons.inj hwhole
      obtain ⟨left, right, left', rfl, hright, hleft, hmore⟩ :=
        ih hinput (List.forall_mem_of_forall_mem_cons hproper) rfl
      have hsemicolon' := (Token.unlabelled_eq_semicolon.mp ((hP hfirst).symm.trans
        (Token.unlabelled_eq_semicolon.mpr hsemicolon)))
      exact ⟨_ :: left, right, _ :: left', rfl, hright, .cons (.leaf hfirst) hleft,
        fun more h => .semicolon hsemicolon' (hmore more h)⟩
  | @statement whole rest trees parts hstatement hstops hparts ih =>
    subst hwhole
    cases hinput with
    | nil =>
      exact ⟨[], _, [], rfl, .statement hstatement hstops hparts, .nil, fun _ hmore => hmore⟩
    | @cons first first' input input' hfirst hinput =>
      have hall := List.Forall₂.cons hfirst hinput
      obtain ⟨mid, mid', trees', rfl, hmid, htrees, hstatement'⟩ :=
        hread hall hends hends' hstatement
      -- what the statement leaves is the end of the same tokens, so none of it ends the text
      have htaken := hkeeps hstatement
      rw [← List.append_assoc] at htaken
      have hsplit := List.append_cancel_right htaken
      obtain ⟨left, right, left', rfl, hright, hleft, hmore⟩ := ih hmid
        (fun lexeme hmem => hproper lexeme (hsplit ▸ List.mem_append_right _ hmem)) rfl
      have hstops' : endsStatement (current (mid' ++ ends')) := by
        rw [endsStatement_iff] at hstops ⊢
        rw [← role_current_append hP hmid hends hends', hstops]
      refine ⟨trees ++ left, right, trees' ++ left', (List.append_assoc ..).symm, hright,
        List.rel_append htrees hleft, fun more h => ?_⟩
      rw [List.append_assoc]
      exact .statement hstatement' hstops' (hmore more h)

/-- At the end of the text there is nothing to read. -/
theorem ReadsBatch.eq_nil (h : ReadsBatch (readStatement dialect levels) input parts)
    (hend : current input = .eof) : parts = [] := by
  cases h with
  | stop _ => rfl
  | semicolon hsemicolon _ =>
    rw [current, hsemicolon] at hend
    cases hend
  | statement hread _ _ =>
    refine absurd ?_ (not_endsStatement_of_readStatement hread)
    rw [hend]
    rfl

/-- A semicolon is a part of its own. -/
theorem ReadsBatch.of_semicolon {lexeme : Lexeme} (hsemicolon : lexeme.token = .symbol .semicolon)
    (h : ReadsBatch (readStatement dialect levels) (lexeme :: rest) parts) :
    ∃ more, parts = .leaf lexeme :: more ∧
      ReadsBatch (readStatement dialect levels) rest more := by
  cases h with
  | stop hend =>
    rw [current, hsemicolon] at hend
    cases hend
  | semicolon _ hrest => exact ⟨_, rfl, hrest⟩
  | statement hread _ _ =>
    refine absurd ?_ (not_endsStatement_of_readStatement hread)
    rw [current, hsemicolon]
    rfl

/-- Each part of a batch is a semicolon or a well-formed statement. -/
theorem ReadsBatch.formed (h : ReadsBatch (readStatement dialect levels) input parts) :
    ∀ tree ∈ parts, tree.isLeaf ∨ (tree.isStatement ∧ tree.WellFormed) := by
  induction h with
  | stop => simp
  | semicolon _ _ ih => exact List.forall_mem_cons.mpr ⟨.inl rfl, ih⟩
  | @statement input rest trees parts hread _ _ ih =>
    refine List.forall_mem_append.mpr ⟨?_, ih⟩
    obtain ⟨tree, rfl, hstatement, hformed⟩ :=
      statement_makes dialect (regular_enter dialect levels levels) trees ⟨input, rest, hread⟩
    simp [hstatement, hformed]

end

end SqlFront.Grammar

namespace SqlFront

open Grammar

namespace Build.Context

variable {context : Context} {lexemes : List Lexeme} {queries : List Query}

/-- The queries of a batch that starts with these tokens. -/
def ReadsQueries (context : Context) (lexemes : List Lexeme) (queries : List Query) : Prop :=
  ∃ parts, ReadsBatch (readStatement context.config.dialect context.config.maxNestingDepth)
      lexemes parts ∧
    (parts.filter fun part => !part.isLeaf).mapM context.statement = .ok queries

theorem readsQueries_eof {span : Span} :
    context.ReadsQueries [⟨.eof, span⟩] queries ↔ queries = [] := by
  constructor
  · rintro ⟨parts, hparts, hqueries⟩
    obtain rfl := hparts.eq_nil rfl
    cases hqueries
    rfl
  · rintro rfl
    exact ⟨[], .stop rfl, rfl⟩

/-- A semicolon in front of a batch adds no query. -/
theorem readsQueries_semicolon (span : Span) :
    context.ReadsQueries (⟨.symbol .semicolon, span⟩ :: lexemes) queries ↔
      context.ReadsQueries lexemes queries := by
  constructor
  · rintro ⟨parts, hparts, hqueries⟩
    obtain ⟨more, rfl, hmore⟩ := hparts.of_semicolon rfl
    exact ⟨more, hmore, hqueries⟩
  · rintro ⟨parts, hparts, hqueries⟩
    exact ⟨_ :: parts, .semicolon rfl hparts, hqueries⟩

end Build.Context

/-- The queries of a text are those of the batch of its tokens. -/
theorem Config.parseBatch_eq_ok {config : Config} {source : Source} {queries : List Query} :
    config.parseBatch source = .ok queries ↔
      ∃ lexemes, config.lexer.lexemes source = .ok lexemes ∧
        Build.Context.ReadsQueries { config, source } lexemes queries := by
  simp only [parseBatch, parseTree, readBatch_eq, Build.Context.batch, mapError_eq_ok, bind_eq_ok,
    map_eq_ok, Prod.exists]
  constructor
  · rintro ⟨_, ⟨lexemes, hlexemes, parts, rest, hread, rfl⟩, hqueries⟩
    exact ⟨lexemes, hlexemes, parts, readsBatch_iff.mpr ⟨rest, hread⟩, hqueries⟩
  · rintro ⟨lexemes, hlexemes, parts, hbatch, hqueries⟩
    obtain ⟨rest, hread⟩ := readsBatch_iff.mp hbatch
    exact ⟨_, ⟨lexemes, hlexemes, parts, rest, hread, rfl⟩, hqueries⟩

theorem Config.parseBatch_iff_of_lexemes {config : Config} {source : Source}
    {lexemes : List Lexeme} (hlexemes : config.lexer.lexemes source = .ok lexemes)
    {queries : List Query} :
    config.parseBatch source = .ok queries ↔
      Build.Context.ReadsQueries { config, source } lexemes queries := by
  rw [parseBatch_eq_ok]
  constructor
  · rintro ⟨others, hothers, hqueries⟩
    obtain rfl : lexemes = others := Except.ok.inj (hlexemes.symm.trans hothers)
    exact hqueries
  · intro hqueries
    exact ⟨lexemes, hlexemes, hqueries⟩

theorem parseWith_eq_ok {config : Config} {text : String} {queries : List Query} :
    parseWith config text = .ok queries ↔
      config.validate = .ok () ∧ config.parseBatch text.toList = .ok queries := by
  rw [parseWith, bind_eq_ok]
  constructor
  · rintro ⟨⟨⟩, hvalid, hqueries⟩
    exact ⟨mapError_eq_ok.mp hvalid, hqueries⟩
  · rintro ⟨hvalid, hqueries⟩
    exact ⟨(), mapError_eq_ok.mpr hvalid, hqueries⟩

theorem parseWith_ofList {config : Config} {source : Source} {queries : List Query}
    (hvalid : config.validate = .ok ()) (h : config.parseBatch source = .ok queries) :
    parseWith config (String.ofList source) = .ok queries :=
  parseWith_eq_ok.mpr ⟨hvalid, by rwa [String.toList_ofList]⟩

end SqlFront
