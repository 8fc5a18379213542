import SqlFront.Proofs.ReplacedName
import SqlFront.Proofs.StatementPlace
import SqlFront.Proofs.UpdateReading

/-!
The update of a table that is called `KEYS`.

`UPDATE KEYS` is a command, and only `SET` behind it makes it the update of a table. So the table of
an update can be called `KEYS` exactly where it has no qualifiers and no alias.
-/

namespace SqlFront

open Piece Grammar

/-- The update of a table of another name, under `BYPASS` or not. Other queries stay as they
are. -/
def Query.renameTable (name : String) : Query → Query
  | .update query => .update { query with table := { query.table with name := name } }
  | .bypass query => .bypass (query.renameTable name)
  | query => query

/-- The second query is the first one with another name of its table. -/
def Query.Renames (name : String) (query query' : Query) : Prop := query' = query.renameTable name

namespace Build.Context

variable {context context' : Context} {tree tree' : Tree} {name : String}

/-- What stands under `BYPASS` is built, and then it goes to the database as it is. -/
theorem statement_bypass {word : Lexeme} (h : tree.isLeaf = false) :
    context.statement (Tree.ofParts .bypassStatement [.leaf word, tree]) =
      context.statement tree >>= bypassed := by
  have hleaf : (Tree.leaf word).isLeaf = true := rfl
  rw [Tree.ofParts, statement, innerStatement, if_pos hleaf, innerStatement, h]
  rfl

theorem bypassed_follows (query : Query) :
    Follows (Query.Renames name) (bypassed query) (bypassed (query.renameTable name)) := by
  have hsame : (query.renameTable name).isBypassable = query.isBypassable := by
    cases query <;> rfl
  unfold bypassed
  rw [hsame]
  split
  · exact .ok rfl
  · exact .reject

theorem isLeaf_underBypass (h : tree.isLeaf = false) (words : List Lexeme) :
    (tree.underBypass words).isLeaf = false := by
  cases words with
  | nil => exact h
  | cons word words => rfl

/-- Under `BYPASS`, too, the queries differ in the name of the table only. -/
theorem underBypass_follows (hleaf : tree.isLeaf = false) (hleaf' : tree'.isLeaf = false)
    (h : Follows (Query.Renames name) (context.statement tree) (context'.statement tree'))
    (words : List Lexeme) :
    Follows (Query.Renames name) (context.statement (tree.underBypass words))
      (context'.statement (tree'.underBypass words)) := by
  induction words with
  | nil => exact h
  | cons word words ih =>
    rw [Tree.underBypass, Tree.underBypass, List.foldr_cons, List.foldr_cons,
      ← Tree.underBypass, ← Tree.underBypass,
      statement_bypass (isLeaf_underBypass hleaf words),
      statement_bypass (isLeaf_underBypass hleaf' words)]
    refine ih.bind ?_
    rintro query _ rfl
    exact bypassed_follows query

end Build.Context

/-! ### The update itself -/

namespace Build.Context

variable (context : Context) {word lexeme : Lexeme} {name : String} {more : List Tree}

theorem table_updateOf (hname : lexeme.token.name? = some name) :
    context.table (Tree.updateOf word lexeme more) = .ok (.ofName name) := by
  have hfound : (Tree.updateOf word lexeme more).required .tableName =
      .ok (Tree.ofParts .tableName [.leaf lexeme]) := rfl
  have hchildren : (Tree.ofParts .tableName [.leaf lexeme]).children = [.leaf lexeme] := rfl
  have hnames : Tree.names [.leaf lexeme] = [name] := by simp [Tree.names, Tree.leaves, hname]
  have htable : TableRef.ofTree context.config.dialect (Tree.ofParts .tableName [.leaf lexeme]) =
      .ok (.ofName name) := by
    rw [TableRef.ofTree, hchildren, hnames]
    rfl
  rw [table, hfound]
  exact htable

theorem update_updateOf (hname : lexeme.token.name? = some name) :
    context.update (Tree.updateOf word lexeme more) = (do
      let assignments ← (more.filter (Tree.hasRule .assignment)).mapM context.assignment
      let condition ← context.whereClause? (Tree.ofParts .whereClause more)
      return ⟨.ofName name, assignments, condition⟩) := by
  have hassignments : (Tree.updateOf word lexeme more).children.filter (Tree.hasRule .assignment) =
      more.filter (Tree.hasRule .assignment) := rfl
  have hclause : context.whereClause? (Tree.updateOf word lexeme more) =
      context.whereClause? (Tree.ofParts .whereClause more) := rfl
  rw [update, hassignments, table_updateOf context hname, hclause]
  rfl

end Build.Context

namespace Parallel

variable {p : Parallel} {word lexeme lexeme' : Lexeme} {name other : String}
  {more more' : List Tree}

theorem updateOf_follows (hleft : p.leftView = .whole) (hright : p.rightView = .whole)
    (hname : lexeme.token.name? = some name) (hother : lexeme'.token.name? = some other)
    (hne : more ≠ []) (hmore : List.Forall₂ p.Trees more more') :
    Follows (Query.Renames other) (p.left.statement (Tree.updateOf word lexeme more))
      (p.right.statement (Tree.updateOf word lexeme' more')) := by
  have hparts : p.Trees (Tree.ofParts .whereClause more) (Tree.ofParts .whereClause more') :=
    .node (Tree.Matches.cover_rel Lexemes.range p.join hne hmore) hmore
  have hupdate {context : Build.Context} {word lexeme : Lexeme} {more : List Tree} :
      context.statement (Tree.updateOf word lexeme more) =
        .update <$> context.update (Tree.updateOf word lexeme more) := rfl
  rw [hupdate, hupdate, Build.Context.update_updateOf _ hname,
    Build.Context.update_updateOf _ hother]
  refine Follows.map (R := fun query query' : UpdateQuery =>
    query' = { query with table := { query.table with name := other } }) ?_ ?_
  · refine (Follows.mapM (Tree.Matches.ofRule hmore .assignment) fun _ _ h =>
      assignment_follows h).bind fun assignments assignments' hassignments => ?_
    refine (whereClause?_follows hparts).bind fun condition condition' hcondition => .ok ?_
    have hvalue (assignment : ColumnRef × Expr) :
        assignment.map id (Expr.seen .whole) = assignment := by
      rw [Prod.map, Expr.seen_whole, id]
    obtain rfl : condition = condition' :=
      Alike.eq_of_whole hleft hright (option_map_whole Cnf.seen_whole) hcondition
    obtain rfl : assignments = assignments' := by
      rw [← List.forall₂_eq_eq_eq]
      exact hassignments.imp fun _ _ h => Alike.eq_of_whole hleft hright hvalue h
    rfl
  · rintro query _ rfl
    rfl

/-- **An update of a table without details, in another text and of a table of another name.** What
stands behind the name is the same in both texts; so is what follows the statement. -/
theorem readsQueries_updateOf (hleft : p.leftView = .whole) (hright : p.rightView = .whole)
    {words tokens tokens' rest : List Lexeme} {span span' : Span} {query : Query}
    {behind : List Query} (hname : lexeme.token.name? = some name)
    (hother : lexeme'.token.name? = some other) (htokens : List.Forall₂ p.Lexemes tokens tokens')
    (hproper : ∀ lexeme ∈ tokens, lexeme.token ≠ .eof)
    (hreads : ReadsUpdate p.left.config.dialect p.left.config.maxNestingDepth words word lexeme
      (tokens ++ [⟨.eof, span⟩]) more rest)
    (hends : endsStatement (current rest))
    (hquery : p.left.statement ((Tree.updateOf word lexeme more).underBypass words) = .ok query)
    (hbehind : p.left.ReadsQueries rest behind) :
    p.right.ReadsQueries (words ++ word :: lexeme' :: (tokens' ++ [⟨.eof, span'⟩]))
      (query.renameTable other :: behind) := by
  have hend (span : Span) : endsStatement (current [⟨.eof, span⟩]) := rfl
  have hisName' : lexeme'.token.isName := by rw [Token.isName, hother]; rfl
  obtain ⟨last, last', more', rfl, hlast, hmatches, hreads'⟩ :=
    hreads.simulates p.keepsToken p.limits.maxNestingDepth hisName' htokens (hend span) (hend span')
  rw [p.limits.dialect] at hreads'
  have hmore : List.Forall₂ p.Trees more more' :=
    forall₂_of_mem hmatches fun tree hmem tree' hmem' h =>
      h.of_wellFormed Lexemes.range p.join (hreads.wellFormed tree hmem)
        (hreads'.wellFormed tree' hmem')
  obtain ⟨_, hquery', rfl⟩ := Build.Context.underBypass_follows rfl rfl
    (updateOf_follows hleft hright hname hother hreads.ne_nil hmore) words query hquery
  have hlastProper : ∀ lexeme ∈ last, lexeme.token ≠ .eof := by
    obtain ⟨below, -, hchanges⟩ := hreads.reads
    have hkeeps := read_keeps (enter_keeps _ _ _) _ hchanges
    rw [← List.append_assoc] at hkeeps
    have hsplit := List.append_cancel_right hkeeps
    exact fun lexeme hmem => hproper lexeme (hsplit ▸ List.mem_append_right _ hmem)
  obtain ⟨behind', halike, hbehind'⟩ := readsQueries_follow hlast hlastProper hbehind span'
  have halike : p.Alike (fun view => List.map (Query.seen view)) behind behind' := halike
  obtain rfl := halike.eq_of_whole hleft hright (map_whole Query.seen_whole)
  refine .cons hreads'.readStatement ?_ (Build.Context.isLeaf_underBypass rfl words) hquery'
    hbehind'
  rw [endsStatement_iff] at hends ⊢
  rw [← role_current_append p.keepsToken hlast (hend span) (hend span'), hends]

end Parallel

/-! ### The name `KEYS` -/

/-- The word `KEYS` is a name. -/
theorem Lexer.piece_keys (lexer : Lexer) (rest : List Char)
    (h : ∀ d, rest.head? = some d → isNameChar d = false) :
    lexer.piece 'K' (['E', 'Y', 'S'] ++ rest) =
      .ok ⟨['K', 'E', 'Y', 'S'], .token (.name (String.ofList ['K', 'E', 'Y', 'S']))⟩ := by
  have htext : (['K', 'E', 'Y', 'S'] ++ rest).takeWhile isNameChar = ['K', 'E', 'Y', 'S'] :=
    takeWhile_append_eq_left.mpr ⟨List.all_eq_true.mp rfl, h⟩
  have hword : wordPiece ('K' :: (['E', 'Y', 'S'] ++ rest)) =
      ⟨['K', 'E', 'Y', 'S'], .token (.name (String.ofList ['K', 'E', 'Y', 'S']))⟩ := by
    rw [← List.cons_append, wordPiece, htext]
    rfl
  rw [← hword]
  simp [Lexer.piece, gap?, tokenPiece, isBlank, isNameStart]

/-- The tokens of pieces do not depend on the byte they start at. -/
theorem Piece.map_token_lexemesOf (n offset offset' : Nat) (pieces : List Piece) :
    (lexemesOf n offset pieces).map Lexeme.token =
      (lexemesOf n offset' pieces).map Lexeme.token := by
  induction pieces generalizing n offset offset' with
  | nil => rfl
  | cons piece pieces ih =>
    rw [lexemesOf, lexemesOf, List.map_append, List.map_append,
      ih _ (offset + byteLength piece.text) (offset' + byteLength piece.text)]
    unfold lexeme?
    split <;> rfl

namespace Config

variable {config : Config} {source : Source} {tree : Tree} {queries : List Query}

/-- The tree of a text is that of the batch of its tokens. -/
theorem exists_parts_of_parseTree (h : config.parseTree source = .ok tree) :
    ∃ lexemes, config.lexer.lexemes source = .ok lexemes ∧
      ReadsBatch (readStatement config.dialect config.maxNestingDepth) lexemes tree.children := by
  obtain ⟨lexemes, parts, rest, hlexemes, hread, rfl⟩ := parseTree_eq_ok h
  exact ⟨lexemes, hlexemes, readsBatch_iff.mpr ⟨rest, hread⟩⟩

theorem batch_of_parseBatch (htree : config.parseTree source = .ok tree)
    (h : config.parseBatch source = .ok queries) :
    Build.Context.batch { config, source } tree = .ok queries := by
  rw [parseBatch, htree] at h
  exact mapError_eq_ok.mp h

/-- **An update of a table without details can be one of another table**, whatever batch it stands
in. -/
theorem readsQueries_renamed {left right : List Piece} {name other : List Char} {spelled : String}
    {front words tail rest : List Lexeme} {word lexeme lexeme' : Lexeme} {more : List Tree}
    {ahead behind : List Query} {query : Query} {n : Nat}
    (hleft : config.lexer.Cuts left) (hright : config.lexer.Cuts right)
    (hfront : lexemesOf 0 0 left = front ++ (words ++ [word]))
    (htail : tail = lexemesOf n (byteLength (textOf left ++ name)) right ++
      [endOf (textOf right) (byteLength (textOf left ++ name))])
    (hname : lexeme.token.isName) (hother : lexeme'.token.name? = some spelled)
    (h : Build.Context.ReadsQueries { config, source := textOf left ++ name ++ textOf right }
      (front ++ (words ++ word :: lexeme :: tail)) (ahead ++ query :: behind))
    (hplace : Build.Context.Place { config, source := textOf left ++ name ++ textOf right } front
      (words ++ word :: lexeme :: tail) ((Tree.updateOf word lexeme more).underBypass words) query
      rest behind)
    (hreads : ReadsUpdate config.dialect config.maxNestingDepth words word lexeme tail more rest) :
    Build.Context.ReadsQueries { config, source := textOf left ++ other ++ textOf right }
      (front ++ (words ++ word :: lexeme' ::
        (lexemesOf n (byteLength (textOf left ++ other)) right ++
          [endOf (textOf right) (byteLength (textOf left ++ other))])))
      (ahead ++ query.renameTable spelled :: behind) := by
  subst htail
  have hsource := Source.HasAt.whole (textOf left ++ name ++ textOf right)
  have hsource' := Source.HasAt.whole (textOf left ++ other ++ textOf right)
  refine Build.Context.readsQueries_of_front hleft hsource.left.left hsource'.left.left hfront
    hplace.starts h (hplace.continues.cons hplace.reads hplace.ends
      (Build.Context.isLeaf_underBypass rfl words) hplace.builds) ?_
  have hback := hsource.right
  have hback' := hsource'.right
  rw [Nat.zero_add] at hback hback'
  have haliases : View.whole.aliasName = View.whole.aliasName := rfl
  let p := Parallel.ofPart (.refl config) hback hback' .whole .whole haliases
  have hafter : List.Forall₂ p.Lexemes
      (lexemesOf n (byteLength (textOf left ++ name)) right)
      (lexemesOf n (byteLength (textOf left ++ other)) right) :=
    Parallel.ofPart_lexemesOf (.refl config) hback hback' haliases n n (fun _ _ => rfl)
      fun _ _ _ _ => rfl
  obtain ⟨written, hwritten⟩ := Option.isSome_iff_exists.mp hname
  exact Parallel.readsQueries_updateOf (p := p) rfl rfl hwritten hother hafter (hright.proper _ _)
    hreads hplace.ends hplace.builds hplace.continues

/-- **Where the table of an update can be called `KEYS`.** The word `KEYS` can stand in the place of
the name that starts the table of an update exactly where the table has no details, which are
further qualifiers and an alias. The queries are then the same ones, up to the name of that
table. -/
theorem parseBatch_updateOfKeys {before name after : List Char} {statement table : Tree}
    {lexeme : Lexeme} {parts : List Tree} {i : Nat}
    (htree : config.parseTree (before ++ name ++ after) = .ok tree)
    (h : config.parseBatch (before ++ name ++ after) = .ok queries)
    (hstatement : tree.statements[i]? = some statement)
    (hupdate : statement.hasRule .updateStatement)
    (htable : Tree.find? .tableName statement.children = some table)
    (hparts : table.children = .leaf lexeme :: parts)
    (hname : lexeme.token = .name (String.ofList name))
    (hplace : lexeme.span.start = byteLength before) :
    ((∃ queries', config.parseBatch (before ++ ['K', 'E', 'Y', 'S'] ++ after) = .ok queries') ↔
      parts = []) ∧
    ∀ queries', config.parseBatch (before ++ ['K', 'E', 'Y', 'S'] ++ after) = .ok queries' →
      queries' = queries.modify i (Query.renameTable "KEYS") := by
  obtain ⟨lexemes, hlexemes, hbatch⟩ := exists_parts_of_parseTree htree
  have hqueries := batch_of_parseBatch htree h
  obtain ⟨top, htop, rfl⟩ : ∃ top,
      (tree.children.filter fun child => !child.isLeaf)[i]? = some top ∧ top.core = statement := by
    simpa [Tree.statements, Option.map_eq_some_iff] using hstatement
  obtain ⟨front, tail, rest, ahead, query, behind, rfl, rfl, rfl, hat⟩ :=
    Build.Context.exists_place_of_readsBatch { config, source := before ++ name ++ after } hbatch
      hqueries htop
  obtain ⟨words, word, found, tail, details, more, rfl, hwords, hword, hwhole, hcore, hdetails⟩ :=
    exists_update_of_read hat.reads hupdate
  obtain ⟨rfl, rfl⟩ : found = lexeme ∧ details = parts := by
    rw [hcore] at htable
    cases htable
    cases hparts
    exact ⟨rfl, rfl⟩
  have hbare : word.token.isBare := by
    rw [hword]
    rfl
  rw [← List.append_assoc] at hlexemes
  obtain ⟨left, right, n, hleft, hright, rfl, rfl, hfront, htail, hlexemes'⟩ :=
    Lexer.lexemes_replaced hlexemes hbare hname hplace config.lexer.piece_keys
  rw [List.append_assoc front] at hlexemes' hfront
  rcases hdetails with ⟨rfl, hreads⟩ | ⟨hne, hdetails⟩
  · have haccepted : config.parseBatch (textOf left ++ ['K', 'E', 'Y', 'S'] ++ textOf right) =
        .ok (ahead ++ query.renameTable "KEYS" :: behind) := by
      rw [hcore] at hwhole
      rw [hwhole] at hat
      exact (parseBatch_iff_of_lexemes hlexemes').mpr (readsQueries_renamed hleft hright hfront
        htail hreads.named rfl ⟨tree.children, hbatch, hqueries⟩ hat hreads)
    have hmodify : (ahead ++ query :: behind).modify ahead.length (Query.renameTable "KEYS") =
        ahead ++ query.renameTable "KEYS" :: behind := List.modifyTailIdx_add _ 0 ahead _
    rw [haccepted, hmodify]
    exact ⟨⟨fun _ => rfl, fun _ => ⟨_, rfl⟩⟩, fun queries' h' => (Except.ok.inj h').symm⟩
  · have hproper : ∀ lexeme ∈ front, lexeme.token ≠ .eof := fun lexeme hmem =>
      hleft.proper 0 0 lexeme (hfront ▸ List.mem_append_left _ hmem)
    have hrejected : ¬ ∃ queries',
        config.parseBatch (textOf left ++ ['K', 'E', 'Y', 'S'] ++ textOf right) = .ok queries' := by
      rintro ⟨queries', h'⟩
      obtain ⟨parts, hparts, -⟩ := (parseBatch_iff_of_lexemes hlexemes').mp h'
      obtain ⟨more, hmore⟩ := hparts.behind hat.starts hproper
      refine not_readsBatch_of_details hwords hword rfl (hdetails.of_map_token ?_) hmore
      rw [htail, List.map_append, List.map_append, map_token_lexemesOf]
      rfl
    exact ⟨iff_of_false hrejected hne, fun queries' h' => absurd ⟨queries', h'⟩ hrejected⟩

/-- The table of an update without alias is called `KEYS`. -/
theorem parseBatch_updateOfKeys_of_set :
    let config := ofDialect .mysql
    let before := ['U', 'P', 'D', 'A', 'T', 'E', ' ']
    let after := [' ', 'S', 'E', 'T', ' ', 'a', ' ', '=', ' ', '1']
    ∃ queries, config.parseBatch (before ++ ['t'] ++ after) = .ok queries ∧
      (∃ queries', config.parseBatch (before ++ ['K', 'E', 'Y', 'S'] ++ after) = .ok queries') ∧
      ∀ queries', config.parseBatch (before ++ ['K', 'E', 'Y', 'S'] ++ after) = .ok queries' →
        queries' = queries.modify 0 (Query.renameTable "KEYS") := by
  intro config before after
  have written : ∃ tree queries statement table lexeme,
      config.parseTree (before ++ ['t'] ++ after) = .ok tree ∧
      config.parseBatch (before ++ ['t'] ++ after) = .ok queries ∧
      tree.statements[0]? = some statement ∧ statement.hasRule .updateStatement ∧
      Tree.find? .tableName statement.children = some table ∧ table.children = [.leaf lexeme] ∧
      lexeme.token = .name (String.ofList ['t']) ∧ lexeme.span.start = byteLength before := by
    dsimp only [config, before, after]
    exact ⟨_, _, _, _, _, rfl, rfl, rfl, rfl, rfl, rfl, rfl, rfl⟩
  obtain ⟨tree, queries, statement, table, lexeme, htree, h, hstatement, hupdate, htable, hparts,
    hname, hplace⟩ := written
  have renamed := parseBatch_updateOfKeys htree h hstatement hupdate htable hparts hname hplace
  exact ⟨queries, h, renamed.1.mpr rfl, renamed.2⟩

/-- Not every table of an update can be called `KEYS`: one with an alias cannot. -/
theorem parseBatch_rejects_alias_of_keys :
    let config := ofDialect .mysql
    let before := ['U', 'P', 'D', 'A', 'T', 'E', ' ']
    let after := [' ', 'A', 'S', ' ', 'k', ' ', 'S', 'E', 'T', ' ', 'a', ' ', '=', ' ', '1']
    ¬ ∀ queries, config.parseBatch (before ++ ['t'] ++ after) = .ok queries →
      config.parseBatch (before ++ ['K', 'E', 'Y', 'S'] ++ after) =
        .ok (queries.map (Query.renameTable "KEYS")) := by
  intro config before after replaceable
  have accepted : ∃ queries, config.parseBatch (before ++ ['t'] ++ after) = .ok queries := by
    dsimp only [config, before, after]
    exact ⟨_, rfl⟩
  have rejected : ∃ error,
      config.parseBatch (before ++ ['K', 'E', 'Y', 'S'] ++ after) = .error error := by
    dsimp only [config, before, after]
    exact ⟨_, rfl⟩
  obtain ⟨queries, accepted⟩ := accepted
  obtain ⟨error, rejected⟩ := rejected
  rw [replaceable queries accepted] at rejected
  cases rejected

end Config

end SqlFront
