import SqlFront.Proofs.LabelledForms
import SqlFront.Proofs.ParallelBatch

/-!
Where a statement stands in its batch.

A statement starts where the batch does or behind a semicolon, and the tokens in front of it are
read without a look at it. So it can be replaced by another statement, in another text, and the
queries in front of it stay the same.
-/

namespace SqlFront

namespace Grammar

variable {dialect : Dialect} {levels : Nat} {input front tail : List Lexeme}
  {parts others : List Tree}

/-- A statement can start behind these tokens. -/
def StartsBehind (front : List Lexeme) : Prop :=
  front = [] ∨ ∃ init span, front = init ++ [⟨.symbol .semicolon, span⟩]

theorem StartsBehind.append (h : StartsBehind front) (hne : front ≠ []) (more : List Lexeme) :
    StartsBehind (more ++ front) := by
  rcases h with rfl | ⟨init, span, rfl⟩
  · exact absurd rfl hne
  · exact .inr ⟨more ++ init, span, (List.append_assoc ..).symm⟩

namespace ReadsBatch

/-- A batch has one reading. -/
theorem unique (h : ReadsBatch (readStatement dialect levels) input parts)
    (h' : ReadsBatch (readStatement dialect levels) input others) : parts = others := by
  obtain ⟨rest, hread⟩ := readsBatch_iff.mp h
  obtain ⟨rest', hread'⟩ := readsBatch_iff.mp h'
  rw [hread] at hread'
  cases hread'
  rfl

/-- What follows the start of a batch is a batch. -/
theorem behind (hfront : StartsBehind front) (hproper : ∀ lexeme ∈ front, lexeme.token ≠ .eof)
    (h : ReadsBatch (readStatement dialect levels) (front ++ tail) parts) :
    ∃ more, ReadsBatch (readStatement dialect levels) tail more := by
  rcases hfront with rfl | ⟨init, span, rfl⟩
  · exact ⟨parts, h⟩
  · have hP : KeepsToken Eq := fun h => by rw [h]
    have hsame : List.Forall₂ Eq init init := List.forall₂_refl _
    have hends : endsStatement (current (⟨.symbol .semicolon, span⟩ :: tail)) := rfl
    rw [List.append_assoc, List.singleton_append] at h
    obtain ⟨_, _, _, -, hright, -⟩ := h.split hP (read_keeps (enter_keeps _ _ _) _)
      (readStatement_simulates hP (Nat.le_refl levels)) hsame
      (fun lexeme hmem => hproper lexeme (List.mem_append_left _ hmem)) hends hends
    obtain ⟨more, -, hmore⟩ := hright.of_semicolon rfl
    exact ⟨more, hmore⟩

end ReadsBatch

end Grammar

namespace Build.Context

open Grammar

variable {context : Context} {input front tail : List Lexeme} {queries others : List Query}

theorem ReadsQueries.unique (h : context.ReadsQueries input queries)
    (h' : context.ReadsQueries input others) : queries = others := by
  obtain ⟨parts, hparts, hqueries⟩ := h
  obtain ⟨parts', hparts', hothers⟩ := h'
  obtain rfl := hparts.unique hparts'
  exact Except.ok.inj (hqueries.symm.trans hothers)

/-- Only statements are built. -/
theorem filter_statement {tree : Tree} (h : tree.isLeaf = false) (parts : List Tree) :
    ([tree] ++ parts).filter (fun part => !part.isLeaf) =
      tree :: parts.filter fun part => !part.isLeaf :=
  List.filter_cons_of_pos (by simp [h])

/-- A batch that starts with a statement. -/
theorem ReadsQueries.cons {tree : Tree} {rest : List Lexeme} {query : Query}
    (hread : readStatement context.config.dialect context.config.maxNestingDepth input =
      .ok ([tree], rest)) (hends : endsStatement (current rest)) (hleaf : tree.isLeaf = false)
    (hquery : context.statement tree = .ok query) (hrest : context.ReadsQueries rest queries) :
    context.ReadsQueries input (query :: queries) := by
  obtain ⟨parts, hparts, hqueries⟩ := hrest
  refine ⟨[tree] ++ parts, .statement hread hends hparts, ?_⟩
  rw [filter_statement hleaf, List.mapM_cons, hquery, hqueries]
  rfl

/-- A statement behind the front of a batch: it can start there, it is read up to its end and built
into a query, and a batch follows. -/
structure Place (context : Context) (front tail : List Lexeme) (tree : Tree) (query : Query)
    (rest : List Lexeme) (behind : List Query) : Prop where
  starts : StartsBehind front
  reads : readStatement context.config.dialect context.config.maxNestingDepth tail =
    .ok ([tree], rest)
  ends : endsStatement (current rest)
  builds : context.statement tree = .ok query
  continues : context.ReadsQueries rest behind

/-- **Each statement of a batch has its place**, and there it gives the query of its number. -/
theorem exists_place_of_readsBatch (context : Context) {input : List Lexeme}
    {queries : List Query} {parts : List Tree} {top : Tree} {i : Nat}
    (h : ReadsBatch (readStatement context.config.dialect context.config.maxNestingDepth)
      input parts)
    (hqueries : (parts.filter fun part => !part.isLeaf).mapM context.statement = .ok queries)
    (htop : (parts.filter fun part => !part.isLeaf)[i]? = some top) :
    ∃ front tail rest ahead query behind, input = front ++ tail ∧
      queries = ahead ++ query :: behind ∧ ahead.length = i ∧
      Place context front tail top query rest behind := by
  induction h generalizing queries i with
  | stop => simp at htop
  | @semicolon lexeme rest parts hsemicolon hparts ih =>
    obtain ⟨front, tail, rest, ahead, query, behind, rfl, rfl, rfl, hplace⟩ := ih hqueries htop
    refine ⟨lexeme :: front, tail, rest, ahead, query, behind, rfl, rfl, rfl, ?_⟩
    refine { hplace with starts := ?_ }
    obtain ⟨_, span⟩ := lexeme
    obtain rfl := hsemicolon
    rcases hplace.starts with rfl | ⟨init, other, rfl⟩
    · exact .inr ⟨[], span, rfl⟩
    · exact .inr ⟨_ :: init, other, rfl⟩
  | @statement input rest trees parts hread hends hparts ih =>
    obtain ⟨tree, rfl, hstatement, -⟩ :=
      statement_makes _ (regular_enter _ _ _) trees ⟨input, rest, hread⟩
    rw [filter_statement (Tree.isLeaf_of_isStatement hstatement)] at hqueries htop
    simp only [List.mapM_cons, bind_eq_ok, pure_eq_ok] at hqueries
    obtain ⟨first, hfirst, more, hmore, rfl⟩ := hqueries
    cases i with
    | zero =>
      obtain rfl : tree = top := by simpa using htop
      exact ⟨[], input, rest, [], first, more, rfl, rfl, rfl, .inl rfl, hread, hends, hfirst, parts,
        hparts, hmore⟩
    | succ i =>
      obtain ⟨front, tail, last, ahead, query, behind, rfl, rfl, rfl, hplace⟩ :=
        ih hmore (by simpa using htop)
      -- the next statement does not start where this one ends, so a semicolon stands there
      have hne : front ≠ [] := by
        rintro rfl
        exact not_endsStatement_of_readStatement hplace.reads hends
      have hkeeps := read_keeps (enter_keeps _ _ _) _ hread
      refine ⟨Tree.terminalsOf [tree] ++ front, tail, last, first :: ahead, query, behind, ?_, rfl,
        rfl, { hplace with starts := hplace.starts.append hne _ }⟩
      rw [List.append_assoc, hkeeps]

end Build.Context

open Grammar

/-- What looks alike is equal where it is seen as it is. -/
theorem Parallel.Alike.eq_of_whole {p : Parallel} (hleft : p.leftView = .whole)
    (hright : p.rightView = .whole) {α : Type} {seen : View → α → α}
    (hseen : ∀ x, seen .whole x = x) {x y : α} (h : p.Alike seen x y) : x = y := by
  rw [← hseen x, ← hseen y, ← hleft, h, hright, hleft]

/-- **The queries in front of a statement stay the same in another text that starts in the same
way**, whatever batch follows there. -/
theorem Parallel.readsQueries_replace {p : Parallel} (hleft : p.leftView = .whole)
    (hright : p.rightView = .whole) {front tail tail' : List Lexeme}
    {ahead behind behind' : List Query} (hfront : StartsBehind front)
    (htokens : ∀ lexeme ∈ front, p.Lexemes lexeme lexeme)
    (hproper : ∀ lexeme ∈ front, lexeme.token ≠ .eof)
    (h : p.left.ReadsQueries (front ++ tail) (ahead ++ behind))
    (htail : p.left.ReadsQueries tail behind) (htail' : p.right.ReadsQueries tail' behind') :
    p.right.ReadsQueries (front ++ tail') (ahead ++ behind') := by
  rcases hfront with rfl | ⟨init, span, rfl⟩
  · obtain rfl : ahead = [] := by simpa using h.unique htail
    exact htail'
  · rw [List.forall_mem_append] at htokens hproper
    rw [List.append_assoc, List.singleton_append] at h ⊢
    obtain ⟨first, second, first', hsplit, hsecond, halike, hwhole⟩ :=
      readsQueries_split (List.forall₂_same.mpr htokens.1) hproper.1 rfl rfl h
        ((Build.Context.readsQueries_semicolon span).mpr htail')
    obtain rfl := ((Build.Context.readsQueries_semicolon span).mp hsecond).unique htail
    obtain rfl := List.append_cancel_right hsplit
    have halike : p.Alike (fun view => List.map (Query.seen view)) ahead first' := halike
    rw [halike.eq_of_whole hleft hright (map_whole Query.seen_whole)]
    exact hwhole

/-- **A text that a batch starts with gives the same queries in another batch**, up to the place of
a statement. -/
theorem Build.Context.readsQueries_of_front {config : Config} {left : List Piece}
    (hleft : config.lexer.Cuts left) {source source' : Source}
    (hsource : source.HasAt 0 (Piece.textOf left)) (hsource' : source'.HasAt 0 (Piece.textOf left))
    {front more tail tail' : List Lexeme} {ahead behind behind' : List Query}
    (htokens : Piece.lexemesOf 0 0 left = front ++ more) (hfront : StartsBehind front)
    (h : ReadsQueries { config, source } (front ++ tail) (ahead ++ behind))
    (htail : ReadsQueries { config, source } tail behind)
    (htail' : ReadsQueries { config, source := source' } tail' behind') :
    ReadsQueries { config, source := source' } (front ++ tail') (ahead ++ behind') := by
  have hproper := hleft.proper 0 0
  have haliases : View.whole.aliasName = View.whole.aliasName := rfl
  let p := Parallel.ofPart (.refl config) hsource hsource' .whole .whole haliases
  have hsame : List.Forall₂ p.Lexemes (Piece.lexemesOf 0 0 left) (Piece.lexemesOf 0 0 left) :=
    Parallel.ofPart_lexemesOf (.refl config) hsource hsource' haliases 0 0 (fun _ _ => rfl)
      fun _ _ _ _ => rfl
  rw [htokens, List.forall_mem_append] at hproper
  rw [htokens, List.forall₂_same, List.forall_mem_append] at hsame
  exact Parallel.readsQueries_replace (p := p) rfl rfl hfront hsame.1 hproper.1 h htail htail'

end SqlFront
