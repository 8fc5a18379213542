import SqlFront.Proofs.BatchReading
import SqlFront.Proofs.ParallelStatement
import SqlFront.Proofs.ParallelText

/-!
Batches side by side.

Where two batches begin with related tokens up to the end of a statement, they begin with queries
that look alike. What follows in the first one is a batch of its own, and any batch may follow in
the second one.
-/

namespace SqlFront

open Piece Grammar

namespace Parallel

variable {p : Parallel}

/-- Where trees of the same form are parts of batches, they cover related ranges. -/
theorem trees_of_parts {parts parts' : List Tree}
    (h : List.Forall₂ (Tree.Matches p.Lexemes fun _ _ => True) parts parts')
    (hformed : ∀ tree ∈ parts, tree.isLeaf ∨ (tree.isStatement ∧ tree.WellFormed))
    (hformed' : ∀ tree ∈ parts', tree.isLeaf ∨ (tree.isStatement ∧ tree.WellFormed)) :
    List.Forall₂ p.Trees parts parts' := by
  apply forall₂_of_mem h
  intro tree hmem tree' hmem' hmatches
  rcases hformed tree hmem with hleaf | ⟨-, hformed⟩
  · cases hmatches with
    | leaf h => exact .leaf h
    | node _ _ => cases hleaf
  · rcases hformed' tree' hmem' with hleaf | ⟨-, hformed'⟩
    · cases hmatches with
      | leaf h => exact .leaf h
      | node _ _ => cases hleaf
    · exact hmatches.of_wellFormed Lexemes.range p.join hformed hformed'

/-- **Batches that begin with related tokens begin with queries that look alike.** -/
theorem readsQueries_split {tokens tokens' ends ends' : List Lexeme} {queries more : List Query}
    (htokens : List.Forall₂ p.Lexemes tokens tokens')
    (hproper : ∀ lexeme ∈ tokens, lexeme.token ≠ .eof)
    (hends : endsStatement (current ends))
    (hends' : endsStatement (current ends'))
    (h : p.left.ReadsQueries (tokens ++ ends) queries) (hmore : p.right.ReadsQueries ends' more) :
    ∃ first second first', queries = first ++ second ∧ p.left.ReadsQueries ends second ∧
      first.map (Query.seen p.leftView) = first'.map (Query.seen p.rightView) ∧
      p.right.ReadsQueries (tokens' ++ ends') (first' ++ more) := by
  obtain ⟨parts, hparts, hqueries⟩ := h
  obtain ⟨others, hothers, hmore⟩ := hmore
  have hread : Simulates p.Lexemes
      (readStatement p.left.config.dialect p.left.config.maxNestingDepth)
      (readStatement p.left.config.dialect p.right.config.maxNestingDepth) :=
    readStatement_simulates p.keepsToken p.limits.maxNestingDepth
  obtain ⟨front, tail, front', rfl, htail, hfront, hbatch⟩ :=
    hparts.split p.keepsToken (read_keeps (enter_keeps _ _ _) _) hread htokens
      hproper hends hends'
  rw [p.limits.dialect] at hbatch
  have hright := hbatch others hothers
  have htrees : List.Forall₂ p.Trees front front' :=
    trees_of_parts hfront (fun tree hmem => hparts.formed tree (List.mem_append_left _ hmem))
      fun tree hmem => hright.formed tree (List.mem_append_left _ hmem)
  have hstatements : List.Forall₂ p.Trees (front.filter fun part => !part.isLeaf)
      (front'.filter fun part => !part.isLeaf) :=
    rel_filter htrees fun _ _ h => by rw [h.isLeaf_eq]
  rw [List.filter_append, List.mapM_append] at hqueries
  simp only [bind_eq_ok, pure_eq_ok] at hqueries
  obtain ⟨first, hfirst, second, hsecond, rfl⟩ := hqueries
  obtain ⟨first', hfirst', halike⟩ :=
    Follows.mapM hstatements (fun _ _ h => statement_follows _ h) first hfirst
  refine ⟨first, second, first', rfl, ⟨tail, htail, hsecond⟩, Alike.map halike, front' ++ others,
    hright, ?_⟩
  rw [List.filter_append, List.mapM_append, hfirst', hmore]
  rfl

/-- Where all tokens of two texts are related, their queries look alike. -/
theorem readsQueries_follow {tokens tokens' : List Lexeme} {span : Span} {queries : List Query}
    (htokens : List.Forall₂ p.Lexemes tokens tokens')
    (hproper : ∀ lexeme ∈ tokens, lexeme.token ≠ .eof)
    (h : p.left.ReadsQueries (tokens ++ [⟨.eof, span⟩]) queries) (span' : Span) :
    ∃ queries', queries.map (Query.seen p.leftView) = queries'.map (Query.seen p.rightView) ∧
      p.right.ReadsQueries (tokens' ++ [⟨.eof, span'⟩]) queries' := by
  have hend : p.right.ReadsQueries [⟨.eof, span'⟩] [] := Build.Context.readsQueries_eof.mpr rfl
  obtain ⟨first, second, first', rfl, hsecond, halike, hright⟩ :=
    readsQueries_split htokens hproper rfl rfl h hend
  obtain rfl := Build.Context.readsQueries_eof.mp hsecond
  rw [List.append_nil] at hright ⊢
  exact ⟨first', halike, hright⟩

end Parallel

/-- No token of a text is its end. -/
theorem Lexer.Cuts.proper {lexer : Lexer} {pieces : List Piece} (h : lexer.Cuts pieces)
    (parameters offset : Nat) :
    ∀ lexeme ∈ lexemesOf parameters offset pieces, lexeme.token ≠ .eof := by
  have hlexemes : lexer.lexemesFrom parameters offset 0 (textOf pieces) =
      .ok (lexemesOf parameters offset pieces ++ [endOf (textOf pieces) offset]) :=
    lexemesFrom_eq_ok.mpr ⟨pieces, h, rfl, rfl⟩
  obtain ⟨tokens, stop, hsplit, hspaced⟩ := lexer.lexemesFrom_spaced (Nat.zero_le _) hlexemes
  obtain ⟨rfl, -⟩ := List.append_inj' hsplit rfl
  exact hspaced.proper

/-- **A text that two batches start with starts them with the same queries**, under limits that
allow as much. -/
theorem Build.Context.readsQueries_of_start {config larger : Config}
    (hlimits : config.AtMost larger) {lexer : Lexer} {pieces : List Piece}
    (hcuts : lexer.Cuts pieces) {source source' : Source} (hsource : source.HasAt 0 (textOf pieces))
    (hsource' : source'.HasAt 0 (textOf pieces)) {ends ends' : List Lexeme}
    {queries more : List Query} (hends : endsStatement (current ends))
    (hends' : endsStatement (current ends'))
    (h : ReadsQueries { config, source } (lexemesOf 0 0 pieces ++ ends) queries)
    (hmore : ReadsQueries { config := larger, source := source' } ends' more) :
    ∃ first second, queries = first ++ second ∧ ReadsQueries { config, source } ends second ∧
      ReadsQueries { config := larger, source := source' } (lexemesOf 0 0 pieces ++ ends')
        (first ++ more) := by
  have haliases : View.whole.aliasName = View.whole.aliasName := rfl
  have htokens := Parallel.ofPart_lexemesOf hlimits hsource hsource' haliases 0 0 (fun _ _ => rfl)
    fun _ _ _ _ => rfl
  obtain ⟨first, second, first', rfl, hsecond, halike, hright⟩ :=
    Parallel.readsQueries_split htokens (hcuts.proper 0 0) hends hends' h hmore
  have hsame : first = first' := by
    rw [← map_whole Query.seen_whole first, ← map_whole Query.seen_whole first']
    exact halike
  subst hsame
  exact ⟨first, second, rfl, hsecond, hright⟩

end SqlFront
