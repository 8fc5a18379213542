import SqlFront.Proofs.ParallelBatch

/-!
Limits and what they leave.

The limits on nesting and on the terms of conditions decide whether a batch is accepted, and nothing
else: a batch that is accepted under some settings means the same under settings that allow more.
-/

namespace SqlFront

open Piece

namespace Config.AtMost

variable {config larger : Config}

theorem lexer_eq (h : config.AtMost larger) : config.lexer = larger.lexer := by
  rw [lexer, h.dialect, h.effectiveBackslashEscapes, lexer]

/-- Limits that allow more than valid ones are valid. -/
theorem validate (h : config.AtMost larger) (hvalid : config.validate = .ok ()) :
    larger.validate = .ok () := by
  have hdepth := h.maxNestingDepth
  have hleaves := h.maxCnfLeaves
  unfold Config.validate at hvalid ⊢
  split at hvalid
  · cases hvalid
  split at hvalid
  · cases hvalid
  rw [if_neg (by omega), if_neg (by omega)]

end Config.AtMost

theorem Config.AtMost.parseBatch {config larger : Config} (h : config.AtMost larger)
    {source : Source} {queries : List Query} (hparse : config.parseBatch source = .ok queries) :
    larger.parseBatch source = .ok queries := by
  obtain ⟨lexemes, hlexemes, hqueries⟩ := parseBatch_eq_ok.mp hparse
  refine parseBatch_eq_ok.mpr ⟨lexemes, h.lexer_eq ▸ hlexemes, ?_⟩
  obtain ⟨pieces, hcuts, rfl, rfl⟩ := Lexer.lexemes_eq_ok.mp hlexemes
  -- the text stands against itself, and behind its pieces there is only its end
  have hwhole := Source.HasAt.whole (textOf pieces)
  obtain ⟨first, second, rfl, hend, hright⟩ :=
    Build.Context.readsQueries_of_start h hcuts hwhole hwhole rfl rfl hqueries
      (Build.Context.readsQueries_eof.mpr rfl)
  rwa [Build.Context.readsQueries_eof.mp hend]

/-- **Limits only ever reject.** -/
theorem parseWith_of_atMost {config larger : Config} (h : config.AtMost larger) {text : String}
    {queries : List Query} (hparse : parseWith config text = .ok queries) :
    parseWith larger text = .ok queries := by
  obtain ⟨hvalid, hparse⟩ := parseWith_eq_ok.mp hparse
  exact parseWith_eq_ok.mpr ⟨h.validate hvalid, h.parseBatch hparse⟩

/-- The condition is nested in parentheses, and has two terms. -/
theorem parseWith_of_atMost_of_delete :
    let config : Config := ⟨.mysql, none, true, 2, 2⟩
    let source := ['D', 'E', 'L', 'E', 'T', 'E', ' ', 't', ' ', 'W', 'H', 'E', 'R', 'E', ' ', '(',
      'a', ' ', 'B', 'E', 'T', 'W', 'E', 'E', 'N', ' ', '1', ' ', 'A', 'N', 'D', ' ', '2', ')']
    config.AtMost Config.standard ∧ ∃ queries,
      parseWith config (String.ofList source) = .ok queries ∧
      parseWith .standard (String.ofList source) = .ok queries := by
  intro config source
  have hlimits : config.AtMost Config.standard := ⟨rfl, rfl, rfl, by decide, by decide⟩
  obtain ⟨queries, hbatch⟩ : ∃ queries, config.parseBatch source = .ok queries := ⟨_, rfl⟩
  have hparse := parseWith_ofList rfl hbatch
  exact ⟨hlimits, queries, hparse, parseWith_of_atMost hlimits hparse⟩

end SqlFront
