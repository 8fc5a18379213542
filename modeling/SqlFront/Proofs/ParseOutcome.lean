import SqlFront.Proofs.ParseTree
import SqlFront.Proofs.StatementRefusal

/-!
How the parsing of a text can end. The grammar and the builder agree on the shape of parse trees, so
that a text that can be read is built or refused for what it means, and only a text that cannot be
read is a parse failure.
-/

namespace SqlFront.Config

open Grammar

/-- The reading of a text stops at a fault: it has no tokens, or its tokens are no batch. -/
def StopsAt (config : Config) (source : Source) (fault : Fault) : Prop :=
  config.lexer.lexemes source = .error fault ∨
    ∃ lexemes, config.lexer.lexemes source = .ok lexemes ∧
      readBatch config.dialect config.maxNestingDepth lexemes = .error fault

variable {config : Config} {source : Source}

/-- A text has no tree exactly when the reading of it stops, and the error tells where. -/
theorem parseTree_eq_error {error : Error} : config.parseTree source = .error error ↔
    ∃ fault, config.StopsAt source fault ∧ .parseFailed (fault.failure source) = error := by
  simp only [parseTree, mapError_eq_error, bind_eq_error, StopsAt]

/-- What a tree builds is a query for each of its statements, in order, or a refusal. -/
theorem batch_of_parseTree {tree : Tree} (h : config.parseTree source = .ok tree) :
    (∃ queries, Build.Context.batch { config, source } tree = .ok queries ∧
      List.Forall₂ (fun child query => Build.Context.statement { config, source } child = .ok query)
        (tree.children.filter fun child => !child.isLeaf) queries) ∨
    ∃ failure, Build.Context.batch { config, source } tree = .error failure ∧
      failure.isRefusal := by
  obtain ⟨lexemes, parts, rest, -, hread, rfl⟩ := parseTree_eq_ok h
  have hregular := regular_enter config.dialect config.maxNestingDepth config.maxNestingDepth
  have hformed := batch_sound hregular parts ⟨lexemes, rest, hread⟩
  have hparts := batch_parts hregular ⟨lexemes, rest, hread⟩
  have hrefuses := Build.Context.batch_onlyRefuses { config, source } hformed hparts
  cases hbatch : Build.Context.batch { config, source } (.ofParts .batch parts) with
  | ok queries => exact .inl ⟨queries, rfl, forall₂_of_mapM_eq_ok hbatch⟩
  | error failure => exact .inr ⟨failure, rfl, hrefuses failure hbatch⟩

/-- A batch fails in the reading of its text, or its tree is refused. -/
theorem parseBatch_eq_error {error : Error} (h : config.parseBatch source = .error error) :
    config.parseTree source = .error error ∨
      ∃ failure, failure.isRefusal ∧ error = .plain failure := by
  rw [parseBatch, bind_eq_error] at h
  rcases h with hread | ⟨tree, htree, hbuild⟩
  · exact .inl hread
  · obtain ⟨failure, hfailure, rfl⟩ := mapError_eq_error.mp hbuild
    refine .inr ⟨failure, ?_, rfl⟩
    rcases batch_of_parseTree htree with ⟨queries, hok, -⟩ | ⟨refusal, hrefused, hrefusal⟩
    · rw [hok] at hfailure
      cases hfailure
    · rw [hrefused] at hfailure
      cases hfailure
      exact hrefusal

variable (config source)

/-- **A text is unreadable, refused, or built.** A tree is built into a query for each of its
statements, in order, or refused for what it means or asks for; no tree of the grammar has a shape
that the builder complains about. The parsing of a text is a parse failure exactly when the reading
of the text stops, and it then holds the one place where it does. Every other failure is a
refusal. -/
theorem parseBatch_outcome :
    (∀ tree, config.parseTree source = .ok tree →
      (∃ queries, Build.Context.batch { config, source } tree = .ok queries ∧
        List.Forall₂
          (fun child query => Build.Context.statement { config, source } child = .ok query)
          (tree.children.filter fun child => !child.isLeaf) queries) ∨
      ∃ failure, Build.Context.batch { config, source } tree = .error failure ∧
        failure.isRefusal) ∧
    (∀ failure, config.parseBatch source = .error (.parseFailed failure) ↔
      ∃ fault, config.StopsAt source fault ∧
        failure = .unreadable fault.cause (fault.position source)) ∧
    ∀ failure, config.parseBatch source = .error (.plain failure) → failure.isRefusal := by
  refine ⟨?_, ?_, ?_⟩
  · intro tree htree
    exact batch_of_parseTree htree
  · intro failure
    constructor
    · intro h
      rcases parseBatch_eq_error h with hread | ⟨_, -, hplain⟩
      · obtain ⟨fault, hstops, heq⟩ := parseTree_eq_error.mp hread
        cases heq
        exact ⟨fault, hstops, rfl⟩
      · cases hplain
    · rintro ⟨fault, hstops, rfl⟩
      exact bind_eq_error.mpr (.inl (parseTree_eq_error.mpr ⟨fault, hstops, rfl⟩))
  · intro failure h
    rcases parseBatch_eq_error h with hread | ⟨other, hrefusal, hplain⟩
    · obtain ⟨_, -, heq⟩ := parseTree_eq_error.mp hread
      cases heq
    · cases hplain
      exact hrefusal

/-- `USE a` has a tree that one dialect builds and another one refuses, and the reading of `USE`
stops. -/
theorem parseBatch_outcome_of_use :
    let source := ['U', 'S', 'E', ' ', 'a']
    (∃ tree query, (ofDialect .mysql).parseTree source = .ok tree ∧
      Build.Context.batch { config := ofDialect .mysql, source } tree = .ok [query] ∧
      ∃ child, (tree.children.filter fun child => !child.isLeaf) = [child] ∧
        Build.Context.statement { config := ofDialect .mysql, source } child = .ok query) ∧
    (∃ failure, (ofDialect .postgres).parseBatch source = .error (.plain failure) ∧
      failure.isRefusal) ∧
    ∃ fault, (ofDialect .mysql).StopsAt ['U', 'S', 'E'] fault := by
  intro source
  have outcome (config : Config) := parseBatch_outcome config source
  refine ⟨?_, ?_, ?_⟩
  · let child := Tree.node .useStatement ⟨0, 5⟩ [.leaf ⟨.keyword .USE, ⟨0, 3⟩⟩,
      .node .databaseName ⟨4, 5⟩ [.leaf ⟨.name (String.ofList ['a']), ⟨4, 5⟩⟩]]
    have parsed : (ofDialect .mysql).parseTree source = .ok (.node .batch ⟨0, 5⟩ [child]) := rfl
    rcases (outcome (ofDialect .mysql)).1 _ parsed with
      ⟨queries, built, each⟩ | ⟨failure, refused, -⟩
    · obtain ⟨query, _, hquery, hnil, rfl⟩ := List.forall₂_cons_left_iff.mp each
      obtain rfl := List.forall₂_nil_left_iff.mp hnil
      exact ⟨_, query, parsed, built, child, rfl, hquery⟩
    · cases refused
  · exact ⟨_, rfl, (outcome (ofDialect .postgres)).2.2 _ rfl⟩
  · have marked := (parseBatch_outcome (ofDialect .mysql) ['U', 'S', 'E']).2.1
    obtain ⟨fault, stops, -⟩ := (marked _).mp rfl
    exact ⟨fault, stops⟩

end SqlFront.Config
