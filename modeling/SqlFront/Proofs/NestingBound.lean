import SqlFront.Proofs.BatchProgress
import SqlFront.Proofs.TreeHeight

/-!
The limit on levels bounds every run of a parser, and the tree that it returns.

A production gives back all the levels that it opened, whether it returns a tree or fails. Only a
round of a loop over operators does not, and the production that the loop belongs to does so for
it.
-/

namespace SqlFront.Grammar

/-- The constructs that close their own level. -/
def closing : List Construct :=
  [.negation, .signed, .paren, .arguments, .subquery, .derivedTable, .members, .valueRow, .seeds,
    .columns, .keyColumns, .tableElements, .typeArguments, .countingArguments, .flags, .bypassed]

/-- The productions of expressions. -/
def expressionForms : List Form :=
  [expression, conjunction, negatable, bitwise, comparison, predicateTail, sum, product, unary,
    primary, .node .functionCall (.seq .name (.deeper .arguments)), columnName, columnOrAll]

/-- The productions of queries. -/
def queryForms (dialect : Dialect) : List Form :=
  [select dialect, topClause, rowCount, selectList, selectItem, alias?, fromClause, tableSource,
    tablePrimary, aliasedTable, tableName, join, whereClause?, groupByClause, havingClause,
    orderByClause, limitClause dialect]

/-- The productions of statements. -/
def statementForms (dialect : Dialect) : List Form :=
  [statement dialect, insert dialect, valuesClause, update, assignment, delete, create, createTable,
    createIndex, tableElement, columnDefinition, dataType, columnProperty, alterTable, alterAction,
    .node .unsupportedClause restOfStatement, dropTable, use, databaseName, showStatement]

/-- The productions of commands. -/
def commandForms : List Form :=
  [keysCommand .exportKeysStatement (.word "EXPORT"),
    keysCommand .updateKeysStatement (.keyword .UPDATE),
    columnCommand .encryptColumnStatement "ENCRYPT",
    columnCommand .decryptColumnStatement "DECRYPT",
    treeCommand .rebuildOpetreeStatement "REBUILD",
    treeCommand .rebalanceOpetreeStatement "REBALANCE",
    snapshotCommand "SAVE" .saveOpetreeStatement .saveSchemaStatement,
    snapshotCommand "LOAD" .loadOpetreeStatement .loadSchemaStatement, bypass, licenseCommand,
    status?, stopClause]

/-- Every production but the batch, and every construct with its body. -/
def innerProductions (dialect : Dialect) : List Form :=
  statementForms dialect ++ commandForms ++ queryForms dialect ++ expressionForms ++
    closing.map .deeper ++ closing.map (bodies dialect)

def productions (dialect : Dialect) : List Form := batch dialect :: innerProductions dialect

theorem productions_close (dialect : Dialect) :
    ∀ form ∈ productions dialect, form.leavesOpen = false := by
  cases dialect <;> decide

theorem productions_balanced (dialect : Dialect) :
    ∀ form ∈ productions dialect, form.balanced := by
  cases dialect <;> decide

theorem innerProductions_plain (dialect : Dialect) :
    ∀ form ∈ innerProductions dialect, form.Plain := by
  simp [innerProductions, statementForms, commandForms, queryForms, expressionForms, closing,
    bodies_plain, statement_plain, valuesClause, assignment, createTable, createIndex, alterAction,
    bypass, selectList, Form.all]

theorem productions_moves (dialect : Dialect) : ∀ form ∈ productions dialect, form.Moves :=
  List.forall_mem_cons.mpr
    ⟨batch_moves dialect, fun form hmem => (innerProductions_plain dialect form hmem).moves⟩

variable (dialect : Dialect) (limit length : Nat) (tokens : List Lexeme)

/-- **The limit bounds the nesting.** On every vector of tokens and from every place, a production
returns with the levels with which it was entered, whether it succeeds or fails, and so does each
one that is entered on the way, where the levels stay within the limit. The height of the tree of a
batch depends on the limit alone. -/
theorem nesting_bounded :
    (∀ form ∈ productions dialect, ∀ entry : Cursor, entry.pos < (closed length tokens).length →
      entry.depth ≤ limit → ∃ result stop visits,
        (parser dialect limit length tokens).Runs form entry result stop visits ∧
          stop.depth = entry.depth ∧
          ∀ visit ∈ visits, visit.entry.depth ≤ limit ∧ visit.stop.depth ≤ limit ∧
            (visit.form ∈ productions dialect → visit.stop.depth = visit.entry.depth)) ∧
    (∃ result stop visits,
      (parser dialect limit length tokens).Runs (batch dialect) .start result stop visits ∧
        readBatch dialect limit (closed length tokens) = result.map (Tree.ofParts .batch)) ∧
    ∀ tree, readBatch dialect limit (closed length tokens) = .ok tree →
      tree.height ≤ 16 * (limit + 2) := by
  have hbalanced := parser_balanced dialect limit length tokens
  refine ⟨fun form hform entry hentry hdepth => ?_, exists_run dialect limit length tokens, ?_⟩
  · have hbalance := productions_balanced dialect form hform
    have hlevels : entry.depth + (limit - entry.depth) = limit := Nat.add_sub_cancel' hdepth
    obtain ⟨result, stop, visits, hrun, -⟩ := Machine.runsAsRead
      (parser_progressive dialect limit length tokens) hbalanced
      (productions_moves dialect form hform) hbalance hentry hlevels
    have hclosed := hrun.depth_eq hbalanced hbalance (productions_close dialect form hform)
    refine ⟨result, stop, visits, hrun, hclosed, fun visit hmem => ?_⟩
    obtain ⟨hlow, hhigh⟩ := (hrun.depth_le hdepth).2 visit hmem
    obtain ⟨inner, hvisit⟩ := hrun.of_mem hmem
    refine ⟨hlow, hhigh, fun hproduction => ?_⟩
    exact hvisit.depth_eq hbalanced (productions_balanced dialect visit.form hproduction)
      (productions_close dialect visit.form hproduction)
  · intro tree htree
    have hheight := height_of_readBatch htree
    omega

end SqlFront.Grammar
