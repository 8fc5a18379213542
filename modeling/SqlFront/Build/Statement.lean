import SqlFront.Build.Command

/-!
Statements and batches, built from parse trees.
-/

namespace SqlFront.Build.Context

/-- A statement that holds no other statement. -/
def simpleStatement (context : Context) (tree : Tree) : Built Query :=
  match tree.rule? with
  | some .selectStatement => .select <$> context.select tree
  | some .insertStatement => .insert <$> context.insert tree
  | some .updateStatement => .update <$> context.update tree
  | some .deleteStatement => .delete <$> context.delete tree
  | some .createTableStatement => .createTable <$> context.createTable tree
  | some .alterTableStatement => .alterTable <$> context.alterTable tree
  | some .dropTableStatement => .dropTable <$> context.dropTable tree
  | some .createIndexStatement => .createIndex <$> context.createIndex tree
  | some .useStatement => .use <$> context.use tree
  | some .showTablesStatement => .showTables <$> showTables tree
  | some .showColumnsStatement => .showColumns <$> context.table tree
  | some .exportKeysStatement => .exportKeys <$> context.keysCommand tree
  | some .updateKeysStatement => .updateKeys <$> context.keysCommand tree
  | some .encryptColumnStatement => .encryptColumn <$> context.columnCommand tree
  | some .decryptColumnStatement => .decryptColumn <$> context.columnCommand tree
  | some .rebuildOpetreeStatement => .rebuildOpetree <$> context.opetreeCommand tree
  | some .rebalanceOpetreeStatement => .rebalanceOpetree <$> context.opetreeCommand tree
  | some .saveOpetreeStatement => .ok .saveOpetree
  | some .loadOpetreeStatement => .ok .loadOpetree
  | some .saveSchemaStatement => .ok .saveSchema
  | some .loadSchemaStatement => .ok .loadSchema
  | some .licenseRefreshStatement => .ok .licenseRefresh
  | some .licenseStatusStatement => .ok .licenseStatus
  | some .licenseSetKeyStatement => .licenseSetKey <$> context.partText? .licenseKey tree
  | _ => Built.reject tree.malformed

/-- A statement that goes to the database as it is, if it is of a kind that may. -/
def bypassed (query : Query) : Built Query :=
  if query.isBypassable then .ok (.bypass query)
  else Built.reject (.notBypassable query.kindName)

mutual

/-- The statement that a tree stands for. -/
def statement (context : Context) : Tree → Built Query
  | .node .bypassStatement _ children => do
      let inner ← Built.require (.malformed (some .bypassStatement))
        (innerStatement context children)
      bypassed (← inner)
  | tree => simpleStatement context tree

/-- The first statement among some trees. -/
def innerStatement (context : Context) : List Tree → Option (Built Query)
  | [] => none
  | tree :: trees =>
      if tree.isLeaf then innerStatement context trees else some (statement context tree)

end

/-- The statements of a batch. -/
def batch (context : Context) (tree : Tree) : Built (List Query) :=
  (tree.children.filter fun child => !child.isLeaf).mapM context.statement

end SqlFront.Build.Context
