import SqlFront.Build.Schema

/-!
Commands on keys, encrypted columns and trees, and the product key, built from parse trees.
-/

namespace SqlFront.Build

/-- The command only asks for progress. -/
def statusCheck (tree : Tree) : Bool := (Tree.find? .statusFlag tree.children).isSome

/-- The unit of a duration; hours where no other unit is written. -/
def timeUnit (children : List Tree) : TimeUnit :=
  if Tree.hasWord "SECONDS" children || Tree.hasWord "SECOND" children then .seconds
  else if Tree.hasWord "MINUTES" children || Tree.hasWord "MINUTE" children then .minutes
  else .hours

namespace Context

/-- When a command has to stop. -/
def stopCondition (context : Context) (clause : Tree) : Built StopCondition :=
  if Tree.hasWord "IMMEDIATE" clause.children then .ok .immediate
  else do
    let text ← Built.require clause.malformed <|
      (Tree.leaves clause.children).findSome? fun lexeme =>
        match lexeme.token with
        | .number text => some text
        | _ => none
    let duration ← Built.ofMeaning (Literal.decimalBy context.decimals text.toList)
    return .after duration (timeUnit clause.children)

/-- The text of a part of a tree, where the tree has that part. -/
def partText? (context : Context) (rule : Rule) (tree : Tree) : Built (Option String) :=
  match Tree.find? rule tree.children with
  | some part => do return some (← context.stringChild part)
  | none => .ok none

def keysCommand (context : Context) (tree : Tree) : Built KeysCommand := do
  return ⟨← context.partText? .destination tree, statusCheck tree⟩

def columnCommand (context : Context) (tree : Tree) : Built ColumnCommand := do
  let column ← context.column (← tree.required .columnName)
  let flags ←
    match Tree.find? .flagList tree.children with
    | some list => do pure (some (← encryptionFlags list))
    | none => pure none
  return ⟨column, flags, statusCheck tree⟩

/-- A seed of the encrypted tree, which has to be a literal. -/
def seed (context : Context) (tree : Tree) : Built Constant := do
  match ← context.expression tree with
  | .constant _ value => return value
  | _ => Built.reject (.notALiteralSeed (context.text tree))

/-- The seeds of a command, where it names some. -/
def seeds (context : Context) (tree : Tree) : Built (List Constant) :=
  let list? := do
    let seeds ← Tree.find? .seedList tree.children
    Tree.find? .expressionList seeds.children
  match list? with
  | some list => (list.children.filter Tree.isExpression).mapM context.seed
  | none => .ok []

def opetreeCommand (context : Context) (tree : Tree) : Built OpetreeCommand := do
  let seeds ← context.seeds tree
  let stop ←
    match Tree.find? .stopClause tree.children with
    | some clause => do pure (some (← context.stopCondition clause))
    | none => pure none
  return ⟨seeds, stop⟩

end Context

end SqlFront.Build
