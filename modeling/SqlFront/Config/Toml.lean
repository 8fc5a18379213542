import SqlFront.Config
import SqlFront.Toml.Document

/-!
Settings from a TOML document: the keys of its root that are settings, with the standard settings
for those that are missing. Everything else in the document is left aside.
-/

namespace SqlFront.Toml.Item

def boolean? : Item → Option Bool
  | boolean value => some value
  | _ => none

/-- The item as a count, which is not negative. -/
def count? : Item → Option Nat
  | integer (.ofNat n) => some n
  | _ => none

/-- The item holds nothing. -/
def isEmpty : Item → Bool
  | array [] => true
  | table _ [] => true
  | _ => false

/-- The item as a dialect: its name, or a table with its name as the only key and nothing
there. -/
def dialect? : Item → Option Dialect
  | string name => Dialect.ofName? name
  | table _ [(name, item)] => if item.isEmpty then Dialect.ofName? name else none
  | _ => none

end SqlFront.Toml.Item

namespace SqlFront.Config

/-- The setting of a key as `read` reads it, or the standard where the key is missing. -/
def setting {α : Type} (table : Toml.Table) (key : String) (standard : α)
    (read : Toml.Item → Option α) : Option α :=
  match table.lookup key with
  | some item => read item
  | none => some standard

/-- The settings in the root of a document. -/
def ofTable? (table : Toml.Table) : Option Config := do
  let dialect ← setting table "dialect" standard.dialect Toml.Item.dialect?
  let backslashEscapes ←
    setting table "backslash_escapes" standard.backslashEscapes (·.boolean?.map some)
  let allowUseStatements ←
    setting table "allow_use_statements" standard.allowUseStatements Toml.Item.boolean?
  let maxNestingDepth ←
    setting table "max_nesting_depth" standard.maxNestingDepth Toml.Item.count?
  let maxCnfLeaves ← setting table "max_cnf_leaves" standard.maxCnfLeaves Toml.Item.count?
  return { dialect, backslashEscapes, allowUseStatements, maxNestingDepth, maxCnfLeaves }

/-- The settings in a TOML document, which have to be valid. -/
def ofToml (text : String) : Except Failure Config := do
  let config? := (Toml.Document.ofText? text.toList).bind fun document => ofTable? document.root
  match config? with
  | none => throw (.config .unreadable)
  | some config => config.validate; return config

end SqlFront.Config
