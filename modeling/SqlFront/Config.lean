import SqlFront.Error
import SqlFront.Token.Lexer

/-!
The settings of a parser: its dialect, and the limits it keeps.
-/

namespace SqlFront

/-- The settings of a parser. -/
structure Config where
  dialect : Dialect
  /-- The rule on backslashes in ordinary strings, where it is not that of the dialect. -/
  backslashEscapes : Option Bool
  allowUseStatements : Bool
  /-- How many constructs may be nested in each other. -/
  maxNestingDepth : Nat
  /-- How many terms a condition may have in conjunctive normal form. -/
  maxCnfLeaves : Nat
  deriving DecidableEq, Repr

namespace Config

/-- The settings that hold where nothing else is said. -/
def standard : Config := ⟨.mysql, none, true, 128, 4096⟩

/-- The standard settings with another dialect. -/
def ofDialect (dialect : Dialect) : Config := { standard with dialect }

/-- The rule on backslashes in ordinary strings. -/
def effectiveBackslashEscapes (config : Config) : Bool :=
  config.backslashEscapes.getD config.dialect.backslashEscapes

/-- Both limits have to be positive. -/
def validate (config : Config) : Except Failure Unit :=
  if config.maxNestingDepth = 0 then .error (.config .zeroNestingDepth)
  else if config.maxCnfLeaves = 0 then .error (.config .zeroTerms)
  else .ok ()

/-- The lexer of these settings. -/
def lexer (config : Config) : Lexer := ⟨config.dialect, config.effectiveBackslashEscapes⟩

end Config

/-- The dialect of this name, in any case. -/
def Dialect.ofText (text : String) : Except Failure Dialect :=
  match ofName? (lowerWord text) with
  | some dialect => .ok dialect
  | none => .error (.config (.unknownDialect (lowerWord text)))

end SqlFront
