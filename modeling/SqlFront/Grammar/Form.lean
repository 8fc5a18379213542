import SqlFront.Fault
import SqlFront.Tree

/-!
Forms: the language in which the grammar is described, and the reading of tokens by a form. The
parser itself is not made of forms: its productions take tokens and put the trees together on their
own, and read what the forms describe.

A form reads some of the tokens in front of it and yields the trees of what it read, in order.
Choices look at the next few tokens and are never taken back. A construct that may contain itself
is named by a `Construct` and takes one level of a nesting budget, so a form has no recursion of
its own and reading ends with the budget.
-/

namespace SqlFront

namespace Grammar

/-- The constructs that open a level of nesting. -/
inductive Construct where
  /-- `NOT` and its operand. -/
  | negation
  /-- A sign and its operand. -/
  | signed
  /-- An operator of a sum, its operand and what follows them. -/
  | sumTail
  /-- An operator of a product, its operand and what follows them. -/
  | productTail
  /-- An expression in parentheses. -/
  | paren
  /-- The arguments of a call. -/
  | arguments
  /-- A query in parentheses, as an operand. -/
  | subquery
  /-- A query in parentheses, as a table. -/
  | derivedTable
  /-- The list after `IN`. -/
  | members
  /-- A row of values. -/
  | valueRow
  /-- The seeds of an encrypted tree. -/
  | seeds
  /-- A list of columns. -/
  | columns
  /-- A list of columns that may have directions. -/
  | keyColumns
  /-- The columns and keys of a new table. -/
  | tableElements
  /-- The arguments of a type. -/
  | typeArguments
  /-- The start and step of a counting column. -/
  | countingArguments
  /-- The flags of an encrypted column. -/
  | flags
  /-- The statement after `BYPASS`. -/
  | bypassed
  deriving DecidableEq, Repr

/-- Tests of the next tokens, the first of them first. -/
abbrev Lookahead := List (Token → Bool)

/-- A piece of the grammar. -/
inductive Form where
  /-- Reads nothing. -/
  | empty
  /-- Reads one token that passes a test; `wanted` says in words what would. -/
  | token (accepts : Token → Bool) (wanted : String)
  /-- Fails at the next token. -/
  | refuse (cause : Token → SyntaxCause)
  | seq (first second : Form)
  | ifAt (look : Lookahead) (yes no : Form)
  /-- Repeats a form as long as the next tokens pass. -/
  | whileAt (look : Lookahead) (body : Form)
  /-- Reads `first`. Where the next two tokens then call for a production, reads `rest` too and
  puts all parts under that production. -/
  | extend (first : Form) (rule : Token → Token → Option Rule) (rest : Form)
  /-- Reads a construct one level deeper. -/
  | deeper (construct : Construct)

/-- The next token; the end of the text follows the last one. -/
def current (input : List Lexeme) : Token :=
  match input with
  | lexeme :: _ => lexeme.token
  | [] => .eof

/-- The next tokens pass the tests. -/
def Lookahead.holds : Lookahead → List Lexeme → Bool
  | [], _ => true
  | test :: tests, input => test (current input) && Lookahead.holds tests input.tail

/-- A fault at the next token. -/
def faultAt (input : List Lexeme) (cause : SyntaxCause) : Fault :=
  ⟨cause, input.head?.map fun lexeme => lexeme.span.start⟩

/-- The trees of what was read, and the tokens after it. -/
abbrev Outcome := Except Fault (List Tree × List Lexeme)

abbrev Reader := List Lexeme → Outcome

/-- Reads one token that passes a test. -/
def readToken (accepts : Token → Bool) (wanted : String) : Reader
  | lexeme :: rest =>
      if accepts lexeme.token then .ok ([.leaf lexeme], rest)
      else .error (faultAt (lexeme :: rest) (.unexpectedToken wanted lexeme.token))
  | [] => .error (faultAt [] (.unexpectedToken wanted .eof))

/-- Reads again and again, at most `times` times, as long as the next tokens pass. -/
def readWhile (look : Lookahead) (body : Reader) : (times : Nat) → Reader
  | 0, input => .ok ([], input)
  | times + 1, input =>
      if look.holds input then do
        let (trees, input) ← body input
        let (more, input) ← readWhile look body times input
        return (trees ++ more, input)
      else .ok ([], input)

/-- Reads by a form, where `enter` reads the constructs that lie one level deeper. A repetition
takes at least one token each time, so it never needs more rounds than there are tokens. -/
def Form.read (enter : Construct → Reader) : Form → Reader
  | .empty, input => .ok ([], input)
  | .token accepts wanted, input => readToken accepts wanted input
  | .refuse cause, input => .error (faultAt input (cause (current input)))
  | .seq first second, input => do
      let (trees, input) ← first.read enter input
      let (more, input) ← second.read enter input
      return (trees ++ more, input)
  | .ifAt look yes no, input =>
      if look.holds input then yes.read enter input else no.read enter input
  | .whileAt look body, input => readWhile look (body.read enter) input.length input
  | .extend first rule rest, input => do
      let (trees, input) ← first.read enter input
      match rule (current input) (current input.tail) with
      | none => return (trees, input)
      | some rule =>
          let (more, input) ← rest.read enter input
          return ([Tree.ofParts rule (trees ++ more)], input)
  | .deeper construct, input => enter construct input

/-- Reads a construct with so many levels left of the `limit`. -/
def enter (bodies : Construct → Form) (limit : Nat) : (left : Nat) → Construct → Reader
  | 0, _ => fun input => .error (faultAt input (.nestingLimit limit))
  | left + 1, construct => (bodies construct).read (enter bodies limit left)

/-! ### Forms made of these -/

namespace Form

/-- Puts the parts of a form under a production. -/
def node (rule : Rule) (parts : Form) : Form :=
  .extend .empty (fun _ _ => some rule) parts

/-- Forms one after the other. -/
def all : List Form → Form
  | [] => .empty
  | [form] => form
  | form :: forms => .seq form (all forms)

/-- A form that is read only where the next tokens pass. -/
def optional (look : Lookahead) (form : Form) : Form :=
  .ifAt look form .empty

/-- Fails with words for what was wanted. -/
def unexpected (wanted : String) : Form :=
  .refuse (.unexpectedToken wanted)

/-- A reserved word. -/
def keyword (k : Keyword) : Form :=
  .token (· == .keyword k) (Token.keyword k).describe

/-- An operator or a punctuation mark. -/
def symbol (s : Symbol) : Form :=
  .token (· == .symbol s) (Token.symbol s).describe

/-- A word that is not reserved. -/
def word (text : String) : Form :=
  .token (Token.isWord text) text

/-- A name, in quotes or not. -/
def name : Form :=
  .token Token.isName "identifier"

/-- Items with commas between them. -/
def commaList (item : Form) : Form :=
  .seq item (.whileAt [(· == .symbol .comma)] (.seq (symbol .comma) item))

/-- Items with commas between them, in parentheses. -/
def parenthesized (item : Form) : Form :=
  all [symbol .leftParen, commaList item, symbol .rightParen]

end Form

/-! ### Tests of a token -/

def isKeyword (k : Keyword) (token : Token) : Bool :=
  token == .keyword k

def isSymbol (s : Symbol) (token : Token) : Bool :=
  token == .symbol s

/-- The token is one of some reserved words. -/
def isOneOf (keywords : List Keyword) (token : Token) : Bool :=
  keywords.any (isKeyword · token)

/-- The token is one of some words that are not reserved. -/
def isWordOf (words : List String) (token : Token) : Bool :=
  words.any (Token.isWord · token)

def isNumber : Token → Bool
  | .number _ => true
  | _ => false

def isString : Token → Bool
  | .string _ _ => true
  | _ => false

def isPlaceholder : Token → Bool
  | .placeholder _ => true
  | _ => false

/-- A name without quotes. -/
def isPlainName : Token → Bool
  | .name _ => true
  | _ => false

end Grammar

end SqlFront
