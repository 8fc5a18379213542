import SqlFront.Toml.Scalar

/-!
TOML documents: lines that define keys and open tables, and the table that they define together.
Arrays and inline tables are nested less than eighty deep, and keys have less than eighty parts.
-/

namespace SqlFront.Toml

/-- The number of levels from which on values are not read. -/
def depthLimit : Nat := 80

/-! ### Keys -/

/-- A character of a key without quotes. -/
def isBare (c : Char) : Bool := c.isAlphanum || c == '_' || c == '-'

/-- Reads one part of a key. -/
def keyPart (text : List Char) : Option (String × List Char) :=
  match lineString text with
  | some part => some part
  | none =>
      let bare := text.takeWhile isBare
      if bare.isEmpty then none else some (String.ofList bare, text.dropWhile isBare)

/-- Reads a part of a key with the blanks around it; the part is the last one unless a dot
follows. -/
def keyStep (text : List Char) : Option ((String × Bool) × List Char) := do
  let (part, rest) ← keyPart (skipBlanks text)
  match skipBlanks rest with
  | '.' :: rest => return ((part, false), rest)
  | rest => return ((part, true), rest)

/-- Reads a key with all its parts. -/
def key (text : List Char) : Option (List String × List Char) := do
  let (parts, rest) ← untilLast keyStep text
  if parts.length < depthLimit then some (parts, rest) else none

/-! ### Values -/

/-- Reads a key and its value. -/
def definition (value : Reader Item) (text : List Char) :
    Option ((List String × Item) × List Char) := do
  let (key, text) ← key text
  let text ← expect ['='] text
  let (item, rest) ← value (skipBlanks text)
  return ((key, item), rest)

/-- Reads an item of an array and what follows it; it is the last one if the array ends there. -/
def arrayStep (value : Reader Item) (text : List Char) :
    Option ((Item × Bool) × List Char) := do
  let (item, text) ← value (skipGap false text)
  match skipGap false text with
  | ']' :: rest => return ((item, true), rest)
  | ',' :: text =>
      match skipGap false text with
      | ']' :: rest => return ((item, true), rest)
      | _ => return ((item, false), text)
  | _ => none

/-- Reads an array from behind its bracket on. -/
def array (value : Reader Item) (text : List Char) : Option (Item × List Char) :=
  match skipGap false text with
  | ']' :: rest => some (.array [], rest)
  | _ => (untilLast (arrayStep value) text).map fun (items, rest) => (.array items, rest)

/-- Reads a definition in an inline table and what follows it. -/
def inlineStep (value : Reader Item) (text : List Char) :
    Option (((List String × Item) × Bool) × List Char) := do
  let (defined, text) ← definition value text
  match skipBlanks text with
  | '\x7d' :: rest => return ((defined, true), rest)
  | ',' :: rest => return ((defined, false), rest)
  | _ => none

/-- The table that some definitions make together. -/
def tableOf (definitions : List (List String × Item)) : Option Table :=
  definitions.foldlM (fun table (key, item) => table.assign item key) []

/-- Reads an inline table from behind its brace on. -/
def inlineTable (value : Reader Item) (text : List Char) : Option (Item × List Char) :=
  match skipBlanks text with
  | '\x7d' :: rest => some (.table .inline [], rest)
  | _ => do
      let (definitions, rest) ← untilLast (inlineStep value) text
      return (.table .inline (← tableOf definitions), rest)

/-- Reads a value that may hold others, nested at most `levels` deep. -/
def value : Nat → Reader Item
  | 0, text => scalar text
  | levels + 1, text =>
      match text with
      | '[' :: rest => array (value levels) rest
      | '\x7b' :: rest => inlineTable (value levels) rest
      | _ => scalar text

/-! ### Lines -/

/-- What a line does. -/
inductive Line where
  | blank
  | assign (key : List String) (item : Item)
  | openTable (path : List String)
  | openElement (path : List String)

/-- Reads blanks and a comment up to the end of a line, and says whether the text ends there. -/
def lineEnd (text : List Char) : Option (Bool × List Char) :=
  let text :=
    match skipBlanks text with
    | '#' :: text => text.dropWhile isText
    | text => text
  match text with
  | [] => some (true, [])
  | _ => (afterLineEnd? text).map fun rest => (false, rest)

/-- Reads what stands in a line before blanks and a comment. -/
def lineContent (text : List Char) : Option (Line × List Char) :=
  match text with
  | '[' :: '[' :: text => do
      let (path, text) ← key text
      return (.openElement path, ← expect [']', ']'] text)
  | '[' :: text => do
      let (path, text) ← key text
      return (.openTable path, ← expect [']'] text)
  | _ => do
      let ((key, item), rest) ← definition (value (depthLimit - 1)) text
      return (.assign key item, rest)

/-- Reads a line; it is the last one if the text ends there. -/
def lineStep (text : List Char) : Option ((Line × Bool) × List Char) :=
  match lineEnd text with
  | some (last, rest) => some ((.blank, last), rest)
  | none => do
      let (line, text) ← lineContent (skipBlanks text)
      let (last, rest) ← lineEnd text
      return ((line, last), rest)

/-! ### Documents -/

/-- The root of a document and the path of the table that is open. -/
structure Document where
  root : Table
  path : List String

namespace Document

def empty : Document := ⟨[], []⟩

/-- The document after one more line. -/
def add (document : Document) : Line → Option Document
  | .blank => some document
  | .assign key item => do
      return { document with
        root := ← document.root.inside (Table.assign item key) document.path }
  | .openTable path => do return ⟨← document.root.openAt Table.openTable path, path⟩
  | .openElement path => do return ⟨← document.root.openAt Table.openElement path, path⟩

/-- The lines of a text, perhaps behind a byte order mark. -/
def lines? (text : List Char) : Option (List Line) :=
  (untilLast lineStep ((expect ['\ufeff'] text).getD text)).map Prod.fst

/-- The document of a text. -/
def ofText? (text : List Char) : Option Document := do
  (← lines? text).foldlM add empty

end Document

end SqlFront.Toml
