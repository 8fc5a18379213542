import SqlFront.Text.Digits
import SqlFront.Toml.Reader

/-!
Strings of a TOML document: in double quotes with escapes or in single quotes without, on one
line or, between three quotes, on several.
-/

namespace SqlFront.Toml

/-- A form of strings. -/
structure StringForm where
  quote : Char
  /-- A backslash starts an escape. -/
  escapes : Bool
  /-- The string is between three quotes and may have line ends. -/
  block : Bool
  deriving DecidableEq, Repr

/-- The character whose number is written in the first `n` digits of a text. -/
def numberedChar? (n : Nat) (text : List Char) : Option Char :=
  let digits := text.take n
  let value := ofDigits 16 digits
  if digits.length = n && digits.all isHexDigit && value.isValidChar then some (Char.ofNat value)
  else none

/-- How many blanks and line ends a text starts with, in characters. -/
def gapLength : List Char → Nat
  | [] => 0
  | '\r' :: '\n' :: text => gapLength text + 2
  | c :: text => if isBlank c || c == '\n' then gapLength text + 1 else 0

/-- How many characters a backslash before this text takes away, where it ends its line. -/
def lineJoin? (text : List Char) : Option Nat := do
  let blanks := (text.takeWhile isBlank).length
  let _ ← afterLineEnd? (text.drop blanks)
  return blanks + gapLength (text.drop blanks)

/-- The character that a backslash before this text stands for, and the number of characters of
the text that belong to the escape. -/
def escape? : List Char → Option (Char × Nat)
  | 'b' :: _ => some ('\x08', 1)
  | 't' :: _ => some ('\t', 1)
  | 'n' :: _ => some ('\n', 1)
  | 'f' :: _ => some ('\x0c', 1)
  | 'r' :: _ => some ('\r', 1)
  | '"' :: _ => some ('"', 1)
  | '\\' :: _ => some ('\\', 1)
  | 'u' :: text => (numberedChar? 4 text).map fun c => (c, 5)
  | 'U' :: text => (numberedChar? 8 text).map fun c => (c, 9)
  | _ => none

/-- The text that a backslash before this text stands for, and the number of characters of the
text that belong to it. -/
def escaped? (form : StringForm) (text : List Char) : Option (List Char × Nat) :=
  match if form.block then lineJoin? text else none with
  | some n => some ([], n)
  | none => (escape? text).map fun (c, n) => ([c], n)

/-- Reads a string from behind its opening quotes on. Up to two quotes may stand before the three
that close a block. -/
def stringBody (form : StringForm) : Reader (List Char)
  | [] => none
  | c :: text =>
      if c = form.quote then
        if !form.block then some ([], text)
        else if (expect [form.quote, form.quote] text).isSome then
          let quotes := ((text.drop 2).takeWhile (· == form.quote)).take 2
          some (quotes, text.drop (2 + quotes.length))
        else do
          let (body, rest) ← stringBody form text
          return (c :: body, rest)
      else if c = '\\' && form.escapes then do
        let (first, n) ← escaped? form text
        let (body, rest) ← stringBody form (text.drop n)
        return (first ++ body, rest)
      else if form.block && c = '\r' && text.head? = some '\n' then stringBody form text
      else if isText c || (form.block && c = '\n') then do
        let (body, rest) ← stringBody form text
        return (c :: body, rest)
      else none
termination_by text => text.length
decreasing_by all_goals (simp only [List.length_cons, List.length_drop]; omega)

/-- Reads a string on one line. -/
def line (quote : Char) (escapes : Bool) (text : List Char) : Option (String × List Char) := do
  let (body, rest) ← stringBody ⟨quote, escapes, false⟩ text
  return (String.ofList body, rest)

/-- Reads a block, without the line end directly behind its opening quotes. -/
def block (quote : Char) (escapes : Bool) (text : List Char) : Option (String × List Char) := do
  let text := (afterLineEnd? text).getD text
  let (body, rest) ← stringBody ⟨quote, escapes, true⟩ text
  return (String.ofList body, rest)

/-- Reads a string on one line with its quotes. -/
def lineString : Reader String
  | '"' :: text => line '"' true text
  | '\'' :: text => line '\'' false text
  | _ => none

/-- Reads a string of any form. -/
def string : Reader String
  | '"' :: '"' :: '"' :: text => block '"' true text
  | '\'' :: '\'' :: '\'' :: text => block '\'' false text
  | text => lineString text

end SqlFront.Toml
