/-!
Readers of the parts of a TOML document. A reader takes what it reads off the front of a text,
or refuses the text.
-/

namespace SqlFront.Toml

/-- Reads a value from the front of a text, and yields it with what is left. -/
abbrev Reader (α : Type) := List Char → Option (α × List Char)

/-- A blank inside a line. -/
def isBlank (c : Char) : Bool := c == ' ' || c == '\t'

/-- A character that may stand in comments and, unless it is special there, in strings. -/
def isText (c : Char) : Bool := c == '\t' || (' ' ≤ c && c != '\x7f')

def skipBlanks (text : List Char) : List Char := text.dropWhile isBlank

/-- What follows a line end at the front of a text. -/
def afterLineEnd? : List Char → Option (List Char)
  | '\n' :: text => some text
  | '\r' :: '\n' :: text => some text
  | _ => none

/-- Skips blanks, line ends and comments; in a comment from the start if `comment`. -/
def skipGap (comment : Bool) : List Char → List Char
  | [] => []
  | '\r' :: '\n' :: text => skipGap false text
  | c :: text =>
      if c = '\n' then skipGap false text
      else if comment then if isText c then skipGap true text else c :: text
      else if isBlank c then skipGap false text
      else if c = '#' then skipGap true text
      else c :: text

/-- What follows these characters at the front of a text. -/
def expect : List Char → List Char → Option (List Char)
  | [], text => some text
  | _ :: _, [] => none
  | wanted :: more, c :: text => if c = wanted then expect more text else none

/-- Reads items until one says that it is the last. -/
def untilLast {α : Type} (item : Reader (α × Bool)) (text : List Char) :
    Option (List α × List Char) :=
  match item text with
  | none => none
  | some ((value, true), rest) => some ([value], rest)
  | some ((value, false), rest) =>
      if rest.length < text.length then
        (untilLast item rest).map fun (values, rest) => (value :: values, rest)
      else none
termination_by text.length

end SqlFront.Toml
