import SqlFront.Literal.Binary
import SqlFront.Token.Lexer

/-!
String literals: from the body between the quotes to the text or the bytes it stands for.
-/

namespace SqlFront.Literal

/-- The character that a backslash and this character stand for. -/
def escapedChar : Char → Char
  | 'b' => '\x08'
  | 'n' => '\n'
  | 'r' => '\r'
  | 't' => '\t'
  | '0' => '\x00'
  | 'Z' => '\x1a'
  | c => c

/-- Resolves doubled quotes, and escapes where `escapes`. The wildcards of patterns keep their
backslash. -/
def unescape (quote : Char) (escapes : Bool) : List Char → List Char
  | [] => []
  | c :: cs =>
      if c = quote && cs.head? = some quote then
        match cs with
        | [] => []
        | _ :: rest => quote :: unescape quote escapes rest
      else if c = '\\' && escapes then
        match cs with
        | [] => ['\\']
        | d :: rest =>
            if d = '%' || d = '_' then '\\' :: d :: unescape quote escapes rest
            else escapedChar d :: unescape quote escapes rest
      else c :: unescape quote escapes cs

/-- The parts of a text between the places where a backslash and an `x` stand. -/
def splitHexMarks : List Char → List (List Char)
  | [] => [[]]
  | c :: cs =>
      if c = '\\' && cs.head? = some 'x' then
        match cs with
        | [] => [[c]]
        | _ :: rest => [] :: splitHexMarks rest
      else
        match splitHexMarks cs with
        | [] => [[c]]
        | part :: parts => (c :: part) :: parts

/-- The groups of digits of a body that is made of hexadecimal escapes alone. -/
def hexGroups? (body : List Char) : Option (List (List Char)) :=
  match splitHexMarks body with
  | [] :: group :: groups =>
      if (group :: groups).all fun g => !g.isEmpty && g.all isHexDigit then
        some (group :: groups)
      else none
  | _ => none

/-- The bytes of groups of hexadecimal digits. -/
def hexGroups (decoder : HexDecoder) : List (List Char) → Except SemanticCause (List UInt8)
  | [] => .ok []
  | group :: groups => do
      let bytes ← hexBy decoder (String.ofList group)
      let more ← hexGroups decoder groups
      return bytes ++ more

/-- The constant that a string stands for, where hexadecimal digits are decoded by `decoder`.
`backslashEscapes` is the rule for all kinds but the escaped one, which always resolves backslashes;
there, hexadecimal escapes alone are bytes. -/
def stringBy (decoder : HexDecoder) (body : String) (kind : StringKind) (backslashEscapes : Bool) :
    Except SemanticCause Constant :=
  let escapes := backslashEscapes || kind == .escaped
  let text := Constant.string (String.ofList (unescape kind.quote escapes body.toList))
  match kind, hexGroups? body.toList with
  | .escaped, some groups => (hexGroups decoder groups).map .binary
  | _, _ => .ok text

/-- The constant that a string stands for. -/
def string (body : String) (kind : StringKind) (backslashEscapes : Bool) :
    Except SemanticCause Constant :=
  stringBy .pairwise body kind backslashEscapes

/-- The character that a constant consists of. -/
def character (value : Constant) : Except SemanticCause Char :=
  match value with
  | .string text =>
      match text.toList with
      | [c] => .ok c
      | _ => .error (.notACharacter value)
  | _ => .error (.notACharacter value)

end SqlFront.Literal
