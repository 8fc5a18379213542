/-!
Source text and places in it. A text is its list of characters; places are counted in bytes of
its UTF-8 form, so a place can also lie inside a character, where nothing starts or ends.
-/

namespace SqlFront

/-- A text that tokens, spans and positions refer to. -/
abbrev Source := List Char

/-- The bytes of a text in UTF-8. -/
def utf8Bytes (text : List Char) : List UInt8 :=
  text.flatMap String.utf8EncodeChar

/-- The number of bytes of a text in UTF-8. -/
def byteLength : List Char → Nat
  | [] => 0
  | c :: cs => c.utf8Size + byteLength cs

/-- What follows the first `n` bytes; `none` when they end inside a character or beyond the text. -/
def dropBytes : Nat → List Char → Option (List Char)
  | 0, cs => some cs
  | _ + 1, [] => none
  | n + 1, c :: cs => if c.utf8Size ≤ n + 1 then dropBytes (n + 1 - c.utf8Size) cs else none

/-- The first `n` bytes; `none` when they end inside a character or beyond the text. -/
def takeBytes : Nat → List Char → Option (List Char)
  | 0, _ => some []
  | _ + 1, [] => none
  | n + 1, c :: cs =>
      if c.utf8Size ≤ n + 1 then (takeBytes (n + 1 - c.utf8Size) cs).map (c :: ·) else none

/-- A half-open range of bytes. -/
structure Span where
  start : Nat
  stop : Nat
  deriving DecidableEq, Repr, Inhabited

/-- The smallest range that covers both. -/
def Span.join (left right : Span) : Span :=
  ⟨min left.start right.start, max left.stop right.stop⟩

/-- The text of a range, or nothing when the range is reversed, leaves the text or cuts a
character. -/
def Source.slice (source : Source) (span : Span) : String :=
  if span.start ≤ span.stop then
    match dropBytes span.start source with
    | some tail => String.ofList ((takeBytes (span.stop - span.start) tail).getD [])
    | none => ""
  else ""

/-- A line and a column, both counted from one; columns count characters. -/
structure Position where
  line : Nat
  column : Nat
  deriving DecidableEq, Repr

/-- The position reached after a text that is read from `here`. -/
def Position.advance (here : Position) : List Char → Position
  | [] => here
  | c :: cs =>
      if c = '\n' then Position.advance ⟨here.line + 1, 1⟩ cs
      else Position.advance ⟨here.line, here.column + 1⟩ cs

/-- The position of a byte offset. An offset that is no character boundary of the text stands for
its end. -/
def Source.position (source : Source) (offset : Nat) : Position :=
  Position.advance ⟨1, 1⟩ ((takeBytes offset source).getD source)

end SqlFront
