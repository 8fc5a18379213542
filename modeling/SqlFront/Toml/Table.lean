/-!
Tables of a TOML document: what keys stand for, and the rules by which keys and headers fill the
tables. A definition that would change what has been defined before is refused.
-/

namespace SqlFront.Toml

/-- How a table came to be, which decides what may be added to it later. -/
inductive Origin where
  /-- Written in braces. Nothing is added to it. -/
  | inline
  /-- Opened by a header of its own. -/
  | header
  /-- Named by the header of a table inside it, and not opened itself so far. -/
  | implied
  /-- Named by a dotted key. -/
  | dotted
  deriving DecidableEq, Repr

/-- What a key stands for. Of fractions and of dates only the presence is kept. -/
inductive Item where
  | string (text : String)
  | integer (value : Int)
  | boolean (value : Bool)
  | float
  | dateTime
  | array (items : List Item)
  | table (origin : Origin) (entries : List (String × Item))
  /-- Tables that headers append to each other. There is always a last one. -/
  | tables (before : List (List (String × Item))) (last : List (String × Item))

/-- The keys of a table, in the order of their definition, each of them once. -/
abbrev Table := List (String × Item)

namespace Table

/-- Changes what a key stands for, or defines it. -/
def alter (key : String) (change : Option Item → Option Item) : Table → Option Table
  | [] => do return [(key, ← change none)]
  | (k, item) :: entries =>
      if k = key then do return (k, ← change (some item)) :: entries
      else do return (k, item) :: (← alter key change entries)

/-- Defines a key that does not stand for anything yet. -/
def define (key : String) (item : Item) : Table → Option Table :=
  alter key fun
    | none => some item
    | some _ => none

/-- Changes the table that a path of headers leads to. Tables on the way that do not exist are
implied, and of appended tables the last one is meant. -/
def inside (change : Table → Option Table) : List String → Table → Option Table
  | [] => change
  | key :: path => alter key fun
      | none => do return .table .implied (← inside change path [])
      | some (.table .inline _) => none
      | some (.table origin inner) => do return .table origin (← inside change path inner)
      | some (.tables before last) => do return .tables before (← inside change path last)
      | some _ => none

/-- Defines a dotted key. The tables on the way are made by dotted keys; a table that headers
made may be passed, but not be the one that the last part is defined in. -/
def assign (item : Item) : List String → Table → Option Table
  | [] => fun _ => none
  | [key] => define key item
  | key :: next :: path => alter key fun
      | none => do return .table .dotted (← assign item (next :: path) [])
      | some (.table .dotted inner) => do
          return .table .dotted (← assign item (next :: path) inner)
      | some (.table .implied inner) =>
          if path.isEmpty then none
          else do return .table .implied (← assign item (next :: path) inner)
      | some (.tables before last) =>
          if path.isEmpty then none
          else do return .tables before (← assign item (next :: path) last)
      | some _ => none

/-- Opens the table of a key, which is new or has only been implied. -/
def openTable (key : String) : Table → Option Table :=
  alter key fun
    | none => some (.table .header [])
    | some (.table .implied inner) => some (.table .header inner)
    | some _ => none

/-- Appends a table to those of a key. -/
def openElement (key : String) : Table → Option Table :=
  alter key fun
    | none => some (.tables [] [])
    | some (.tables before last) => some (.tables (before ++ [last]) [])
    | some _ => none

/-- Opens a table, or appends one, at a path that ends with its own key. -/
def openAt (opening : String → Table → Option Table) (path : List String) (table : Table) :
    Option Table := do
  let key ← path.getLast?
  inside (opening key) path.dropLast table

end Table

end SqlFront.Toml
