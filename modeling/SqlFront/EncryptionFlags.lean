import SqlFront.Text.Words

/-!
The set of operations that an encrypted column has to support, as a bit mask.
-/

namespace SqlFront

/-- One operation on an encrypted column. -/
inductive EncryptionFlag where
  | store
  | search
  | addition
  | multiplication
  | range
  | wildcard
  deriving DecidableEq, Repr

namespace EncryptionFlag

/-- Every flag, in the order of the bits. -/
def all : List EncryptionFlag :=
  [store, search, addition, multiplication, range, wildcard]

def name : EncryptionFlag → String
  | store => "STORE"
  | search => "SEARCH"
  | addition => "ADDITION"
  | multiplication => "MULTIPLICATION"
  | range => "RANGE"
  | wildcard => "WILDCARD"

/-- The bit that stands for a flag. -/
def bit : EncryptionFlag → UInt8
  | store => 1
  | search => 2
  | addition => 4
  | multiplication => 8
  | range => 16
  | wildcard => 32

/-- The flag of this name, in any case. -/
def ofName? (name : String) : Option EncryptionFlag :=
  all.find? fun flag => sameWord flag.name name

end EncryptionFlag

/-- A set of flags; each bit of the mask is one flag. -/
structure EncryptionFlags where
  bits : UInt8
  deriving DecidableEq, Repr

namespace EncryptionFlags

/-- No flag at all. -/
def none : EncryptionFlags := ⟨0⟩

def insert (flags : EncryptionFlags) (flag : EncryptionFlag) : EncryptionFlags :=
  ⟨flags.bits ||| flag.bit⟩

def contains (flags : EncryptionFlags) (flag : EncryptionFlag) : Bool :=
  flags.bits &&& flag.bit == flag.bit

def isEmpty (flags : EncryptionFlags) : Bool :=
  flags.bits == 0

/-- The names of the flags in the set, in the order of the bits. -/
def names (flags : EncryptionFlags) : List String :=
  (EncryptionFlag.all.filter flags.contains).map EncryptionFlag.name

/-- The set as text: its names with bars between them, or `NONE`. -/
def render (flags : EncryptionFlags) : String :=
  if flags.isEmpty then "NONE" else joined "|" flags.names

end EncryptionFlags

end SqlFront
