/-!
Words of the language: comparison and spelling of ASCII words without regard to case.
Letters outside ASCII have no other case here, so they only match themselves.
-/

namespace SqlFront

/-- The word in ASCII upper case. -/
def upperWord (word : String) : String :=
  String.ofList (word.toList.map Char.toUpper)

/-- The word in ASCII lower case. -/
def lowerWord (word : String) : String :=
  String.ofList (word.toList.map Char.toLower)

/-- Whether two words agree up to the case of ASCII letters. -/
def sameWord (left right : String) : Bool :=
  left.toList.map Char.toLower == right.toList.map Char.toLower

/-- The items with `separator` between neighbours. -/
def joined (separator : String) : List String → String
  | [] => ""
  | [item] => item
  | item :: items => item ++ separator ++ joined separator items

@[simp]
theorem sameWord_self (word : String) : sameWord word word = true := by
  simp [sameWord]

end SqlFront
