import SqlFront.Proofs.DroppedZeros
import SqlFront.Proofs.TomlTables

/-!
What a TOML document is written with: truth values, integers and texts are read as themselves at the
end of a line, and lines that define distinct keys are read as the table of these keys.
-/

namespace SqlFront.Toml

/-! ### Scalars at the end of a line -/

/-- The text is read as the item in front of a line end, and as nothing else. -/
structure Spells (text : List Char) (item : Item) : Prop where
  start : ∃ c, text.head? = some c ∧ isBlank c = false ∧ c ≠ '[' ∧ c ≠ '\x7b'
  read : ∀ rest, scalar (text ++ '\n' :: rest) = some (item, '\n' :: rest)

/-- The text of a truth value. -/
def booleanText : Bool → List Char
  | true => "true".toList
  | false => "false".toList

theorem spells_boolean (value : Bool) : Spells (booleanText value) (.boolean value) := by
  cases value with
  | true => exact ⟨⟨'t', rfl, rfl, by decide, by decide⟩, fun rest => rfl⟩
  | false => exact ⟨⟨'f', rfl, rfl, by decide, by decide⟩, fun rest => rfl⟩

/-- A text in double quotes. -/
def quotedText (text : List Char) : List Char := '"' :: text ++ ['"']

/-- A character that stands for itself between double quotes. -/
def isPlain (c : Char) : Bool := isText c && c != '"' && c != '\\'

theorem stringBody_plain {text : List Char} (h : text.all isPlain) (rest : List Char) :
    stringBody ⟨'"', true, false⟩ (text ++ '"' :: rest) = some (text, rest) := by
  induction text with
  | nil => simp [stringBody]
  | cons c text ih =>
    simp only [isPlain, List.all_cons, Bool.and_eq_true, bne_iff_ne] at h
    obtain ⟨⟨⟨htext, hquote⟩, hbackslash⟩, hothers⟩ := h
    simp [stringBody, htext, hquote, hbackslash, ih hothers]

theorem spells_string {text : List Char} (hne : text ≠ []) (h : text.all isPlain) :
    Spells (quotedText text) (.string (String.ofList text)) := by
  refine ⟨⟨'"', rfl, rfl, by decide, by decide⟩, fun rest => ?_⟩
  obtain ⟨c, others, rfl⟩ := List.exists_cons_of_ne_nil hne
  have hquote : c ≠ '"' := by
    rintro rfl
    cases h
  have hbody := stringBody_plain h ('\n' :: rest)
  have hstring : string (quotedText (c :: others) ++ '\n' :: rest) =
      some (String.ofList (c :: others), '\n' :: rest) := by
    have hline : string (quotedText (c :: others) ++ '\n' :: rest) =
        line '"' true (c :: others ++ '"' :: '\n' :: rest) := by
      unfold string
      split
      case h_1 heq => exact absurd (List.cons.inj (List.cons.inj heq).2).1 hquote
      case h_2 heq => cases heq
      case h_3 => simp [quotedText, lineString]
    rw [hline, line, hbody]
    rfl
  simp [scalar, hstring]

/-! ### Integers -/

section Integers

open Decimal Numeral

variable {n : Nat} {number : List Char}

/-- A decimal integer without a sign: digits, and no zero in front of others. -/
structure IsInteger (number : List Char) : Prop where
  digits : AreDigits number
  ne : number ≠ []
  lead : number = ['0'] ∨ number.head? ≠ some '0'

theorem ofDigits_eq {digits : List Char} (h : AreDigits digits) (start : Nat) :
    digits.foldl (fun n c => 10 * n + digitValue c) start = digitsValue start digits := by
  induction digits generalizing start with
  | nil => rfl
  | cons c digits ih =>
    obtain ⟨hc, hdigits⟩ := List.forall_mem_cons.mp h
    have hvalue : digitValue c = c.toNat - '0'.toNat := if_pos hc
    rw [List.foldl_cons, hvalue, ih hdigits]
    rfl

/-- A positive number is written without a zero in front. -/
theorem head?_digitText (h : 0 < n) : (digitText n).head? ≠ some '0' := by
  let kept := (digitText n).dropWhile (· == '0')
  have hdigits : AreDigits (digitText n) := fun c hc =>
    Nat.isDigit_of_mem_toDigits (by decide) (by decide) hc
  have hsplit : digitText n =
      List.replicate ((digitText n).takeWhile (· == '0')).length '0' ++ kept := by
    rw [← takeWhile_zeros, List.takeWhile_append_dropWhile]
  have hvalue : digitsValue 0 kept = n := by
    conv_rhs => rw [← digitsValue_digitText n, hsplit]
    rw [digitsValue_append, digitsValue_zeros, Nat.zero_mul]
  have hne : kept ≠ [] := by
    intro hnil
    rw [hnil] at hvalue
    exact Nat.ne_of_lt h hvalue
  have hkept : digitText n = kept := by
    rw [← hvalue]
    refine digitText_digitsValue ?_ hne (head?_dropWhile_zeros _)
    intro c hc
    exact hdigits c ((List.dropWhile_suffix _).subset hc)
  rw [hkept]
  exact head?_dropWhile_zeros _

theorem isInteger_digitText (n : Nat) : IsInteger (digitText n) where
  digits c hc := Nat.isDigit_of_mem_toDigits (by decide) (by decide) hc
  ne := Nat.toDigits_ne_nil
  lead := by
    cases n with
    | zero => exact .inl rfl
    | succ n => exact .inr (head?_digitText n.succ_pos)

theorem digitsFrom_digits {digits : List Char} (h : AreDigits digits) (rest : List Char) :
    digitsFrom Char.isDigit (digits ++ '\n' :: rest) = (digits, '\n' :: rest) := by
  induction digits with
  | nil => rfl
  | cons c digits ih =>
    obtain ⟨hc, hdigits⟩ := List.forall_mem_cons.mp h
    have hmark : c ≠ '_' := by
      rintro rfl
      cases hc
    rw [List.cons_append, digitsFrom, if_pos hc, ih hdigits]
    exact fun _ _ hc _ => hmark hc

theorem wholeDigits_integer (h : IsInteger number) (rest : List Char) :
    wholeDigits (number ++ '\n' :: rest) = some (number, '\n' :: rest) := by
  obtain rfl | hlead := h.lead
  · rfl
  · obtain ⟨c, digits, rfl⟩ := List.exists_cons_of_ne_nil h.ne
    have hc := h.digits c List.mem_cons_self
    have hzero : c ≠ '0' := fun hzero => hlead (congrArg some hzero)
    rw [List.cons_append, wholeDigits, Toml.digits, if_pos hc, ← List.cons_append,
      digitsFrom_digits h.digits]
    exact fun _ htext => hzero (List.cons.inj htext).1

/-- A field takes only digits, so that the text goes on behind it with a digit, or its line ends. -/
theorem expect_behind_field (mark : Char) {width low high value : Nat} {rest left : List Char}
    (h : AreDigits number) (hend : mark ≠ '\n') (hmark : mark.isDigit = false)
    (hfield : field width low high (number ++ '\n' :: rest) = some (value, left)) :
    expect [mark] left = none := by
  obtain ⟨hdigits, hleft⟩ := Option.ite_none_right_eq_some.mp hfield
  simp only [Bool.and_eq_true, decide_eq_true_eq] at hdigits
  obtain ⟨⟨⟨hlength, hall⟩, -⟩, -⟩ := hdigits
  obtain ⟨-, rfl⟩ := Prod.mk.inj (Option.some.inj hleft)
  have hwidth : width ≤ number.length := by
    by_contra hshort
    have hmem : '\n' ∈ (number ++ '\n' :: rest).take width :=
      List.mem_take_iff_getElem.mpr ⟨number.length, by simp; omega, by simp⟩
    have := List.all_eq_true.mp hall _ hmem
    cases this
  rw [List.drop_append_of_le_length hwidth]
  cases hdrop : number.drop width with
  | nil => exact if_neg hend.symm
  | cons c digits =>
    have hc := h c (List.mem_of_mem_drop (hdrop ▸ List.mem_cons_self))
    refine if_neg ?_
    rintro rfl
    rw [hmark] at hc
    cases hc

theorem dateTime_integer (h : AreDigits number) (rest : List Char) :
    dateTime (number ++ '\n' :: rest) = none := by
  have hdate : date (number ++ '\n' :: rest) = none := by
    unfold date
    cases hyear : field 4 0 9999 (number ++ '\n' :: rest) with
    | none => rfl
    | some year =>
      have := expect_behind_field '-' h (by decide) rfl hyear
      simp [this]
  have htime : time (number ++ '\n' :: rest) = none := by
    unfold time hourMinute
    cases hhour : field 2 0 23 (number ++ '\n' :: rest) with
    | none => rfl
    | some hour =>
      have := expect_behind_field ':' h (by decide) rfl hhour
      simp [this]
  simp [dateTime, hdate, htime]

theorem sign_integer (h : IsInteger number) (rest : List Char) :
    sign (number ++ rest) = (false, number ++ rest) := by
  obtain ⟨c, digits, rfl⟩ := List.exists_cons_of_ne_nil h.ne
  have hc := h.digits c List.mem_cons_self
  rw [List.cons_append, sign]
  · rintro text htext
    rw [(List.cons.inj htext).1] at hc
    cases hc
  · rintro text htext
    rw [(List.cons.inj htext).1] at hc
    cases hc

/-- No mark of a base stands behind a zero in front. -/
theorem IsInteger.ne_based (h : IsInteger number) {mark : Char} (hmark : mark ≠ '\n')
    (rest text : List Char) : number ++ '\n' :: rest ≠ '0' :: mark :: text := by
  obtain rfl | hlead := h.lead
  · intro heq
    exact hmark (List.cons.inj (List.cons.inj heq).2).1.symm
  · obtain ⟨c, digits, rfl⟩ := List.exists_cons_of_ne_nil h.ne
    intro heq
    exact hlead (congrArg some (List.cons.inj heq).1)

theorem integer_integer (h : IsInteger number) (rest : List Char) :
    integer (number ++ '\n' :: rest) =
      (integer? false (digitsValue 0 number)).map fun item => (item, '\n' :: rest) := by
  have hvalue : ofDigits 10 number = digitsValue 0 number := ofDigits_eq h.digits 0
  unfold integer
  split
  case h_1 heq => exact absurd heq (h.ne_based (by decide) _ _)
  case h_2 heq => exact absurd heq (h.ne_based (by decide) _ _)
  case h_3 heq => exact absurd heq (h.ne_based (by decide) _ _)
  case h_4 =>
    rw [sign_integer h]
    simp [wholeDigits_integer h, hvalue, Option.map_eq_bind]

theorem spells_integer (h : IsInteger number) (hfits : fitsInt64 (digitsValue 0 number)) :
    Spells number (.integer (digitsValue 0 number)) := by
  obtain ⟨c, digits, hnumber⟩ := List.exists_cons_of_ne_nil h.ne
  have hc : c.isDigit = true := h.digits c (hnumber ▸ List.mem_cons_self)
  have hne (d : Char) (hd : d.isDigit = false) : c ≠ d := by
    rintro rfl
    rw [hd] at hc
    cases hc
  constructor
  · refine ⟨c, by rw [hnumber]; rfl, ?_, hne _ rfl, hne _ rfl⟩
    simp [isBlank, hne ' ' rfl, hne '\t' rfl]
  · intro rest
    have hstring : string (number ++ '\n' :: rest) = none := by
      simp [hnumber, string, lineString, hne '"' rfl, hne '\'' rfl]
    have hfloat : decimalFloat (number ++ '\n' :: rest) = none := by
      simp [decimalFloat, sign_integer h, wholeDigits_integer h, fraction, exponent]
    have hnamed : namedFloat (number ++ '\n' :: rest) = none := by
      rw [namedFloat, sign_integer h]
      simp [hnumber, expect, hne 'i' rfl, hne 'n' rfl]
    have hboolean : boolean (number ++ '\n' :: rest) = none := by
      simp [boolean, hnumber, expect, hne 't' rfl, hne 'f' rfl]
    simp [scalar, hstring, dateTime_integer h.digits, hfloat, hnamed, hboolean, integer_integer h,
      integer?, hfits]

end Integers

/-! ### Lines -/

/-- A key without quotes. -/
def IsBareKey (key : List Char) : Prop :=
  key ≠ [] ∧ ∀ c ∈ key, isBare c = true

theorem isBareKey_of_all {key : List Char} (h : (!key.isEmpty && key.all isBare) = true) :
    IsBareKey key := by
  simpa [IsBareKey] using h

/-- The line that defines a key. -/
def definitionText (key value : List Char) : List Char :=
  key ++ ' ' :: '=' :: ' ' :: value ++ ['\n']

theorem ne_of_isBare {c : Char} (hc : isBare c = true) (d : Char) (hd : isBare d = false) :
    c ≠ d := by
  rintro rfl
  rw [hd] at hc
  cases hc

theorem IsBareKey.skipBlanks_append {key : List Char} (h : IsBareKey key) (rest : List Char) :
    skipBlanks (key ++ rest) = key ++ rest := by
  obtain ⟨c, others, rfl⟩ := List.exists_cons_of_ne_nil h.1
  have hc := h.2 c List.mem_cons_self
  refine List.dropWhile_cons_of_neg ?_
  simp [isBlank, ne_of_isBare hc ' ' rfl, ne_of_isBare hc '\t' rfl]

theorem keyStep_bare {key : List Char} (h : IsBareKey key) (rest : List Char) :
    keyStep (key ++ ' ' :: '=' :: rest) = some ((String.ofList key, true), '=' :: rest) := by
  have hpart : keyPart (key ++ ' ' :: '=' :: rest) =
      some (String.ofList key, ' ' :: '=' :: rest) := by
    have htake : (key ++ ' ' :: '=' :: rest).takeWhile isBare = key := by
      rw [List.takeWhile_append_of_pos h.2, List.takeWhile_cons_of_neg (by decide), List.append_nil]
    have hdrop : (key ++ ' ' :: '=' :: rest).dropWhile isBare = ' ' :: '=' :: rest := by
      rw [List.dropWhile_append_of_pos h.2, List.dropWhile_cons_of_neg (by decide)]
    obtain ⟨c, others, rfl⟩ := List.exists_cons_of_ne_nil h.1
    have hc := h.2 c List.mem_cons_self
    have hstring : lineString (c :: others ++ ' ' :: '=' :: rest) = none := by
      simp [lineString, ne_of_isBare hc '"' rfl, ne_of_isBare hc '\'' rfl]
    rw [keyPart, hstring, htake, hdrop]
    rfl
  rw [keyStep, h.skipBlanks_append, hpart]
  rfl

theorem key_bare {key : List Char} (h : IsBareKey key) (rest : List Char) :
    Toml.key (key ++ ' ' :: '=' :: rest) = some ([String.ofList key], '=' :: rest) := by
  simp [Toml.key, untilLast, keyStep_bare h, depthLimit]

theorem value_spells {text : List Char} {item : Item} (h : Spells text item) (levels : Nat)
    (rest : List Char) :
    value levels (skipBlanks (' ' :: text ++ '\n' :: rest)) = some (item, '\n' :: rest) := by
  obtain ⟨⟨c, hhead, hblank, hbracket, hbrace⟩, hread⟩ := h
  obtain ⟨others, rfl⟩ := List.head?_eq_some_iff.mp hhead
  have hskip : skipBlanks (' ' :: (c :: others) ++ '\n' :: rest) = c :: others ++ '\n' :: rest := by
    simp [skipBlanks, hblank, show isBlank ' ' = true from rfl]
  rw [hskip, ← hread rest]
  cases levels with
  | zero => rfl
  | succ levels => simp [value, hbracket, hbrace]

theorem lineEnd_bare {key : List Char} (h : IsBareKey key) (rest : List Char) :
    lineEnd (key ++ rest) = none := by
  rw [lineEnd, h.skipBlanks_append]
  obtain ⟨c, others, rfl⟩ := List.exists_cons_of_ne_nil h.1
  have hc := h.2 c List.mem_cons_self
  simp [ne_of_isBare hc '#' rfl, afterLineEnd?, ne_of_isBare hc '\n' rfl,
    ne_of_isBare hc '\r' rfl]

theorem lineStep_definition {key value : List Char} {item : Item} (hkey : IsBareKey key)
    (hvalue : Spells value item) (rest : List Char) :
    lineStep (definitionText key value ++ rest) =
      some ((.assign [String.ofList key] item, false), rest) := by
  have htext : definitionText key value ++ rest =
      key ++ ' ' :: '=' :: (' ' :: value ++ '\n' :: rest) := by
    simp [definitionText]
  have hdefinition : definition (Toml.value (depthLimit - 1)) (definitionText key value ++ rest) =
      some (([String.ofList key], item), '\n' :: rest) := by
    rw [htext, definition, key_bare hkey]
    simp only [Option.bind_eq_bind, Option.bind_some, expect, if_pos]
    rw [value_spells hvalue]
    rfl
  have hbracket (text : List Char) : definitionText key value ++ rest ≠ '[' :: text := by
    obtain ⟨c, others, rfl⟩ := List.exists_cons_of_ne_nil hkey.1
    intro heq
    exact ne_of_isBare (hkey.2 c List.mem_cons_self) _ rfl (List.cons.inj heq).1
  have hcontent : lineContent (definitionText key value ++ rest) =
      some (.assign [String.ofList key] item, '\n' :: rest) := by
    unfold lineContent
    split
    case h_1 heq => exact absurd heq (hbracket _)
    case h_2 heq => exact absurd heq (hbracket _)
    case h_3 =>
      rw [hdefinition]
      rfl
  rw [htext] at hcontent ⊢
  rw [lineStep, lineEnd_bare hkey, hkey.skipBlanks_append, hcontent]
  rfl

/-! ### Documents -/

/-- A key of the root with the text of its value, and the item that it stands for. -/
structure Entry where
  key : List Char
  text : List Char
  item : Item
  isKey : IsBareKey key
  spells : Spells text item

namespace Entry

/-- The line that the entry is written on. -/
def line (entry : Entry) : List Char := definitionText entry.key entry.text

/-- What the line does. -/
def assign (entry : Entry) : Line := .assign [String.ofList entry.key] entry.item

/-- The entry of the table. -/
def pair (entry : Entry) : String × Item := (String.ofList entry.key, entry.item)

end Entry

theorem untilLast_lines (entries : List Entry) :
    untilLast lineStep (entries.flatMap Entry.line) =
      some (entries.map Entry.assign ++ [.blank], []) := by
  induction entries with
  | nil =>
    rw [untilLast]
    rfl
  | cons entry entries ih =>
    have hstep := lineStep_definition entry.isKey entry.spells (entries.flatMap Entry.line)
    have hshorter : (entries.flatMap Entry.line).length <
        (definitionText entry.key entry.text ++ entries.flatMap Entry.line).length := by
      rw [List.length_append, definitionText, List.length_append]
      simp
    rw [List.flatMap_cons, untilLast, Entry.line, hstep]
    simp only [if_pos hshorter, ih]
    rfl

theorem define_of_fresh {key : String} {table : Table} {item : Item}
    (h : key ∉ table.map Prod.fst) :
    Table.define key item table = some (table ++ [(key, item)]) := by
  unfold Table.define
  induction table with
  | nil => rfl
  | cons entry entries ih =>
    obtain ⟨k, first⟩ := entry
    rw [List.map_cons, List.mem_cons, not_or] at h
    rw [Table.alter, if_neg (Ne.symm h.1), ih h.2]
    rfl

theorem foldlM_assign {entries : List Entry} {table : Table}
    (hkeys : ((table ++ entries.map Entry.pair).map Prod.fst).Nodup) :
    (entries.map Entry.assign ++ [Line.blank]).foldlM Document.add ⟨table, []⟩ =
      some ⟨table ++ entries.map Entry.pair, []⟩ := by
  induction entries generalizing table with
  | nil => simp [Document.add]
  | cons entry entries ih =>
    have hfresh : String.ofList entry.key ∉ table.map Prod.fst := by
      rw [List.map_append, List.nodup_append] at hkeys
      exact fun hmem => hkeys.2.2 _ hmem _ List.mem_cons_self rfl
    have hadd : Document.add ⟨table, []⟩ entry.assign = some ⟨table ++ [entry.pair], []⟩ := by
      have hroot : Table.define (String.ofList entry.key) entry.item table =
          some (table ++ [entry.pair]) := define_of_fresh hfresh
      simp [Document.add, Entry.assign, Table.inside, Table.assign, hroot]
    have hsplit : table ++ (entry :: entries).map Entry.pair =
        (table ++ [entry.pair]) ++ entries.map Entry.pair := by simp
    rw [hsplit] at hkeys ⊢
    rw [List.map_cons, List.cons_append, List.foldlM_cons, hadd]
    exact ih hkeys

/-- **A document of lines that define distinct keys is the table of these keys**, in the order of
the lines. -/
theorem ofText?_lines {entries : List Entry}
    (hkeys : ((entries.map Entry.pair).map Prod.fst).Nodup) :
    Document.ofText? (entries.flatMap Entry.line) = some ⟨entries.map Entry.pair, []⟩ := by
  have hmark : (expect ['\ufeff'] (entries.flatMap Entry.line)).getD (entries.flatMap Entry.line) =
      entries.flatMap Entry.line := by
    cases entries with
    | nil => rfl
    | cons entry entries =>
      obtain ⟨c, others, hkey⟩ := List.exists_cons_of_ne_nil entry.isKey.1
      have hc := ne_of_isBare (entry.isKey.2 c (hkey ▸ List.mem_cons_self)) '\ufeff' rfl
      simp [Entry.line, definitionText, hkey, expect, hc]
  have hlines : Document.lines? (entries.flatMap Entry.line) =
      some (entries.map Entry.assign ++ [.blank]) := by
    rw [Document.lines?, hmark, untilLast_lines]
    rfl
  rw [Document.ofText?, hlines]
  exact @foldlM_assign entries [] hkeys

end SqlFront.Toml
