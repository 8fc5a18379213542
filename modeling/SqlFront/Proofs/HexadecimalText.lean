import SqlFront.Literal.Text
import SqlFront.Proofs.Outcome

/-!
Hexadecimal digits as bytes.

Two digits stand for one byte, in either case of their letters, so bytes written out in lower case
are the digits that they were read from, in lower case. This is said of every decoder that keeps its
promises about single pairs, and decoding pair by pair is one. Where digits are written in groups,
each behind a mark, the marks are found again and the groups are read one after the other: the bytes
are those of all digits together, as long as no group ends inside a pair.
-/

namespace SqlFront.Literal

/-! ### Digits -/

/-- Hexadecimal digits alone. -/
def AreHexDigits (digits : List Char) : Prop := ∀ c ∈ digits, isHexDigit c

theorem areHexDigits_cons {c : Char} {digits : List Char} :
    AreHexDigits (c :: digits) ↔ isHexDigit c ∧ AreHexDigits digits :=
  List.forall_mem_cons

theorem toNat_lt_of_isHexDigit {c : Char} (h : isHexDigit c) : c.toNat < 128 := by
  simp only [isHexDigit, Char.isDigit, Bool.or_eq_true, Bool.and_eq_true, decide_eq_true_eq,
    Char.le_def, UInt32.le_iff_toNat_le, ge_iff_le] at h
  simp at h
  omega

/-- What the readers make of a digit: its byte has the value of the digit, and this value is written
as the digit in lower case. -/
structure ReadAsDigit (c : Char) : Prop where
  value : hexValue? (UInt8.ofNat c.toNat) = some (digitValue c)
  small : digitValue c < 16
  lower : Nat.digitChar (digitValue c) = c.toLower

instance (c : Char) : Decidable (ReadAsDigit c) :=
  decidable_of_iff (hexValue? (UInt8.ofNat c.toNat) = some (digitValue c) ∧ digitValue c < 16 ∧
    Nat.digitChar (digitValue c) = c.toLower)
    ⟨fun ⟨value, small, lower⟩ => ⟨value, small, lower⟩,
      fun ⟨value, small, lower⟩ => ⟨value, small, lower⟩⟩

theorem readAsDigit_of_isHexDigit {c : Char} (h : isHexDigit c) : ReadAsDigit c := by
  have all : ∀ n < 128, isHexDigit (Char.ofNat n) → ReadAsDigit (Char.ofNat n) := by
    decide +kernel
  simpa using all c.toNat (toNat_lt_of_isHexDigit h) (by simpa using h)

theorem utf8EncodeChar_of_isHexDigit {c : Char} (h : isHexDigit c) :
    String.utf8EncodeChar c = [UInt8.ofNat c.toNat] := by
  have small : c.val.toNat ≤ 127 := Nat.le_of_lt_succ (toNat_lt_of_isHexDigit h)
  exact if_pos small

/-- A digit takes one byte. -/
theorem utf8Bytes_of_areHexDigits {digits : List Char} (h : AreHexDigits digits) :
    utf8Bytes digits = digits.map fun c => UInt8.ofNat c.toNat := by
  induction digits with
  | nil => rfl
  | cons c digits ih =>
    obtain ⟨first, rest⟩ := areHexDigits_cons.mp h
    rw [utf8Bytes, List.flatMap_cons, utf8EncodeChar_of_isHexDigit first, List.map_cons, ← ih rest,
      utf8Bytes, List.singleton_append]

/-! ### Decoders -/

/-- The promises of a decoder of hexadecimal digits, about texts with an even number of bytes. -/
structure HexDecoder.Lawful (decoder : HexDecoder) : Prop where
  /-- Digits in either case are accepted. -/
  accepts {text : List UInt8} : text.length % 2 = 0 → (∀ byte ∈ text, (hexValue? byte).isSome) →
    ∃ bytes, decoder.decode text = .ok bytes
  /-- There is one byte for two digits. -/
  halves {text bytes : List UInt8} : text.length % 2 = 0 → decoder.decode text = .ok bytes →
    2 * bytes.length = text.length
  /-- Each byte is the value of the two digits at its place, of which the first counts sixteen
  times. -/
  pairs {text bytes : List UInt8} {n : Nat} {byte : UInt8} : text.length % 2 = 0 →
    decoder.decode text = .ok bytes → bytes[n]? = some byte →
    ∃ high low, text[2 * n]?.bind hexValue? = some high ∧
      text[2 * n + 1]?.bind hexValue? = some low ∧ byte.toNat = 16 * high + low

theorem hexValue?_lt {byte : UInt8} {value : Nat} (h : hexValue? byte = some value) :
    value < 16 := by
  simp only [hexValue?, Bool.and_eq_true, decide_eq_true_eq] at h
  split at h
  · cases h
    omega
  · split at h
    · cases h
      omega
    · split at h
      · cases h
        omega
      · cases h

theorem hexDigit_eq_ok {byte : UInt8} {place value : Nat} :
    hexDigit byte place = .ok value ↔ hexValue? byte = some value := by
  unfold hexDigit
  cases hexValue? byte <;> simp

/-- Decoding a pair is decoding its digits, and then the pairs after it. -/
theorem hexBytes_cons_eq_ok {place : Nat} {high low : UInt8} {rest bytes : List UInt8} :
    hexBytes place (high :: low :: rest) = .ok bytes ↔
      ∃ first second more, hexValue? high = some first ∧ hexValue? low = some second ∧
        hexBytes (place + 2) rest = .ok more ∧
        UInt8.ofNat (16 * first + second) :: more = bytes := by
  simp only [hexBytes, bind_eq_ok, hexDigit_eq_ok, pure_eq_ok]
  constructor
  · rintro ⟨first, hfirst, second, hsecond, more, hmore, hbytes⟩
    exact ⟨first, second, more, hfirst, hsecond, hmore, hbytes⟩
  · rintro ⟨first, second, more, hfirst, hsecond, hmore, hbytes⟩
    exact ⟨first, hfirst, second, hsecond, more, hmore, hbytes⟩

theorem exists_hexBytes {text : List UInt8} (h : ∀ byte ∈ text, (hexValue? byte).isSome)
    (place : Nat) : ∃ bytes, hexBytes place text = .ok bytes := by
  fun_induction hexBytes place text with
  | case1 place high low rest ih =>
    obtain ⟨hhigh, hlow, hrest⟩ : _ ∧ _ ∧ _ := by simpa using h
    obtain ⟨first, hfirst⟩ := Option.isSome_iff_exists.mp hhigh
    obtain ⟨second, hsecond⟩ := Option.isSome_iff_exists.mp hlow
    obtain ⟨more, hmore⟩ := ih hrest
    exact ⟨_, hexBytes_cons_eq_ok.mpr ⟨first, second, more, hfirst, hsecond, hmore, rfl⟩⟩
  | case2 text place short => exact ⟨[], rfl⟩

/-- **Decoding pair by pair keeps the promises.** -/
theorem HexDecoder.pairwise_lawful : HexDecoder.pairwise.Lawful where
  accepts _ h := exists_hexBytes h 0
  halves {text bytes} heven h := by
    change hexBytes 0 text = .ok bytes at h
    generalize 0 = place at h
    fun_induction hexBytes place text generalizing bytes with
    | case1 place high low rest ih =>
      obtain ⟨_, _, more, -, -, hmore, rfl⟩ := hexBytes_cons_eq_ok.mp h
      rw [List.length_cons, List.length_cons] at heven ⊢
      have := ih (by omega) hmore
      rw [List.length_cons]
      omega
    | case2 text place short =>
      match text, short with
      | [], _ => cases h; rfl
      | [_], _ => cases heven
      | high :: low :: rest, short => exact absurd rfl (short high low rest)
  pairs {text bytes n byte} heven h hbyte := by
    change hexBytes 0 text = .ok bytes at h
    generalize 0 = place at h
    fun_induction hexBytes place text generalizing bytes n with
    | case1 place high low rest ih =>
      obtain ⟨first, second, more, hfirst, hsecond, hmore, rfl⟩ := hexBytes_cons_eq_ok.mp h
      cases n with
      | zero =>
        have := hexValue?_lt hfirst
        have := hexValue?_lt hsecond
        obtain rfl := Option.some.inj hbyte
        refine ⟨first, second, hfirst, hsecond, ?_⟩
        rw [UInt8.toNat_ofNat']
        omega
      | succ n =>
        rw [List.length_cons, List.length_cons] at heven
        exact ih (by omega) hbyte hmore
    | case2 text place short =>
      match text, short with
      | [], _ => cases h; cases hbyte
      | [_], _ => cases heven
      | high :: low :: rest, short => exact absurd rfl (short high low rest)

/-! ### Pairs of digits -/

/-- The bytes that pairs of digits stand for. -/
def pairBytes : List Char → List UInt8
  | high :: low :: rest =>
      UInt8.ofNat (16 * digitValue high + digitValue low) :: pairBytes rest
  | _ => []

theorem length_pairBytes (digits : List Char) :
    (pairBytes digits).length = digits.length / 2 := by
  fun_induction pairBytes digits with
  | case1 high low rest ih =>
    simp only [List.length_cons, ih]
    omega
  | case2 digits short =>
    match digits, short with
    | [], _ => rfl
    | [_], _ => simp
    | high :: low :: rest, short => exact absurd rfl (short high low rest)

theorem getElem?_pairBytes {digits : List Char} {n : Nat} {byte : UInt8}
    (h : (pairBytes digits)[n]? = some byte) :
    ∃ high low, digits[2 * n]? = some high ∧ digits[2 * n + 1]? = some low ∧
      byte = UInt8.ofNat (16 * digitValue high + digitValue low) := by
  fun_induction pairBytes digits generalizing n with
  | case1 high low rest ih =>
    cases n with
    | zero => exact ⟨high, low, rfl, rfl, (Option.some.inj h).symm⟩
    | succ n => exact ih h
  | case2 digits short => cases h

section

variable {decoder : HexDecoder} {digits : List Char}

/-- The promises about single pairs fix what digits are decoded to. -/
theorem HexDecoder.Lawful.decode_digits (lawful : decoder.Lawful) (h : AreHexDigits digits)
    (heven : digits.length % 2 = 0) :
    decoder.decode (digits.map fun c => UInt8.ofNat c.toNat) = .ok (pairBytes digits) := by
  have value (n : Nat) : (digits.map fun c => UInt8.ofNat c.toNat)[n]?.bind hexValue? =
      digits[n]?.map digitValue := by
    rw [List.getElem?_map]
    cases hc : digits[n]? with
    | none => rfl
    | some c => exact (readAsDigit_of_isHexDigit (h c (List.mem_of_getElem? hc))).value
  have whole : (digits.map fun c => UInt8.ofNat c.toNat).length % 2 = 0 := by simpa using heven
  obtain ⟨bytes, decoded⟩ := lawful.accepts whole <| by
    simp only [List.forall_mem_map]
    intro c hc
    rw [(readAsDigit_of_isHexDigit (h c hc)).value]
    rfl
  have length : bytes.length = (pairBytes digits).length := by
    have := lawful.halves whole decoded
    rw [List.length_map] at this
    rw [length_pairBytes]
    omega
  rw [decoded, Except.ok.injEq]
  refine List.ext_getElem length fun n hn hn' => ?_
  obtain ⟨high, low, hhigh, hlow, hbyte⟩ :=
    lawful.pairs whole decoded (List.getElem?_eq_getElem hn)
  obtain ⟨c, d, hc, hd, hpair⟩ := getElem?_pairBytes (List.getElem?_eq_getElem hn')
  rw [value, hc] at hhigh
  rw [value, hd] at hlow
  obtain rfl := Option.some.inj hhigh
  obtain rfl := Option.some.inj hlow
  rw [hpair, ← hbyte, UInt8.ofNat_toNat]

theorem hex_of_odd (h : AreHexDigits digits) (hodd : digits.length % 2 = 1) :
    hexBy decoder (String.ofList digits) = .error (.oddHexDigits (String.ofList digits)) := by
  simp [hexBy, utf8Bytes_of_areHexDigits h, hodd]

/-- An even number of digits is read as the bytes of its pairs. -/
theorem hex_of_even (lawful : decoder.Lawful) (h : AreHexDigits digits)
    (heven : digits.length % 2 = 0) :
    hexBy decoder (String.ofList digits) = .ok (pairBytes digits) := by
  simp [hexBy, utf8Bytes_of_areHexDigits h, heven, lawful.decode_digits h heven]

end

/-- **No byte is lost**: written out in lower case, the bytes are the digits again. -/
theorem flatMap_byteDigits_pairBytes {digits : List Char} (h : AreHexDigits digits)
    (heven : digits.length % 2 = 0) :
    (pairBytes digits).flatMap byteDigits = digits.map Char.toLower := by
  fun_induction pairBytes digits with
  | case1 high low rest ih =>
    obtain ⟨hhigh, h⟩ := areHexDigits_cons.mp h
    obtain ⟨hlow, hrest⟩ := areHexDigits_cons.mp h
    have first := readAsDigit_of_isHexDigit hhigh
    have second := readAsDigit_of_isHexDigit hlow
    have fits : (UInt8.ofNat (16 * digitValue high + digitValue low)).toNat =
        16 * digitValue high + digitValue low := by
      have := first.small
      have := second.small
      rw [UInt8.toNat_ofNat']
      omega
    have quotient : (16 * digitValue high + digitValue low) / 16 = digitValue high := by
      have := second.small
      omega
    have remainder : (16 * digitValue high + digitValue low) % 16 = digitValue low := by
      have := second.small
      omega
    have evenRest : rest.length % 2 = 0 := by
      simp only [List.length_cons] at heven
      omega
    rw [List.flatMap_cons, byteDigits, fits, quotient, remainder, first.lower, second.lower,
      ih hrest evenRest]
    rfl
  | case2 digits short =>
    match digits, short with
    | [], _ => rfl
    | [_], _ => cases heven
    | high :: low :: rest, short => exact absurd rfl (short high low rest)

theorem pairBytes_append {left : List Char} (right : List Char) (heven : left.length % 2 = 0) :
    pairBytes (left ++ right) = pairBytes left ++ pairBytes right := by
  fun_induction pairBytes left with
  | case1 high low rest ih =>
    have evenRest : rest.length % 2 = 0 := by
      simp only [List.length_cons] at heven
      omega
    simp [pairBytes, ih evenRest]
  | case2 digits short =>
    match digits, short with
    | [], _ => rfl
    | [_], _ => cases heven
    | high :: low :: rest, short => exact absurd rfl (short high low rest)

/-! ### Groups of digits -/

/-- Groups of which none is empty, and all are hexadecimal digits. -/
def AreHexGroups (groups : List (List Char)) : Prop :=
  ∀ group ∈ groups, group ≠ [] ∧ AreHexDigits group

/-- Groups as they are written, each of them behind a mark. -/
def hexMarked (groups : List (List Char)) : List Char :=
  groups.flatMap fun group => '\\' :: 'x' :: group

theorem hexMarked_cons (group : List Char) (groups : List (List Char)) :
    hexMarked (group :: groups) = '\\' :: 'x' :: (group ++ hexMarked groups) :=
  List.flatMap_cons

/-- The first group that ends inside a pair of digits. -/
def oddGroup? (groups : List (List Char)) : Option (List Char) :=
  groups.find? fun group => group.length % 2 = 1

theorem oddGroup?_eq_none_iff {groups : List (List Char)} :
    oddGroup? groups = none ↔ ∀ group ∈ groups, group.length % 2 = 0 := by
  simp [oddGroup?]

/-- Groups of which none ends inside a pair have an even number of digits together. -/
theorem length_flatten_of_even {groups : List (List Char)}
    (h : ∀ group ∈ groups, group.length % 2 = 0) : groups.flatten.length % 2 = 0 := by
  induction groups with
  | nil => rfl
  | cons group groups ih =>
    obtain ⟨first, rest⟩ := List.forall_mem_cons.mp h
    have := ih rest
    rw [List.flatten_cons, List.length_append]
    omega

/-- Groups that are read in order have the bytes of all their digits, and the first group that ends
inside a pair keeps them from being read. -/
theorem hexGroups_eq {decoder : HexDecoder} (lawful : decoder.Lawful)
    {groups : List (List Char)} (h : ∀ group ∈ groups, AreHexDigits group) :
    hexGroups decoder groups =
      match oddGroup? groups with
      | some group => .error (.oddHexDigits (String.ofList group))
      | none => .ok (pairBytes groups.flatten) := by
  induction groups with
  | nil => rfl
  | cons group groups ih =>
    obtain ⟨first, rest⟩ := List.forall_mem_cons.mp h
    rw [hexGroups]
    by_cases hodd : group.length % 2 = 1
    · simp [hex_of_odd first hodd, oddGroup?, hodd, bind, Except.bind]
    · have heven : group.length % 2 = 0 := by omega
      rw [hex_of_even lawful first heven, ih rest, List.flatten_cons, pairBytes_append _ heven,
        oddGroup?, oddGroup?, List.find?_cons_of_neg (by simpa using heven)]
      cases groups.find? fun group => group.length % 2 = 1 <;> rfl

theorem splitHexMarks_ne_nil (text : List Char) : splitHexMarks text ≠ [] := by
  fun_cases splitHexMarks text <;> exact List.cons_ne_nil _ _

/-- A text without backslashes goes to the first group. -/
theorem splitHexMarks_append {first text part : List Char} {parts : List (List Char)}
    (hfirst : '\\' ∉ first) (h : splitHexMarks text = part :: parts) :
    splitHexMarks (first ++ text) = (first ++ part) :: parts := by
  induction first with
  | nil => exact h
  | cons c first ih =>
    simp only [List.mem_cons, not_or] at hfirst
    rw [List.cons_append, splitHexMarks.eq_def]
    simp [Ne.symm hfirst.1, ih hfirst.2]

/-- Where backslashes are marks alone, the groups are found again behind them. -/
theorem splitHexMarks_hexMarked {groups : List (List Char)}
    (hgroups : ∀ group ∈ groups, '\\' ∉ group) :
    splitHexMarks (hexMarked groups) = [] :: groups := by
  induction groups with
  | nil => rfl
  | cons group groups ih =>
    obtain ⟨hgroup, hrest⟩ := List.forall_mem_cons.mp hgroups
    have behind := splitHexMarks_append hgroup (ih hrest)
    rw [List.append_nil] at behind
    rw [hexMarked_cons, ← behind]
    rfl

/-- The text is what was found, with the marks in front. -/
theorem eq_of_splitHexMarks {text first : List Char} {groups : List (List Char)}
    (h : splitHexMarks text = first :: groups) : text = first ++ hexMarked groups := by
  fun_induction splitHexMarks text generalizing first groups with
  | case1 =>
    cases h
    rfl
  | case2 c hmark => simp at hmark
  | case3 c d rest hmark ih =>
    simp only [List.head?_cons, Option.some.injEq, Bool.and_eq_true, decide_eq_true_eq] at hmark
    obtain ⟨rfl, rfl⟩ := hmark
    obtain ⟨group, groups, hrest⟩ := List.exists_cons_of_ne_nil (splitHexMarks_ne_nil rest)
    cases h
    rw [hrest, hexMarked_cons, List.nil_append, ← ih hrest]
  | case4 c cs hmark hrest => exact absurd hrest (splitHexMarks_ne_nil cs)
  | case5 c cs hmark part parts hrest ih =>
    cases h
    rw [ih hrest, List.cons_append]

theorem not_mem_of_areHexDigits {digits : List Char} (h : AreHexDigits digits) : '\\' ∉ digits :=
  fun mem => absurd (h _ mem) (by decide)

theorem all_iff_areHexGroups {groups : List (List Char)} :
    (groups.all fun group => !group.isEmpty && group.all isHexDigit) ↔ AreHexGroups groups := by
  simp [AreHexGroups, AreHexDigits]

/-- **A text is read as bytes exactly if it consists of marks with digits behind each of them.** -/
theorem hexGroups?_eq_some_iff {body : List Char} {groups : List (List Char)} :
    hexGroups? body = some groups ↔
      groups ≠ [] ∧ AreHexGroups groups ∧ body = hexMarked groups := by
  constructor
  · intro h
    unfold hexGroups? at h
    split at h
    · rename_i group others hsplit
      have heq := eq_of_splitHexMarks hsplit
      split at h
      · rename_i hall
        cases h
        exact ⟨List.cons_ne_nil _ _, all_iff_areHexGroups.mp hall, heq⟩
      · cases h
    · cases h
  · rintro ⟨hne, hgroups, rfl⟩
    obtain ⟨group, others, rfl⟩ := List.exists_cons_of_ne_nil hne
    rw [hexGroups?, splitHexMarks_hexMarked fun g hg => not_mem_of_areHexDigits (hgroups g hg).2]
    exact if_pos (all_iff_areHexGroups.mpr hgroups)

/-! ### Literals -/

/-- What groups of hexadecimal digits stand for. -/
def hexConstant (groups : List (List Char)) : Except SemanticCause Constant :=
  match oddGroup? groups with
  | some group => .error (.oddHexDigits (String.ofList group))
  | none => .ok (.binary (pairBytes groups.flatten))

section

variable {decoder : HexDecoder} (lawful : decoder.Lawful)
include lawful

theorem map_hex {digits : List Char} (h : AreHexDigits digits) :
    (hexBy decoder (String.ofList digits)).map Constant.binary = hexConstant [digits] := by
  by_cases hodd : digits.length % 2 = 1
  · simp [hex_of_odd h hodd, hexConstant, oddGroup?, hodd, Except.map]
  · have heven : digits.length % 2 = 0 := by omega
    simp [hex_of_even lawful h heven, hexConstant, oddGroup?, heven, Except.map]

/-- A string of the kind that can stand for bytes is read as the groups of digits in it. -/
theorem string_hexMarked {groups : List (List Char)} (hne : groups ≠ [])
    (h : AreHexGroups groups) (backslashEscapes : Bool) :
    stringBy decoder (String.ofList (hexMarked groups)) .escaped backslashEscapes =
      hexConstant groups := by
  have found := hexGroups?_eq_some_iff.mpr ⟨hne, h, rfl⟩
  simp only [stringBy, String.toList_ofList, found, hexConstant,
    hexGroups_eq lawful fun group hgroup => (h group hgroup).2]
  cases oddGroup? groups <;> rfl

/-- **A string is refused only for a group of digits that ends inside a pair**: it is of the kind
that can stand for bytes, it consists of groups of digits behind their marks, and the complaint is
about the first group with an odd number of them. -/
theorem string_eq_error {body : String} {kind : StringKind} {backslashEscapes : Bool}
    {cause : SemanticCause} :
    stringBy decoder body kind backslashEscapes = .error cause ↔
      kind = .escaped ∧ ∃ groups group, AreHexGroups groups ∧ body.toList = hexMarked groups ∧
        oddGroup? groups = some group ∧ cause = .oddHexDigits (String.ofList group) := by
  constructor
  · intro h
    unfold stringBy at h
    split at h
    · rename_i groups hgroups
      obtain ⟨hne, hdigits, hbody⟩ := hexGroups?_eq_some_iff.mp hgroups
      refine ⟨rfl, groups, ?_⟩
      rw [hexGroups_eq lawful fun group hgroup => (hdigits group hgroup).2] at h
      cases hodd : oddGroup? groups with
      | none =>
        rw [hodd] at h
        cases h
      | some group =>
        rw [hodd] at h
        cases h
        exact ⟨group, hdigits, hbody, rfl, rfl⟩
    · cases h
  · rintro ⟨rfl, groups, group, hdigits, hbody, hodd, rfl⟩
    have hne : groups ≠ [] := by
      rintro rfl
      cases hodd
    rw [← String.ofList_toList (s := body), hbody, string_hexMarked lawful hne hdigits,
      hexConstant, hodd]

end

end SqlFront.Literal
