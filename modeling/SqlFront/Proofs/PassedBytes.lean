import SqlFront.Proofs.MisreadTokens
import SqlFront.Token.Scan

/-!
The bytes of characters, and what a scan passes of them.

All that a scan looks for is in ASCII, and no byte of another character is. So where it steps into
such a character, it does not stop before the end of it: passing the bytes of a text ends where the
lexer stops on its characters.
-/

namespace SqlFront

open Scan

/-! ### Characters -/

/-- The byte is beyond ASCII. -/
def IsHigh (b : UInt8) : Prop := 128 ≤ (byteChar b).toNat

/-- The first byte of a character, and those after it. A character in ASCII is one byte, and all
bytes of another one are beyond ASCII. -/
structure EncodedBy (c : Char) (b : UInt8) (tail : List UInt8) : Prop where
  bytes : String.utf8EncodeChar c = b :: tail
  ascii : c.toNat < 128 → byteChar b = c
  high : 128 ≤ c.toNat → IsHigh b
  tail : ∀ d ∈ tail, IsHigh d

theorem toNat_byteChar (b : UInt8) : (byteChar b).toNat = b.toNat := by
  have valid : b.toNat.isValidChar := .inl (by have := b.toNat_lt; omega)
  rw [byteChar, Char.ofNat, dif_pos valid]
  rfl

theorem isHigh_ofNat {n : Nat} (h : 128 ≤ n) (hbyte : n < 256) : IsHigh (UInt8.ofNat n) := by
  rwa [IsHigh, toNat_byteChar, UInt8.toNat_ofNat', Nat.mod_eq_of_lt hbyte]

theorem exists_encodedBy (c : Char) : ∃ b tail, EncodedBy c b tail := by
  have number : c.val.toNat = c.toNat := rfl
  by_cases hascii : c.toNat < 128
  · refine ⟨UInt8.ofNat c.toNat, [], ?_, fun _ => ?_, fun h => absurd hascii (by omega), by simp⟩
    · rw [String.utf8EncodeChar, number, if_pos (by omega)]
    · rw [byteChar, UInt8.toNat_ofNat', Nat.mod_eq_of_lt (by omega), Char.ofNat_toNat]
  · suffices high : ∃ b tail, String.utf8EncodeChar c = b :: tail ∧ ∀ d ∈ b :: tail, IsHigh d by
      obtain ⟨b, tail, bytes, high⟩ := high
      obtain ⟨first, others⟩ := List.forall_mem_cons.mp high
      exact ⟨b, tail, bytes, fun h => absurd h hascii, fun _ => first, others⟩
    have beyond {n : Nat} (h : 128 ≤ n := by omega) (hbyte : n < 256 := by omega) :
        IsHigh (UInt8.ofNat n) := isHigh_ofNat h hbyte
    simp only [String.utf8EncodeChar, number]
    split
    · omega
    · split
      · exact ⟨_, _, rfl, by simp only [List.forall_mem_cons]; exact ⟨beyond, beyond, by simp⟩⟩
      · split
        · exact ⟨_, _, rfl, by
            simp only [List.forall_mem_cons]; exact ⟨beyond, beyond, beyond, by simp⟩⟩
        · exact ⟨_, _, rfl, by
            simp only [List.forall_mem_cons]; exact ⟨beyond, beyond, beyond, beyond, by simp⟩⟩

/-- The test passes all characters beyond ASCII, or none of them. -/
def PassesHigh (test : Char → Bool) (value : Bool) : Prop :=
  ∀ c : Char, 128 ≤ c.toNat → test c = value

theorem passesHigh_isDigit : PassesHigh Char.isDigit false := fun c h => by
  by_contra hc
  have := toNat_lt_of_isDigit (eq_true_of_ne_false hc)
  omega

theorem passesHigh_isHexDigit : PassesHigh isHexDigit false := fun c h => by
  by_contra hc
  have := Literal.toNat_lt_of_isHexDigit (eq_true_of_ne_false hc)
  omega

theorem passesHigh_isBlank : PassesHigh isBlank false := fun c h => by
  by_contra hc
  obtain rfl | rfl | rfl | rfl | rfl := isBlank_iff.mp (eq_true_of_ne_false hc) <;>
    exact absurd h (by decide)

theorem passesHigh_isNameChar : PassesHigh isNameChar true := fun c h => by
  simp [isNameChar, h]

theorem passesHigh_isNameStart : PassesHigh isNameStart true := fun c h => by
  simp [isNameStart, h]

theorem passesHigh_pair {a d : Char} (ha : a.toNat < 128) (hd : d.toNat < 128) :
    PassesHigh (fun c => c = a || c = d) false := fun c h => by
  have other {e : Char} (he : e.toNat < 128) : c ≠ e := by
    rintro rfl
    omega
  simp [other ha, other hd]

namespace EncodedBy

variable {c : Char} {b : UInt8} {tail : List UInt8}

theorem utf8Bytes_cons (h : EncodedBy c b tail) (cs : List Char) :
    utf8Bytes (c :: cs) = b :: (tail ++ utf8Bytes cs) := by
  rw [utf8Bytes, List.flatMap_cons, h.bytes]
  rfl

theorem utf8Size_eq (h : EncodedBy c b tail) : c.utf8Size = tail.length + 1 := by
  rw [← String.length_utf8EncodeChar, h.bytes, List.length_cons]

/-- A character in ASCII is known from its first byte. -/
theorem eq_iff (h : EncodedBy c b tail) {a : Char} (ha : a.toNat < 128) :
    byteChar b = a ↔ c = a := by
  by_cases hascii : c.toNat < 128
  · rw [h.ascii hascii]
  · have high := h.high (by omega)
    constructor
    · rintro rfl
      exact absurd high (by simp only [IsHigh]; omega)
    · rintro rfl
      exact absurd ha hascii

theorem test_eq (h : EncodedBy c b tail) {test : Char → Bool} {value : Bool}
    (htest : PassesHigh test value) : test (byteChar b) = test c := by
  by_cases hascii : c.toNat < 128
  · rw [h.ascii hascii]
  · rw [htest _ (h.high (by omega)), htest _ (by omega)]

theorem tail_eq_nil (h : EncodedBy c b tail) (hascii : c.toNat < 128) : tail = [] := by
  have size := h.utf8Size_eq
  rw [Char.utf8Size_eq_one_iff.mpr (Nat.le_of_lt_succ hascii)] at size
  exact List.eq_nil_of_length_eq_zero (by omega)

end EncodedBy

theorem byteLength_eq_zero {text : List Char} : byteLength text = 0 ↔ text = [] := by
  constructor
  · intro h
    by_contra hne
    exact absurd (byteLength_pos hne) (by omega)
  · rintro rfl
    rfl

theorem length_utf8Bytes (text : List Char) : (utf8Bytes text).length = byteLength text := by
  induction text with
  | nil => rfl
  | cons c cs ih =>
    rw [utf8Bytes, List.flatMap_cons, List.length_append, String.length_utf8EncodeChar,
      ← utf8Bytes, ih]
    rfl

/-- Fewer bytes are left behind a character. -/
theorem length_utf8Bytes_lt (front : List Char) (c : Char) (text rest : List Char) :
    (utf8Bytes rest).length < (utf8Bytes (front ++ c :: (text ++ rest))).length := by
  have := c.utf8Size_pos
  simp only [length_utf8Bytes, byteLength_append, byteLength]
  omega

/-- A character in ASCII is one byte. -/
theorem utf8Bytes_ascii {c : Char} (hascii : c.toNat < 128) (cs : List Char) :
    ∃ b, byteChar b = c ∧ c.utf8Size = 1 ∧ utf8Bytes (c :: cs) = b :: utf8Bytes cs := by
  obtain ⟨b, tail, h⟩ := exists_encodedBy c
  obtain rfl := h.tail_eq_nil hascii
  exact ⟨b, h.ascii hascii, h.utf8Size_eq, h.utf8Bytes_cons cs⟩

/-- The byte ahead is a character in ASCII where that character is ahead. -/
theorem head?_utf8Bytes_eq_some {a : Char} (ha : a.toNat < 128) {cs : List Char} :
    (utf8Bytes cs).head?.map byteChar = some a ↔ cs.head? = some a := by
  cases cs with
  | nil => simp [utf8Bytes]
  | cons c cs =>
    obtain ⟨b, tail, h⟩ := exists_encodedBy c
    simp [h.utf8Bytes_cons, h.eq_iff ha]

theorem any_head?_utf8Bytes {test : Char → Bool} {value : Bool} (htest : PassesHigh test value)
    {cs : List Char} : ((utf8Bytes cs).head?.map byteChar).any test = cs.head?.any test := by
  cases cs with
  | nil => rfl
  | cons c cs =>
    obtain ⟨b, tail, h⟩ := exists_encodedBy c
    simp [h.utf8Bytes_cons, h.test_eq htest]

/-! ### Passing characters -/

theorem IsHigh.ne {b : UInt8} {a : Char} (h : IsHigh b) (ha : a.toNat < 128) : byteChar b ≠ a := by
  rintro rfl
  exact absurd h (by simp only [IsHigh]; omega)

/-- Bytes beyond ASCII are passed one by one. -/
def SkipsHigh {α : Type} (pass : Nat → List UInt8 → α) : Prop :=
  ∀ offset b bytes, IsHigh b → pass offset (b :: bytes) = pass (offset + 1) bytes

theorem SkipsHigh.append {α : Type} {pass : Nat → List UInt8 → α} (h : SkipsHigh pass)
    {front : List UInt8} (high : ∀ b ∈ front, IsHigh b) (offset : Nat) (bytes : List UInt8) :
    pass offset (front ++ bytes) = pass (offset + front.length) bytes := by
  induction front generalizing offset with
  | nil => rfl
  | cons b front ih =>
    obtain ⟨first, others⟩ := List.forall_mem_cons.mp high
    rw [List.cons_append, h _ _ _ first, ih others, List.length_cons, Nat.add_assoc,
      Nat.add_comm 1]

/-- A character that starts with a byte that is passed is passed. -/
theorem SkipsHigh.encodedBy {α : Type} {pass : Nat → List UInt8 → α} (skips : SkipsHigh pass)
    {c : Char} {b : UInt8} {tail : List UInt8} (h : EncodedBy c b tail) (offset : Nat)
    (bytes : List UInt8) :
    pass (offset + 1) (tail ++ bytes) = pass (offset + c.utf8Size) bytes := by
  rw [skips.append h.tail, h.utf8Size_eq, Nat.add_assoc, Nat.add_comm 1]

section

variable (offset : Nat) (cs : List Char)

theorem passWhile_utf8Bytes {test : Char → Bool} {value : Bool} (htest : PassesHigh test value) :
    passWhile test offset (utf8Bytes cs) =
      ⟨offset + byteLength (cs.takeWhile test), utf8Bytes (cs.dropWhile test)⟩ := by
  induction cs generalizing offset with
  | nil => rfl
  | cons c cs ih =>
    obtain ⟨b, tail, h⟩ := exists_encodedBy c
    rw [h.utf8Bytes_cons, passWhile, h.test_eq htest]
    cases hc : test c with
    | false => simp [hc, byteLength, h.utf8Bytes_cons]
    | true =>
      rw [if_pos rfl, List.takeWhile_cons_of_pos hc, List.dropWhile_cons_of_pos hc, byteLength,
        ← Nat.add_assoc, ← ih]
      by_cases hascii : c.toNat < 128
      · obtain rfl := h.tail_eq_nil hascii
        rw [h.utf8Size_eq]
        rfl
      · have skips : SkipsHigh (passWhile test) := fun offset b bytes hb => by
          rw [passWhile, if_pos ((htest _ hb).trans ((htest c (by omega)).symm.trans hc))]
        exact skips.encodedBy h offset _

theorem passLine_utf8Bytes :
    passLine offset (utf8Bytes cs) =
      ⟨offset + byteLength (lineText cs), utf8Bytes (cs.drop (lineText cs).length)⟩ := by
  have skips : SkipsHigh passLine := fun offset b bytes hb => by
    rw [passLine, if_neg (hb.ne (by decide))]
  induction cs generalizing offset with
  | nil => rfl
  | cons c cs ih =>
    obtain ⟨b, tail, h⟩ := exists_encodedBy c
    rw [h.utf8Bytes_cons, passLine, lineText]
    by_cases hc : c = '\n'
    · subst hc
      obtain rfl := h.tail_eq_nil (by decide)
      rw [if_pos (h.ascii (by decide)), if_pos rfl]
      rfl
    · rw [if_neg (mt (h.eq_iff (by decide)).mp hc), if_neg hc, skips.encodedBy h, ih, byteLength,
        Nat.add_assoc]
      rfl

theorem passBlock_utf8Bytes :
    passBlock offset (utf8Bytes cs) = (blockText cs).map fun text =>
      ⟨offset + byteLength text, utf8Bytes (cs.drop text.length)⟩ := by
  have skips : SkipsHigh passBlock := fun offset b bytes hb => by
    rw [passBlock, if_neg (by simp [hb.ne (show ('*' : Char).toNat < 128 by decide)])]
  fun_induction blockText cs generalizing offset with
  | case1 rest =>
    obtain ⟨b, star, -, hbytes⟩ := utf8Bytes_ascii (c := '*') (by decide) ('/' :: rest)
    obtain ⟨d, slash, -, htail⟩ := utf8Bytes_ascii (c := '/') (by decide) rest
    rw [hbytes, passBlock, if_pos (by simp [star, slash, htail]), htail]
    rfl
  | case2 c cs hends ih =>
    obtain ⟨b, tail, h⟩ := exists_encodedBy c
    have other : ¬(byteChar b = '*' && (tail ++ utf8Bytes cs).head?.map byteChar = some '/') := by
      simp only [Bool.and_eq_true, decide_eq_true_eq]
      rintro ⟨star, slash⟩
      obtain rfl := (h.eq_iff (by decide)).mp star
      obtain rfl := h.tail_eq_nil (by decide)
      obtain ⟨rest, rfl⟩ := List.head?_eq_some_iff.mp
        ((head?_utf8Bytes_eq_some (by decide)).mp slash)
      exact hends rest rfl rfl
    rw [h.utf8Bytes_cons, passBlock, if_neg other, skips.encodedBy h, ih]
    cases blockText cs with
    | none => rfl
    | some text => simp [byteLength, Nat.add_assoc]
  | case3 => rfl

theorem passString_utf8Bytes {quote : Char} (hquote : quote.toNat < 128) (escapes : Bool) :
    passString quote escapes offset (utf8Bytes cs) =
      (stringBody quote escapes cs).map fun body =>
        ⟨offset + byteLength body + 1, utf8Bytes (cs.drop (body.length + 1))⟩ := by
  have backslash : ('\\' : Char).toNat < 128 := by decide
  have skips : SkipsHigh (passString quote escapes) := fun offset b bytes hb => by
    rw [passString.eq_def]
    simp [hb.ne backslash, hb.ne hquote]
  fun_induction stringBody quote escapes cs generalizing offset with
  | case1 => rfl
  | case2 c hc =>
    obtain ⟨hescapes, rfl⟩ : escapes = true ∧ c = '\\' := by simpa using hc
    obtain ⟨b, hb, -, hbytes⟩ := utf8Bytes_ascii backslash []
    rw [hbytes, passString.eq_def]
    simp [hescapes, hb, utf8Bytes]
  | case3 c hc d rest ih =>
    obtain ⟨hescapes, rfl⟩ : escapes = true ∧ c = '\\' := by simpa using hc
    obtain ⟨b, hb, hsize, hbytes⟩ := utf8Bytes_ascii backslash (d :: rest)
    obtain ⟨e, tail, h⟩ := exists_encodedBy d
    rw [hbytes, h.utf8Bytes_cons, passString, if_pos (by simp [hescapes, hb])]
    -- only the first byte of the character is passed with the backslash
    change passString quote escapes (offset + 1 + 1) (tail ++ utf8Bytes rest) = _
    rw [skips.encodedBy h, ih]
    cases stringBody quote escapes rest with
    | none => rfl
    | some body => simp [byteLength, hsize, Nat.add_assoc]
  | case4 hc =>
    obtain ⟨b, hb, -, hbytes⟩ := utf8Bytes_ascii hquote []
    rw [hbytes, passString.eq_def]
    simp [hb, hc, byteLength, utf8Bytes]
  | case5 rest hc ih =>
    obtain ⟨b, hb, hsize, hbytes⟩ := utf8Bytes_ascii hquote (quote :: rest)
    obtain ⟨d, hd, -, htail⟩ := utf8Bytes_ascii hquote rest
    rw [hbytes, htail, passString.eq_def]
    simp only [hb, hd, hc, if_true, ih]
    cases stringBody quote escapes rest with
    | none => rfl
    | some body =>
      simp [byteLength, hsize]
      omega
  | case6 d rest hd hc =>
    obtain ⟨b, hb, -, hbytes⟩ := utf8Bytes_ascii hquote (d :: rest)
    obtain ⟨e, tail, h⟩ := exists_encodedBy d
    rw [hbytes, h.utf8Bytes_cons, passString.eq_def]
    simp [hb, hc, mt (h.eq_iff hquote).mp hd, byteLength, h.utf8Bytes_cons]
  | case7 c cs hc hne ih =>
    obtain ⟨b, tail, h⟩ := exists_encodedBy c
    rw [h.utf8Bytes_cons, passString.eq_def]
    simp only [h.eq_iff backslash, h.eq_iff hquote, hc, hne, if_false, skips.encodedBy h, ih]
    cases stringBody quote escapes cs with
    | none => rfl
    | some body => simp [byteLength, Nat.add_assoc]

theorem passHexString_utf8Bytes (start : Nat) :
    passHexString start offset (utf8Bytes cs) =
      match cs.dropWhile isHexDigit with
      | [] => .error (.fault ⟨.unterminatedHexString, some start⟩)
      | c :: rest =>
          let digits := (cs.takeWhile isHexDigit).length
          if c = '\'' then .ok ⟨offset + digits + 1, utf8Bytes rest⟩
          else .error (.fault ⟨.notHexDigit (leadingByte c), some (offset + digits)⟩) := by
  induction cs generalizing offset with
  | nil => rfl
  | cons c cs ih =>
    obtain ⟨b, tail, h⟩ := exists_encodedBy c
    rw [h.utf8Bytes_cons, passHexString]
    by_cases hquote : c = '\''
    · subst hquote
      obtain rfl := h.tail_eq_nil (by decide)
      rw [if_pos (h.ascii (by decide))]
      rfl
    · rw [if_neg (mt (h.eq_iff (by decide)).mp hquote), h.test_eq passesHigh_isHexDigit]
      cases hdigit : isHexDigit c with
      | true =>
        obtain rfl := h.tail_eq_nil (Literal.toNat_lt_of_isHexDigit hdigit)
        have shift (n : Nat) : offset + 1 + n = offset + (n + 1) := by omega
        rw [if_pos rfl, List.nil_append, ih, List.dropWhile_cons_of_pos hdigit,
          List.takeWhile_cons_of_pos hdigit, List.length_cons]
        simp only [shift]
      | false => simp [hdigit, hquote, leadingByte, h.bytes, byteChar]

end

/-! ### Copying -/

/-- A range from one place between characters to another is copied as it is. -/
theorem Source.cut?_of_append (before text after : List Char) :
    Source.cut? (before ++ text ++ after)
      ⟨byteLength before, byteLength before + byteLength text⟩ = some text := by
  have dropped := dropBytes_add before (text ++ after) 0
  have taken : takeBytes (byteLength text) (text ++ after) = some text := by
    rw [takeBytes_append after (Nat.le_refl _), takeBytes_byteLength]
  rw [Nat.add_zero, dropBytes] at dropped
  simp [Source.cut?, dropped, taken]

/-- The ranges lie between places of the text that are between characters. -/
def Source.CopiesParts (source : Source) (ranges : List Span) : Prop :=
  ∀ range ∈ ranges, ∃ text, source.Covers range text

/-- What the passing of a quoted name comes to at the start of a text: it adds to the name and to
the ranges what the lexer reads there, and stops behind it. -/
inductive PassesName (source : Source) (start offset : Nat) (cs name : List Char)
    (copied : List Span) : Option (List Char × List Char) →
    Except Halt (List Char × BytePlace × List Span) → Prop where
  | passed (more text : List Char) (ranges : List Span) : source.CopiesParts ranges →
      PassesName source start offset cs name copied (some (more, text))
        (.ok (name ++ more, ⟨offset + byteLength text, utf8Bytes (cs.drop text.length)⟩,
          copied ++ ranges))
  | unterminated : PassesName source start offset cs name copied none
      (.error (.fault ⟨.unterminatedName, some start⟩))

namespace PassesName

variable {source : Source} {start offset : Nat} {name rest : List Char} {copied ranges : List Span}

theorem closed {close : Char} (size : close.utf8Size = 1) (parts : source.CopiesParts ranges) :
    PassesName source start offset (close :: rest) name copied (some ([], [close]))
      (.ok (name, ⟨offset + 1, utf8Bytes rest⟩, copied ++ ranges)) := by
  have passed := @passed source start offset (close :: rest) name copied [] [close] ranges parts
  simpa [byteLength, size] using passed

theorem behind {first front : List Char} {found : Option (List Char × List Char)}
    {read : Except Halt (List Char × BytePlace × List Span)} {before : List Span}
    (h : PassesName source start (offset + byteLength front) rest (name ++ first) before found read)
    (hbefore : before = copied ++ ranges) (parts : source.CopiesParts ranges) :
    PassesName source start offset (front ++ rest) name copied
      (found.map fun (more, text) => (first ++ more, front ++ text)) read := by
  subst hbefore
  cases h with
  | passed more text later others =>
    have both := @passed source start offset (front ++ rest) name copied (first ++ more)
      (front ++ text) (ranges ++ later) (List.forall_mem_append.mpr ⟨parts, others⟩)
    simpa [byteLength_append, ← List.drop_drop, Nat.add_assoc] using both
  | unterminated => exact .unterminated

end PassesName

/-- The open part of the name lies ahead of the text; the rest of the name and of its ranges is what
has been copied before. -/
theorem passName_utf8Bytes {source : Source} {close : Char} (hclose : close.toNat < 128)
    (start : Nat) (before part cs : List Char) (hsource : source = before ++ part ++ cs)
    {first offset : Nat} (hfirst : first = byteLength before)
    (hoffset : offset = byteLength (before ++ part)) (name : List Char) (copied : List Span) :
    PassesName source start offset cs (name ++ part) copied (quotedName close cs)
      (passName source close start first name copied offset (utf8Bytes cs)) := by
  have skips (first name copied) : SkipsHigh (passName source close start first name copied) :=
    fun offset b bytes hb => by
      rw [passName.eq_def]
      simp [hb.ne hclose]
  have size : close.utf8Size = 1 := Char.utf8Size_eq_one_iff.mpr (Nat.le_of_lt_succ hclose)
  have cut {before part after : List Char} {first offset : Nat}
      (hsource : source = before ++ part ++ after) (hfirst : first = byteLength before)
      (hoffset : offset = byteLength (before ++ part)) :
      source.cut? ⟨first, offset⟩ = some part ∧ source.CopiesParts [⟨first, offset⟩] := by
    rw [hsource, hfirst, hoffset, byteLength_append]
    exact ⟨Source.cut?_of_append ..,
      List.forall_mem_singleton.mpr ⟨part, before, after, rfl, rfl⟩⟩
  fun_induction quotedName close cs generalizing before part first offset name copied with
  | case1 => exact .unterminated
  | case2 =>
    obtain ⟨copies, parts⟩ := cut hsource hfirst hoffset
    obtain ⟨b, hb, -, hbytes⟩ := utf8Bytes_ascii hclose []
    have read : passName source close start first name copied offset (utf8Bytes [close]) =
        .ok (name ++ part, ⟨offset + 1, []⟩, copied ++ [⟨first, offset⟩]) := by
      rw [hbytes, passName.eq_def]
      simp [hb, copies, utf8Bytes]
    rw [read]
    exact .closed size parts
  | case3 rest ih =>
    obtain ⟨copies, parts⟩ := cut hsource hfirst hoffset
    obtain ⟨b, hb, -, hbytes⟩ := utf8Bytes_ascii hclose (close :: rest)
    obtain ⟨d, hd, -, htail⟩ := utf8Bytes_ascii hclose rest
    have both : byteLength [close, close] = 2 := by simp [byteLength, size]
    -- the next part starts behind both delimiters
    have behind : offset + 2 = byteLength (before ++ part ++ [close, close]) := by
      rw [byteLength_append, ← hoffset, both]
    have read : passName source close start first name copied offset
        (utf8Bytes (close :: close :: rest)) =
        passName source close start (offset + 2) (name ++ part ++ [close])
          (copied ++ [⟨first, offset⟩]) (offset + 2) (utf8Bytes rest) := by
      rw [hbytes, htail, passName.eq_def]
      simp only [hb, hd, copies, if_true]
    have next := ih _ [] (by simp [hsource]) behind (by simpa using behind)
      (name ++ part ++ [close]) (copied ++ [⟨first, offset⟩])
    rw [List.append_nil, ← both] at next
    rw [read, ← both]
    exact next.behind rfl parts
  | case4 d rest hd =>
    obtain ⟨copies, parts⟩ := cut hsource hfirst hoffset
    obtain ⟨b, hb, -, hbytes⟩ := utf8Bytes_ascii hclose (d :: rest)
    obtain ⟨e, tail, h⟩ := exists_encodedBy d
    have read : passName source close start first name copied offset
        (utf8Bytes (close :: d :: rest)) =
        .ok (name ++ part, ⟨offset + 1, utf8Bytes (d :: rest)⟩,
          copied ++ [⟨first, offset⟩]) := by
      rw [hbytes, h.utf8Bytes_cons, passName.eq_def]
      simp [hb, mt (h.eq_iff hclose).mp hd, copies]
    rw [read]
    exact .closed size parts
  | case5 c cs hc ih =>
    obtain ⟨b, tail, h⟩ := exists_encodedBy c
    have behind : offset + c.utf8Size = byteLength (before ++ (part ++ [c])) := by
      simp [hoffset, byteLength_append, byteLength, Nat.add_assoc]
    have next := ih before (part ++ [c]) (by simp [hsource]) hfirst behind name copied
    rw [h.utf8Bytes_cons, passName.eq_def]
    simp only [mt (h.eq_iff hclose).mp hc, if_false, (skips _ _ _).encodedBy h] at next ⊢
    have one : byteLength [c] = c.utf8Size := rfl
    rw [← List.append_assoc, ← one] at next
    exact next.behind (List.append_nil copied).symm (by simp [Source.CopiesParts])

end SqlFront
