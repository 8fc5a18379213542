import SqlFront.Text.Source

/-!
Texts of ranges: what a range of a text stands for is decided by the part of the text that it lies
in, and by its place in that part.
-/

namespace SqlFront

theorem byteLength_append (left right : List Char) :
    byteLength (left ++ right) = byteLength left + byteLength right := by
  induction left with
  | nil => simp [byteLength]
  | cons c cs ih => simp only [List.cons_append, byteLength, ih, Nat.add_assoc]

/-! ### Bytes -/

theorem dropBytes_cons {n : Nat} (c : Char) (cs : List Char) (h : c.utf8Size ≤ n) :
    dropBytes n (c :: cs) = dropBytes (n - c.utf8Size) cs := by
  have hpos := c.utf8Size_pos
  obtain ⟨m, rfl⟩ : ∃ m, n = m + 1 := ⟨n - 1, by omega⟩
  rw [dropBytes, if_pos h]

theorem takeBytes_cons {n : Nat} (c : Char) (cs : List Char) (h : c.utf8Size ≤ n) :
    takeBytes n (c :: cs) = (takeBytes (n - c.utf8Size) cs).map (c :: ·) := by
  have hpos := c.utf8Size_pos
  obtain ⟨m, rfl⟩ : ∃ m, n = m + 1 := ⟨n - 1, by omega⟩
  rw [takeBytes, if_pos h]

/-- The bytes of a text that stands before another one can be dropped first. -/
theorem dropBytes_add (before rest : List Char) (n : Nat) :
    dropBytes (byteLength before + n) (before ++ rest) = dropBytes n rest := by
  induction before with
  | nil => simp [byteLength]
  | cons c cs ih =>
    rw [List.cons_append, byteLength, dropBytes_cons _ _ (by omega), ← ih]
    congr 1
    omega

theorem dropBytes_append {n : Nat} {text : List Char} (after : List Char)
    (h : n ≤ byteLength text) :
    dropBytes n (text ++ after) = (dropBytes n text).map (· ++ after) := by
  induction text generalizing n with
  | nil =>
    obtain rfl : n = 0 := Nat.le_zero.mp h
    cases after <;> simp [dropBytes]
  | cons c cs ih =>
    by_cases hc : c.utf8Size ≤ n
    · rw [byteLength] at h
      rw [List.cons_append, dropBytes_cons c _ hc, dropBytes_cons c _ hc, ih (by omega)]
    · cases n with
      | zero => simp [dropBytes]
      | succ n => simp [dropBytes, hc]

theorem takeBytes_append {n : Nat} {text : List Char} (after : List Char)
    (h : n ≤ byteLength text) :
    takeBytes n (text ++ after) = takeBytes n text := by
  induction text generalizing n with
  | nil =>
    obtain rfl : n = 0 := Nat.le_zero.mp h
    simp [takeBytes]
  | cons c cs ih =>
    by_cases hc : c.utf8Size ≤ n
    · rw [byteLength] at h
      rw [List.cons_append, takeBytes_cons c _ hc, takeBytes_cons c _ hc, ih (by omega)]
    · cases n with
      | zero => simp [takeBytes]
      | succ n => simp [takeBytes, hc]

theorem takeBytes_byteLength (text : List Char) : takeBytes (byteLength text) text = some text := by
  induction text with
  | nil => rfl
  | cons c cs ih =>
    rw [byteLength, takeBytes_cons _ _ (Nat.le_add_right _ _), Nat.add_sub_cancel_left, ih]
    rfl

/-- What is left after dropping bytes is as long as these leave it. -/
theorem byteLength_of_dropBytes {n : Nat} {text tail : List Char}
    (h : dropBytes n text = some tail) :
    n + byteLength tail = byteLength text := by
  induction text generalizing n with
  | nil =>
    cases n with
    | zero =>
      cases h
      simp
    | succ n => cases h
  | cons c cs ih =>
    by_cases hc : c.utf8Size ≤ n
    · rw [dropBytes_cons c _ hc] at h
      have := ih h
      rw [byteLength]
      omega
    · cases n with
      | zero =>
        cases h
        simp
      | succ n => simp [dropBytes, hc] at h

/-! ### Ranges -/

/-- The range lies in the part of a text that has so many bytes and starts at this one. -/
structure Span.Within (offset length : Nat) (span : Span) : Prop where
  start : offset ≤ span.start
  stop : offset ≤ span.stop
  fits : span.stop ≤ offset + length

/-- The range, counted from this byte. -/
def Span.back (offset : Nat) (span : Span) : Span :=
  ⟨span.start - offset, span.stop - offset⟩

theorem Span.join_back (offset : Nat) (left right : Span) :
    (left.back offset).join (right.back offset) = (left.join right).back offset := by
  simp only [join, back, Span.mk.injEq]
  omega

theorem Span.Within.join {offset length : Nat} {left right : Span}
    (hleft : left.Within offset length) (hright : right.Within offset length) :
    (left.join right).Within offset length where
  start := Nat.le_min.mpr ⟨hleft.start, hright.start⟩
  stop := Nat.le_trans hleft.stop (Nat.le_max_left _ _)
  fits := Nat.max_le.mpr ⟨hleft.fits, hright.fits⟩

/-- **A range that lies in a part of a text has the same text in that part alone.** -/
theorem Source.slice_back {before text after : List Char} {span : Span}
    (h : span.Within (byteLength before) (byteLength text)) :
    Source.slice (before ++ text ++ after) span =
      Source.slice text (span.back (byteLength before)) := by
  obtain ⟨low, hlow⟩ := Nat.exists_eq_add_of_le h.start
  obtain ⟨high, hhigh⟩ := Nat.exists_eq_add_of_le h.stop
  have hfits := h.fits
  obtain ⟨_, _⟩ := span
  subst hlow hhigh
  simp only [Source.slice, Span.back, Nat.add_sub_cancel_left, Nat.add_le_add_iff_left,
    Nat.add_sub_add_left] at hfits ⊢
  split
  · rename_i hle
    rw [List.append_assoc, dropBytes_add, dropBytes_append _ (Nat.le_trans hle hfits)]
    cases hdrop : dropBytes low text with
    | none => rfl
    | some tail =>
      have hlength := byteLength_of_dropBytes hdrop
      have htake : high - low ≤ byteLength tail := by omega
      simp only [Option.map_some, takeBytes_append after htake]
  · rfl

/-- A range that is all of a part of a text has the text of that part. -/
theorem Source.slice_of_append (before text after : List Char) :
    Source.slice (before ++ text ++ after)
      ⟨byteLength before, byteLength before + byteLength text⟩ = String.ofList text := by
  rw [Source.slice_back ⟨Nat.le_refl _, Nat.le_add_right _ _, Nat.le_refl _⟩]
  simp [Source.slice, Span.back, dropBytes, takeBytes_byteLength]

/-! ### A text in a source -/

/-- The text stands in the source, from this byte on. -/
def Source.HasAt (source : Source) (offset : Nat) (text : List Char) : Prop :=
  ∃ before after, source = before ++ text ++ after ∧ offset = byteLength before

namespace Source.HasAt

variable {source : Source} {offset : Nat} {text front tail : List Char} {span : Span}

theorem whole (source : Source) : source.HasAt 0 source :=
  ⟨[], [], (List.append_nil _).symm, rfl⟩

theorem left (h : source.HasAt offset (front ++ tail)) : source.HasAt offset front := by
  obtain ⟨before, after, rfl, rfl⟩ := h
  exact ⟨before, tail ++ after, by simp, rfl⟩

theorem right (h : source.HasAt offset (front ++ tail)) :
    source.HasAt (offset + byteLength front) tail := by
  obtain ⟨before, after, rfl, rfl⟩ := h
  exact ⟨before ++ front, after, by simp, (byteLength_append _ _).symm⟩

theorem slice (h : source.HasAt offset text) :
    source.slice ⟨offset, offset + byteLength text⟩ = String.ofList text := by
  obtain ⟨before, after, rfl, rfl⟩ := h
  exact slice_of_append before text after

theorem slice_back (h : source.HasAt offset text) (hspan : span.Within offset (byteLength text)) :
    source.slice span = Source.slice text (span.back offset) := by
  obtain ⟨before, after, rfl, rfl⟩ := h
  exact Source.slice_back hspan

end Source.HasAt

/-- The ranges are the same one in a text that has so many bytes and stands at these two places. -/
structure Span.Corresponds (offset offset' length : Nat) (span span' : Span) : Prop where
  left : span.Within offset length
  right : span'.Within offset' length
  same : span.back offset = span'.back offset'

namespace Span.Corresponds

variable {offset offset' length : Nat}

theorem join {first first' last last' : Span}
    (hfirst : Corresponds offset offset' length first first')
    (hlast : Corresponds offset offset' length last last') :
    Corresponds offset offset' length (first.join last) (first'.join last') where
  left := hfirst.left.join hlast.left
  right := hfirst.right.join hlast.right
  same := by rw [← Span.join_back, hfirst.same, hlast.same, Span.join_back]

theorem of_le {low high : Nat} (hfits : high ≤ length) :
    Corresponds offset offset' length ⟨offset + low, offset + high⟩
      ⟨offset' + low, offset' + high⟩ where
  left := ⟨Nat.le_add_right _ _, Nat.le_add_right _ _, Nat.add_le_add_left hfits _⟩
  right := ⟨Nat.le_add_right _ _, Nat.le_add_right _ _, Nat.add_le_add_left hfits _⟩
  same := by simp only [Span.back, Nat.add_sub_cancel_left]

theorem slice_eq {source source' : Source} {text : List Char} {span span' : Span}
    (h : Corresponds offset offset' (byteLength text) span span')
    (hsource : source.HasAt offset text) (hsource' : source'.HasAt offset' text) :
    source.slice span = source'.slice span' := by
  rw [hsource.slice_back h.left, h.same, hsource'.slice_back h.right]

end Span.Corresponds

end SqlFront
