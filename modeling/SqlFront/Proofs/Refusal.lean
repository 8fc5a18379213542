import SqlFront.Build.Schema
import SqlFront.Proofs.Outcome

/-!
Which failures are refusals of a query, and how it is seen that a computation fails with nothing
else. A complaint about the shape of a tree is no refusal of the query: it means that the tree is
not one that the grammar makes.
-/

namespace SqlFront

/-- The cause is about what a query means. -/
def SemanticCause.isRefusal : SemanticCause → Bool
  | malformed _ | emptyTableName | custom _ => false
  | _ => true

/-- The failure is about what a query means or asks for. -/
def Failure.isRefusal : Failure → Bool
  | semantic cause => cause.isRefusal
  | unsupported _ => true
  | unreadable _ _ | config _ => false

/-- A result whose failures all pass a test. -/
def FailsOnly {ε α : Type} (test : ε → Bool) (result : Except ε α) : Prop :=
  ∀ failure, result = .error failure → test failure

namespace FailsOnly

variable {ε δ α β : Type} {test : ε → Bool}

theorem ok (a : α) : FailsOnly test (.ok a) := by
  intro failure h
  cases h

theorem error {failure : ε} (h : test failure) : FailsOnly test (.error failure : Except ε α) := by
  intro other hother
  cases hother
  exact h

theorem bind {x : Except ε α} {f : α → Except ε β} (hx : FailsOnly test x)
    (hf : ∀ a, x = .ok a → FailsOnly test (f a)) : FailsOnly test (x >>= f) := by
  intro failure h
  cases x with
  | error other =>
    cases h
    exact hx failure rfl
  | ok a => exact hf a rfl failure h

theorem map {f : α → β} {x : Except ε α} (hx : FailsOnly test x) : FailsOnly test (f <$> x) := by
  intro failure h
  cases x with
  | error other =>
    cases h
    exact hx failure rfl
  | ok a => cases h

theorem mapError {f : ε → δ} {wider : δ → Bool} {x : Except ε α} (hx : FailsOnly test x)
    (hf : ∀ failure, test failure → wider (f failure)) : FailsOnly wider (x.mapError f) := by
  intro failure h
  cases x with
  | error other =>
    cases h
    exact hf other (hx other rfl)
  | ok a => cases h

/-- A step for each item only fails as the steps do. -/
theorem mapM {f : α → Except ε β} {items : List α} (h : ∀ item ∈ items, FailsOnly test (f item)) :
    FailsOnly test (items.mapM f) := by
  induction items with
  | nil => exact ok []
  | cons item items ih =>
    rw [List.mapM_cons]
    have hitems := ih fun other hmem => h other (by simp [hmem])
    exact bind (h item (by simp)) fun _ _ => bind hitems fun _ _ => ok _

/-- Steps that carry a value along only fail as the steps do. -/
theorem foldlM {f : β → α → Except ε β} {items : List α}
    (h : ∀ item ∈ items, ∀ b, FailsOnly test (f b item)) (b : β) :
    FailsOnly test (items.foldlM f b) := by
  induction items generalizing b with
  | nil => exact ok b
  | cons item items ih =>
    rw [List.foldlM_cons]
    have hitems := ih fun other hmem => h other (by simp [hmem])
    exact bind (h item (by simp) b) fun next _ => hitems next

end FailsOnly

namespace Built

/-- The result fails only by refusing the query. -/
def OnlyRefuses {α : Type} (built : Built α) : Prop := FailsOnly Failure.isRefusal built

namespace OnlyRefuses

variable {α β : Type}

theorem ok (a : α) : OnlyRefuses (.ok a) := FailsOnly.ok a

theorem bind {x : Built α} {f : α → Built β} (hx : x.OnlyRefuses)
    (hf : ∀ a, x = .ok a → (f a).OnlyRefuses) : OnlyRefuses (x >>= f) :=
  FailsOnly.bind hx hf

theorem map {f : α → β} {x : Built α} (hx : x.OnlyRefuses) : OnlyRefuses (f <$> x) :=
  FailsOnly.map hx

theorem mapM {f : α → Built β} {items : List α} (h : ∀ item ∈ items, (f item).OnlyRefuses) :
    OnlyRefuses (items.mapM f) :=
  FailsOnly.mapM h

theorem foldlM {f : β → α → Built β} {items : List α}
    (h : ∀ item ∈ items, ∀ b, (f b item).OnlyRefuses) (b : β) :
    OnlyRefuses (items.foldlM f b) :=
  FailsOnly.foldlM h b

theorem reject {cause : SemanticCause} (h : cause.isRefusal) :
    (Built.reject cause : Built α).OnlyRefuses :=
  FailsOnly.error h

theorem refuse {cause : UnsupportedCause} : (Built.refuse cause : Built α).OnlyRefuses :=
  FailsOnly.error rfl

theorem refuse_bind {cause : UnsupportedCause} {f : α → Built β} :
    (Built.refuse cause >>= f).OnlyRefuses :=
  FailsOnly.error rfl

theorem require {cause : SemanticCause} (h : cause.isRefusal) (value : Option α) :
    (Built.require cause value).OnlyRefuses := by
  cases value with
  | none => exact reject h
  | some a => exact ok a

/-- A part that is there is no cause to fail. -/
theorem require_of_isSome {cause : SemanticCause} {value : Option α} (h : value.isSome) :
    (Built.require cause value).OnlyRefuses := by
  obtain ⟨a, rfl⟩ := Option.isSome_iff_exists.mp h
  exact ok a

theorem require_bind {cause : SemanticCause} {value : Option α} {f : α → Built β}
    (h : ∃ a, value = some a ∧ (f a).OnlyRefuses) :
    OnlyRefuses (Built.require cause value >>= f) := by
  obtain ⟨a, rfl, hf⟩ := h
  exact hf

theorem ofMeaning {result : Except SemanticCause α}
    (h : FailsOnly SemanticCause.isRefusal result) : (Built.ofMeaning result).OnlyRefuses :=
  h.mapError fun _ hcause => hcause

end OnlyRefuses

end Built

/-! ### Literals -/

namespace Literal

theorem decimalBy_failsOnly (reader : Decimal.Reader) (text : List Char) :
    FailsOnly SemanticCause.isRefusal (decimalBy reader text) := by
  simp only [decimalBy]
  split
  · exact .error rfl
  · split
    · exact .ok _
    · exact .error rfl

theorem numberBy_failsOnly (reader : Decimal.Reader) (negative : Bool) (text : String) :
    FailsOnly SemanticCause.isRefusal (numberBy reader negative text) := by
  simp only [numberBy]
  split
  · exact .ok _
  · exact .map (decimalBy_failsOnly reader _)

section

variable (decoder : HexDecoder)

theorem hex_failsOnly (digits : String) :
    FailsOnly SemanticCause.isRefusal (hexBy decoder digits) := by
  simp only [hexBy]
  split
  · exact .error rfl
  · have hbytes : FailsOnly (fun _ => true) (decoder.decode (utf8Bytes digits.toList)) :=
      fun _ _ => rfl
    exact hbytes.mapError fun _ _ => rfl

theorem hexGroups_failsOnly (groups : List (List Char)) :
    FailsOnly SemanticCause.isRefusal (hexGroups decoder groups) := by
  induction groups with
  | nil => exact .ok []
  | cons group groups ih =>
    rw [hexGroups]
    exact .bind (hex_failsOnly decoder _) fun _ _ => .bind ih fun _ _ => .ok _

theorem string_failsOnly (body : String) (kind : StringKind) (backslashEscapes : Bool) :
    FailsOnly SemanticCause.isRefusal (stringBy decoder body kind backslashEscapes) := by
  simp only [stringBy]
  split
  · exact .map (hexGroups_failsOnly decoder _)
  · exact .ok _

end

theorem character_failsOnly (value : Constant) :
    FailsOnly SemanticCause.isRefusal (character value) := by
  unfold character
  split
  · split
    · exact .ok _
    · exact .error rfl
  · exact .error rfl

end Literal

theorem negate_failsOnly (e : Expr) : FailsOnly SemanticCause.isRefusal e.negate := by
  unfold Expr.negate
  split
  · exact .ok _
  · exact .error rfl

theorem setLength_failsOnly (column : ColumnDefinition) (length : Int) :
    FailsOnly SemanticCause.isRefusal (column.setLength length) := by
  unfold ColumnDefinition.setLength
  split
  · exact .error rfl
  · exact .error rfl
  · split
    · exact .error rfl
    · split
      · exact .error rfl
      · exact .ok _

end SqlFront
