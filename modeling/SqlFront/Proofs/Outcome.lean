import Mathlib.Data.List.Forall2
import SqlFront.Error

/-!
Results that may fail, taken apart: what it says about the steps that a whole computation
succeeded.
-/

namespace SqlFront

variable {ε δ α β : Type}

/-- A sequence of two steps succeeds exactly when both do. -/
@[simp]
theorem bind_eq_ok {x : Except ε α} {f : α → Except ε β} {b : β} :
    x >>= f = .ok b ↔ ∃ a, x = .ok a ∧ f a = .ok b := by
  cases x with
  | error e => simp [bind, Except.bind]
  | ok a => simp [bind, Except.bind]

@[simp]
theorem pure_eq_ok {a b : α} : (pure a : Except ε α) = .ok b ↔ a = b := by
  simp [pure, Except.pure]

@[simp]
theorem mapError_eq_ok {f : ε → δ} {x : Except ε α} {a : α} :
    x.mapError f = .ok a ↔ x = .ok a := by
  cases x <;> simp [Except.mapError]

@[simp]
theorem map_eq_ok {f : α → β} {x : Except ε α} {b : β} :
    f <$> x = .ok b ↔ ∃ a, x = .ok a ∧ f a = b := by
  cases x <;> simp [Functor.map, Except.map]

/-- A sequence of two steps fails when the first one does, or the second one after it. -/
theorem bind_eq_error {x : Except ε α} {f : α → Except ε β} {e : ε} :
    x >>= f = .error e ↔ x = .error e ∨ ∃ a, x = .ok a ∧ f a = .error e := by
  cases x with
  | error other => simp [bind, Except.bind]
  | ok a => simp [bind, Except.bind]

theorem map_eq_error {f : α → β} {x : Except ε α} {e : ε} :
    f <$> x = .error e ↔ x = .error e := by
  cases x <;> simp [Functor.map, Except.map]

theorem mapError_eq_error {f : ε → δ} {x : Except ε α} {e : δ} :
    x.mapError f = .error e ↔ ∃ cause, x = .error cause ∧ f cause = e := by
  cases x <;> simp [Except.mapError]

/-- Taking a step for each item succeeds with the results of all the steps, in order. -/
theorem forall₂_of_mapM_eq_ok {f : α → Except ε β} {items : List α} {results : List β}
    (h : items.mapM f = .ok results) :
    List.Forall₂ (fun item result => f item = .ok result) items results := by
  induction items generalizing results with
  | nil =>
    obtain rfl : [] = results := by simpa using h
    exact .nil
  | cons item items ih =>
    rw [List.mapM_cons] at h
    simp only [bind_eq_ok, pure_eq_ok] at h
    obtain ⟨first, hfirst, rest, hrest, rfl⟩ := h
    exact .cons hfirst (ih hrest)

/-- Each item on the right of a pairing has its partner on the left. -/
theorem exists_of_mem_right {R : α → β → Prop} {left : List α} {right : List β}
    (h : List.Forall₂ R left right) {b : β} (hmem : b ∈ right) : ∃ a ∈ left, R a b := by
  induction h with
  | nil => cases hmem
  | cons first rest ih =>
    rcases List.mem_cons.mp hmem with rfl | hmem
    · exact ⟨_, by simp, first⟩
    · obtain ⟨a, ha, hab⟩ := ih hmem
      exact ⟨a, by simp [ha], hab⟩

/-- What each step of a fold keeps, a fold that succeeds keeps. -/
theorem keep_of_foldlM_eq_ok {motive : β → Prop} {f : β → α → Except ε β} {items : List α}
    {b result : β}
    (step : ∀ item ∈ items, ∀ b next, f b item = .ok next → motive b → motive next)
    (h : items.foldlM f b = .ok result) (start : motive b) : motive result := by
  induction items generalizing b with
  | nil =>
    obtain rfl : b = result := by simpa using h
    exact start
  | cons item items ih =>
    rw [List.foldlM_cons, bind_eq_ok] at h
    obtain ⟨next, hnext, h⟩ := h
    obtain ⟨first, others⟩ := List.forall_mem_cons.mp step
    exact ih others h (first b next hnext start)

@[simp]
theorem reject_ne_ok {cause : SemanticCause} {a : α} : Built.reject cause ≠ .ok a := by
  simp [Built.reject]

@[simp]
theorem refuse_ne_ok {cause : UnsupportedCause} {a : α} : Built.refuse cause ≠ .ok a := by
  simp [Built.refuse]

@[simp]
theorem require_eq_ok {cause : SemanticCause} {value : Option α} {a : α} :
    Built.require cause value = .ok a ↔ value = some a := by
  cases value <;> simp [Built.require]

end SqlFront
