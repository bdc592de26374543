import Mathlib

/-! Attempts one after the other: what it takes for a chain of computations that may fail to succeed. -/

namespace PlZero.Attempt

variable {ε α β : Type}

@[simp] theorem ok_bind (value : α) (next : α → Except ε β) :
    (Except.ok value >>= next) = next value := rfl

@[simp] theorem error_bind (cause : ε) (next : α → Except ε β) :
    ((Except.error cause : Except ε α) >>= next) = .error cause := rfl

theorem bind_eq_ok_iff {attempt : Except ε α} {next : α → Except ε β} {result : β} :
    (attempt >>= next) = .ok result ↔ ∃ value, attempt = .ok value ∧ next value = .ok result := by
  cases attempt with
  | error cause => simp
  | ok value => simp

theorem bind_eq_error_iff {attempt : Except ε α} {next : α → Except ε β} {cause : ε} :
    (attempt >>= next) = .error cause ↔
      attempt = .error cause ∨ ∃ value, attempt = .ok value ∧ next value = .error cause := by
  cases attempt with
  | error other => simp
  | ok value => simp

theorem map_eq_ok_iff {attempt : Except ε α} {change : α → β} {result : β} :
    attempt.map change = .ok result ↔ ∃ value, attempt = .ok value ∧ change value = result := by
  cases attempt with
  | error cause => simp [Except.map]
  | ok value => simp [Except.map]

theorem mapError_eq_ok_iff {δ : Type} {attempt : Except ε α} {change : ε → δ} {result : α} :
    attempt.mapError change = .ok result ↔ attempt = .ok result := by
  cases attempt with
  | error cause => simp [Except.mapError]
  | ok value => simp [Except.mapError]

theorem map_eq_error_iff {attempt : Except ε α} {change : α → β} {cause : ε} :
    attempt.map change = .error cause ↔ attempt = .error cause := by
  cases attempt with
  | error other => simp [Except.map]
  | ok value => simp [Except.map]

/-! ### Two attempts side by side -/

/-- Two attempts that succeed together or fail together. -/
inductive Agree {ε δ α β : Type} (bad : ε → δ → Prop) (good : α → β → Prop) :
    Except ε α → Except δ β → Prop where
  | ok {left : α} {right : β} (h : good left right) : Agree bad good (.ok left) (.ok right)
  | error {left : ε} {right : δ} (h : bad left right) : Agree bad good (.error left) (.error right)

section Agree

variable {δ γ φ : Type} {bad : ε → δ → Prop} {first : Except ε α} {second : Except δ β}

theorem Agree.bind {good : α → β → Prop} {good' : γ → φ → Prop} (h : Agree bad good first second)
    {next : α → Except ε γ} {next' : β → Except δ φ}
    (hnext : ∀ left right, good left right → Agree bad good' (next left) (next' right)) :
    Agree bad good' (first >>= next) (second >>= next') := by
  cases h with
  | ok h => exact hnext _ _ h
  | error h => exact .error h

theorem Agree.mono {bad' : ε → δ → Prop} {good good' : α → β → Prop}
    (h : Agree bad good first second) (hbad : ∀ left right, bad left right → bad' left right)
    (hgood : ∀ left right, good left right → good' left right) : Agree bad' good' first second := by
  cases h with
  | ok h => exact .ok (hgood _ _ h)
  | error h => exact .error (hbad _ _ h)

theorem Agree.eq_ok_iff {second : Except δ α} (h : Agree bad Eq first second) {value : α} :
    first = .ok value ↔ second = .ok value := by
  cases h with
  | ok h => rw [h, Except.ok.injEq, Except.ok.injEq]
  | error h => exact ⟨nofun, nofun⟩

/-- What the first attempt says of its result may be used along with the agreement. -/
theorem Agree.and_of_ok {good : α → β → Prop} (h : Agree bad good first second) {holds : α → Prop}
    (hfirst : ∀ left, first = .ok left → holds left) :
    Agree bad (fun left right => good left right ∧ holds left) first second := by
  cases h with
  | ok h => exact .ok ⟨h, hfirst _ rfl⟩
  | error h => exact .error h

theorem agree_map_iff {good : γ → φ → Prop} {change : α → γ} {change' : β → φ} :
    Agree bad good (first.map change) (second.map change') ↔
      Agree bad (fun left right => good (change left) (change' right)) first second := by
  constructor
  · intro h
    cases first with
    | ok left =>
        cases second with
        | ok right =>
            cases h with
            | ok h => exact .ok h
        | error cause => cases h
    | error cause =>
        cases second with
        | ok right => cases h
        | error other =>
            cases h with
            | error h => exact .error h
  · intro h
    cases h with
    | ok h => exact .ok h
    | error h => exact .error h

end Agree

end PlZero.Attempt
