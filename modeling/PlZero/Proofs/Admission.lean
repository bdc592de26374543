import Mathlib

/-! Items that are taken one behind the other, each of them allowed by what the ones before it lead
to. -/

namespace PlZero

/-- Each item is allowed by the state that the items before it lead to. -/
def Admits {σ α : Type} (allows : σ → α → Prop) (after : σ → α → σ) : σ → List α → Prop
  | _, [] => True
  | state, item :: rest => allows state item ∧ Admits allows after (after state item) rest

variable {σ α : Type} {allows also : σ → α → Prop} {after : σ → α → σ}

theorem admits_iff_split {state : σ} {items : List α} : Admits allows after state items ↔
    ∀ before item rest, items = before ++ item :: rest → allows (before.foldl after state) item := by
  induction items generalizing state with
  | nil => simp [Admits]
  | cons first others ih =>
      rw [Admits, ih]
      constructor
      · rintro ⟨hfirst, hothers⟩ before item rest hsplit
        cases before with
        | nil =>
            obtain ⟨rfl, -⟩ := List.cons.inj hsplit
            exact hfirst
        | cons head tail =>
            obtain ⟨rfl, htail⟩ := List.cons.inj hsplit
            exact hothers tail item rest htail
      · intro h
        refine ⟨h [] first others rfl, ?_⟩
        intro before item rest hsplit
        exact h (first :: before) item rest (by rw [hsplit]; rfl)

theorem admits_and {state : σ} {items : List α} :
    Admits (fun state item => allows state item ∧ also state item) after state items ↔
      Admits allows after state items ∧ Admits also after state items := by
  simp only [admits_iff_split]
  constructor
  · intro h
    exact ⟨fun before item rest hsplit => (h before item rest hsplit).1,
      fun before item rest hsplit => (h before item rest hsplit).2⟩
  · rintro ⟨hallows, halso⟩ before item rest hsplit
    exact ⟨hallows before item rest hsplit, halso before item rest hsplit⟩

/-- The items behind others start from the state that those lead to. -/
theorem admits_append {state : σ} {first second : List α} :
    Admits allows after state (first ++ second) ↔
      Admits allows after state first ∧ Admits allows after (first.foldl after state) second := by
  induction first generalizing state with
  | nil => simp [Admits]
  | cons item rest ih => rw [List.cons_append, Admits, Admits, ih, List.foldl_cons, and_assoc]

end PlZero
