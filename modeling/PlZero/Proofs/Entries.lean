import Mathlib

/-! Lists of entries that are found by their keys: the first entry with a key counts. -/

namespace PlZero.Entries

variable {κ β : Type} [BEq κ] [LawfulBEq κ] (entries : List (κ × β))

theorem lookup_filter_self (key : κ) :
    (entries.filter fun entry => entry.1 != key).lookup key = none := by
  rw [List.lookup_eq_none_iff]
  intro entry hentry
  have hne := (List.mem_filter.mp hentry).2
  rw [bne_iff_ne] at hne
  exact bne_iff_ne.mpr hne.symm

theorem lookup_filter_ne {key other : κ} (h : other ≠ key) :
    (entries.filter fun entry => entry.1 != key).lookup other = entries.lookup other := by
  induction entries with
  | nil => rfl
  | cons entry rest ih =>
      obtain ⟨found, value⟩ := entry
      by_cases hfound : found = key
      · have hother : (other == found) = false := beq_false_of_ne (hfound ▸ h)
        rw [List.filter_cons_of_neg (by simp [hfound]), ih, List.lookup_cons, hother]
      · rw [List.filter_cons_of_pos (by simp [hfound]), List.lookup_cons, List.lookup_cons, ih]

theorem lookup_filter [DecidableEq κ] (key other : κ) :
    (entries.filter fun entry => entry.1 != key).lookup other =
      if other = key then none else entries.lookup other := by
  split_ifs with h
  · rw [h, lookup_filter_self]
  · exact lookup_filter_ne entries h

/-- An entry in place of those with its key. -/
theorem lookup_replace [DecidableEq κ] (key other : κ) (value : β) :
    ((key, value) :: entries.filter fun entry => entry.1 != key).lookup other =
      if other = key then some value else entries.lookup other := by
  rw [List.lookup_cons]
  split_ifs with h
  · rw [h, BEq.rfl]
  · rw [beq_false_of_ne h]
    exact lookup_filter_ne entries h

end PlZero.Entries
