import Mathlib

/-!
# Partial Maps with One Entry Replaced

Where an entry of the new map comes from.
-/

namespace BoredOS.Lib.Update

open Function

variable {α β : Type*} {f : α → Option β} {a b : α} {x : Option β} {y : β}

theorem ne_of_none (ha : f a = none) (hb : f b = some y) : b ≠ a := by
  rintro rfl
  rw [ha] at hb
  cases hb

variable [DecidableEq α]

/-- An entry is the new one or an old one. -/
theorem of_update (h : update f a x b = some y) : b = a ∧ x = some y ∨ b ≠ a ∧ f b = some y := by
  rw [update_apply] at h
  split at h
  next heq => exact .inl ⟨heq, h⟩
  next hne => exact .inr ⟨hne, h⟩

/-- An entry that is left was there before. -/
theorem of_update_none (h : update f a none b = some y) : b ≠ a ∧ f b = some y :=
  (of_update h).resolve_left fun heq => nomatch heq.2

/-- What is true of all values stays so if it is true of the new one. -/
theorem forall_update {P : β → Prop} (h : ∀ b y, f b = some y → P y) (hx : ∀ y, x = some y → P y)
    (b : α) (y : β) (hy : update f a x b = some y) : P y := by
  obtain ⟨-, heq⟩ | ⟨-, hold⟩ := of_update hy
  · exact hx y heq
  · exact h b y hold

end BoredOS.Lib.Update
