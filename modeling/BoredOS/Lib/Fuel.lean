import Mathlib

/-!
# Functions with Fuel

A function with fuel returns `none` when the fuel runs out. `Gives o o'` is the order of such
results, and every way to put functions together keeps it; a function whose results only grow with
the fuel has one result.
-/

namespace BoredOS.Lib.Fuel

open Option

variable {α β : Type} {o o' p p' : Option α}

/-- What the first returns the second returns as well. -/
structure Gives (o o' : Option α) : Prop where
  out : ∀ a, o = some a → o' = some a

theorem Gives.refl (o : Option α) : Gives o o := ⟨fun _ h => h⟩

theorem Gives.of_none (o : Option α) : Gives none o := ⟨fun _ h => nomatch h⟩

theorem Gives.bind {f g : α → Option β} (h : Gives o o') (hrest : ∀ a, Gives (f a) (g a)) :
    Gives (o >>= f) (o' >>= g) := by
  refine ⟨fun b hb => ?_⟩
  obtain ⟨a, ha, hfa⟩ := bind_eq_some_iff.1 hb
  rw [h.out a ha]
  exact (hrest a).out b hfa

theorem Gives.map (f : α → β) (h : Gives o o') : Gives (o.map f) (o'.map f) := by
  refine ⟨fun b hb => ?_⟩
  obtain ⟨a, ha, hfa⟩ := map_eq_some_iff.1 hb
  rw [h.out a ha, map_some, hfa]

theorem Gives.ite {c : Prop} [Decidable c] (ht : Gives o o') (he : Gives p p') :
    Gives (if c then o else p) (if c then o' else p') := by
  split
  · exact ht
  · exact he

/-- Fuel does not change a result. -/
theorem unique {f : Nat → Option α} (h : ∀ n, Gives (f n) (f (n + 1))) {m n : Nat} {a b : α}
    (ha : f m = some a) (hb : f n = some b) : a = b := by
  have more : ∀ {m k a}, f m = some a → f (m + k) = some a := by
    intro m k a ha
    induction k with
    | zero => exact ha
    | succ k ih => exact (h (m + k)).out a ih
  have ha' := more (k := n) ha
  rw [Nat.add_comm, more hb] at ha'
  exact (some.inj ha').symm

end BoredOS.Lib.Fuel
