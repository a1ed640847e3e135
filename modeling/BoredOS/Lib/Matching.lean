import Mathlib

/-!
# Symmetric Links

A partial function that links elements in pairs: whoever is linked to `b` is the one that `b` is
linked to. Pairs are made of elements without a link and are taken apart as a whole.
-/

namespace BoredOS.Lib.Matching

open Function

variable {α : Type} {p : α → Option α} {a b : α}

/-- Every link goes both ways. -/
def Paired (p : α → Option α) : Prop := ∀ a b, p a = some b → p b = some a

/-- Nobody is linked to an element without a link. -/
theorem Paired.not_target (h : Paired p) (hb : p b = none) (a : α) : p a ≠ some b := by
  intro hab
  rw [h a b hab] at hb
  cases hb

variable [DecidableEq α]

theorem Paired.join (h : Paired p) (ha : p a = none) (hb : p b = none) :
    Paired (update (update p a (some b)) b (some a)) := by
  intro x y hxy
  simp only [update_apply] at hxy ⊢
  split at hxy
  next hx =>
    cases hxy
    split
    next hab => rw [hx, hab]
    next => rw [if_pos rfl, hx]
  next =>
    split at hxy
    next hxa =>
      cases hxy
      rw [if_pos rfl, hxa]
    next =>
      -- an old link, which ends neither in `a` nor in `b`
      have hyb : y ≠ b := by
        rintro rfl
        exact h.not_target hb x hxy
      have hya : y ≠ a := by
        rintro rfl
        exact h.not_target ha x hxy
      rw [if_neg hyb, if_neg hya]
      exact h x y hxy

theorem Paired.part (h : Paired p) (hab : p a = some b) :
    Paired (update (update p a none) b none) := by
  intro x y hxy
  simp only [update_apply] at hxy ⊢
  split at hxy
  next => cases hxy
  next hx =>
    split at hxy
    next => cases hxy
    next hxa =>
      have hyb : y ≠ b := by
        rintro rfl
        have hback := h a y hab
        rw [h x y hxy] at hback
        exact hxa (Option.some.inj hback)
      have hya : y ≠ a := by
        rintro rfl
        have hback := h x y hxy
        rw [hab] at hback
        exact hx (Option.some.inj hback).symm
      rw [if_neg hyb, if_neg hya]
      exact h x y hxy

end BoredOS.Lib.Matching
