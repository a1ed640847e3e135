import Mathlib

/-!
# Counting References

A partial function `g` from keys to values refers to a value from as many places as there are keys
with that value. `tally g i` is this number for the value `i`. A change at one key moves it by one
at most (`tally_update`), so that an invariant which ties a counter to the tally is kept by moving
the counter with every change.
-/

namespace BoredOS.Lib.Tally

open Function Set

variable {κ ι : Type}

/-- The number of keys that refer to a value. -/
noncomputable def tally (g : κ → Option ι) (i : ι) : ℕ := ncard {k | g k = some i}

/-- Only finitely many keys have a value. -/
def FiniteSupport (g : κ → Option ι) : Prop := {k | g k ≠ none}.Finite

variable {g g' : κ → Option ι} {i j : ι} {k k' : κ}

theorem FiniteSupport.fibre (h : FiniteSupport g) (i : ι) : {k | g k = some i}.Finite := by
  apply Set.Finite.subset h
  intro k hk hnone
  have hsome : g k = some i := hk
  rw [hnone] at hsome
  cases hsome

theorem FiniteSupport.mono (h : FiniteSupport g) (hsub : ∀ k, g k = none → g' k = none) :
    FiniteSupport g' :=
  Set.Finite.subset h fun k hk hnone => hk (hsub k hnone)

theorem FiniteSupport.update [DecidableEq κ] (h : FiniteSupport g) (k : κ) (x : Option ι) :
    FiniteSupport (Function.update g k x) := by
  apply Set.Finite.subset (Set.Finite.insert k h)
  intro k' hk'
  by_cases heq : k' = k
  · exact .inl heq
  · right
    have hne : Function.update g k x k' ≠ none := hk'
    rw [update_of_ne heq] at hne
    exact hne

theorem tally_congr (h : ∀ k, g k = some i ↔ g' k = some i) : tally g i = tally g' i := by
  have hset : {k | g k = some i} = {k | g' k = some i} := ext h
  unfold tally
  rw [hset]

section

variable (h : FiniteSupport g)

include h

theorem tally_pos_iff : 0 < tally g i ↔ ∃ k, g k = some i := by
  unfold tally
  rw [ncard_pos (h.fibre i)]
  rfl

theorem tally_pos (hk : g k = some i) : 0 < tally g i :=
  (tally_pos_iff h).2 ⟨k, hk⟩

/-- A change at one key. -/
theorem tally_update [DecidableEq κ] [DecidableEq ι] (k : κ) (x : Option ι) (j : ι) :
    tally (Function.update g k x) j + (if g k = some j then 1 else 0) =
      tally g j + (if x = some j then 1 else 0) := by
  -- the keys apart from the changed one
  have hrest : ∀ y : Option ι, tally (Function.update g k y) j =
      ({k' | g k' = some j} \ {k}).ncard + (if y = some j then 1 else 0) := by
    intro y
    have hfin : ({k' | g k' = some j} \ {k}).Finite := (h.fibre j).subset sdiff_subset
    unfold tally
    split
    next hy =>
      have hset : {k' | Function.update g k y k' = some j} =
          insert k ({k' | g k' = some j} \ {k}) := by
        ext k'
        by_cases heq : k' = k
        · subst heq
          simp [hy]
        · simp [heq]
      rw [hset, ncard_insert_of_notMem (by simp) hfin]
    next hy =>
      have hset : {k' | Function.update g k y k' = some j} = {k' | g k' = some j} \ {k} := by
        ext k'
        by_cases heq : k' = k
        · subst heq
          simp [hy]
        · simp [heq]
      rw [hset, add_zero]
  have hself := hrest (g k)
  rw [update_eq_self] at hself
  rw [hrest x, hself]
  omega

theorem tally_erase_self [DecidableEq κ] (hk : g k = some i) :
    tally (Function.update g k none) i + 1 = tally g i := by
  classical
  have hupdate := tally_update h k none i
  rw [if_pos hk, if_neg (by simp)] at hupdate
  exact hupdate

end

theorem tally_mono (h : FiniteSupport g) (hsub : ∀ k, g' k = some i → g k = some i) :
    tally g' i ≤ tally g i :=
  ncard_le_ncard hsub (h.fibre i)

theorem tally_insert_self [DecidableEq κ] (h : FiniteSupport g) (hk : g k ≠ some i) :
    tally (Function.update g k (some i)) i = tally g i + 1 := by
  classical
  have hupdate := tally_update h k (some i) i
  rw [if_neg hk, if_pos rfl] at hupdate
  exact hupdate

end BoredOS.Lib.Tally
