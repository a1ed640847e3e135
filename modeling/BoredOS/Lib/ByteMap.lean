import Mathlib

/-!
# Unbounded Byte Maps

A sparse array is a function on all offsets. `slice` reads a stretch of it and `put` stores one;
both can be taken apart where a piece ends, which is what a loop over pieces needs.
-/

namespace BoredOS.Lib.ByteMap

open List Option

variable {β : Type}

/-- The `n` values from `pos` on. -/
def slice (f : ℕ → β) (pos n : ℕ) : List β := (List.range n).map fun i => f (pos + i)

/-- The values `data` are stored from `pos` on. -/
def put (f : ℕ → β) (pos : ℕ) (data : List β) : ℕ → β :=
  fun i => if pos ≤ i then (data[i - pos]?).getD (f i) else f i

variable (f : ℕ → β)

@[simp] theorem length_slice (pos n : ℕ) : (slice f pos n).length = n := by
  simp [slice]

theorem slice_add (pos m n : ℕ) : slice f pos (m + n) = slice f pos m ++ slice f (pos + m) n := by
  simp [slice, range_add, Nat.add_assoc]

theorem slice_congr {f g : ℕ → β} {pos pos' n : ℕ} (h : ∀ k < n, f (pos + k) = g (pos' + k)) :
    slice f pos n = slice g pos' n := by
  apply map_congr_left
  intro k hk
  exact h k (mem_range.1 hk)

@[simp] theorem put_nil (pos : ℕ) : put f pos [] = f := by
  funext i
  simp [put]

theorem put_outside {pos i : ℕ} {data : List β}
    (h : i < pos ∨ pos + data.length ≤ i) : put f pos data i = f i := by
  unfold put
  split
  · rw [getElem?_eq_none (by omega), getD_none]
  · rfl

/-- The stored value does not depend on what was there. -/
theorem put_inside (f g : ℕ → β) {pos pos' i i' : ℕ} {data : List β} (hlo : pos ≤ i)
    (hhi : i < pos + data.length) (hlo' : pos' ≤ i') (hsame : i' - pos' = i - pos) :
    put f pos data i = put g pos' data i' := by
  unfold put
  have hlt : i - pos < data.length := by omega
  rw [if_pos hlo, if_pos hlo', hsame, getElem?_eq_getElem hlt, getD_some, getD_some]

theorem put_append (pos : ℕ) (xs ys : List β) :
    put f pos (xs ++ ys) = put (put f pos xs) (pos + xs.length) ys := by
  funext i
  unfold put
  by_cases hlow : pos ≤ i
  · by_cases hin : i < pos + xs.length
    · -- the first piece holds the offset and the second one starts behind it
      rw [if_pos hlow, if_pos hlow, if_neg (by omega), getElem?_append_left (by omega)]
    · rw [if_pos hlow, if_pos hlow, if_pos (by omega), getElem?_append_right (by omega),
        getElem?_eq_none (l := xs) (by omega), getD_none,
        show i - pos - xs.length = i - (pos + xs.length) by omega]
  · rw [if_neg hlow, if_neg hlow, if_neg (by omega)]

end BoredOS.Lib.ByteMap
