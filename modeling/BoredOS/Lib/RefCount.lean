import Mathlib

/-!
# Reference-Counted Objects

Objects are referred to by references of one or more kinds, each kind with a counter of its own:
`obj r` is the object of the reference `r`. A table holds the counters and which objects are
allocated. It is `Balanced` with respect to the references that are held somewhere, each so many
times, when exactly the objects with a holder are allocated and their counters are the numbers of
holders. The counters of an object that is not allocated mean nothing.
-/

namespace BoredOS.Lib.RefCount

open Function List Nat Pi

variable {ρ ο : Type} {obj : ρ → ο} [DecidableEq ρ] [DecidableEq ο]

/-- The counter of every reference and the objects that are allocated. -/
structure Table (ρ ο : Type) where
  count : ρ → Int
  alive : ο → Bool

open Table

namespace Table

/-- One more reference. -/
def addref (t : Table ρ ο) (r : ρ) : Table ρ ο :=
  { t with count := update t.count r (t.count r + 1) }

/-- One reference less. -/
def sub (t : Table ρ ο) (r : ρ) : Table ρ ο :=
  { t with count := update t.count r (t.count r - 1) }

/-- The object is given back to the allocator. -/
def free (t : Table ρ ο) (o : ο) : Table ρ ο :=
  { t with alive := update t.alive o false }

/-- A new object whose counters start at `n`. -/
def create (obj : ρ → ο) (t : Table ρ ο) (o : ο) (n : ρ → ℕ) : Table ρ ο where
  count := fun r => if obj r = o then n r else t.count r
  alive := update t.alive o true

end Table

/-- Exactly the objects with a holder are allocated, and their counters are the numbers of
holders. -/
structure Balanced (obj : ρ → ο) (t : Table ρ ο) (H : ρ → ℕ) : Prop where
  count_eq : ∀ r, t.alive (obj r) = true → t.count r = H r
  alive_iff : ∀ o, t.alive o = true ↔ ∃ r, obj r = o ∧ 0 < H r

namespace Balanced

variable {t : Table ρ ο} {H H' n : ρ → ℕ} {r : ρ} {o : ο}

section

omit [DecidableEq ρ] [DecidableEq ο]

theorem alive_of_held (h : Balanced obj t H) (hr : 0 < H r) : t.alive (obj r) = true :=
  (h.alive_iff (obj r)).2 ⟨r, rfl, hr⟩

theorem eq_zero_of_not_alive (h : Balanced obj t H) (hr : t.alive (obj r) = false) : H r = 0 := by
  by_contra hne
  have halive := h.alive_of_held (Nat.pos_of_ne_zero hne)
  rw [hr] at halive
  cases halive

/-- What is held is determined by the table. -/
theorem holders_eq (h : Balanced obj t H) (h' : Balanced obj t H') : H = H' := by
  funext r
  cases halive : t.alive (obj r) with
  | true =>
    have heq : (H r : Int) = H' r := by rw [← h.count_eq r halive, h'.count_eq r halive]
    exact Int.ofNat.inj heq
  | false => rw [h.eq_zero_of_not_alive halive, h'.eq_zero_of_not_alive halive]

end

omit [DecidableEq ο] in
/-- A reference to an allocated object is taken once more. -/
theorem addref (h : Balanced obj t H) (hr : t.alive (obj r) = true) :
    Balanced obj (t.addref r) (H + single r 1) where
  count_eq := by
    intro q hq
    have hcount := h.count_eq q hq
    by_cases hqr : q = r
    · subst hqr
      simp [addref, hcount]
    · simp [Table.addref, hqr, hcount]
  alive_iff := by
    intro o
    rw [show (t.addref r).alive = t.alive from rfl, h.alive_iff o]
    constructor
    · rintro ⟨q, hq, hpos⟩
      exact ⟨q, hq, lt_of_lt_of_le hpos (le_add_right _ _)⟩
    · rintro ⟨q, rfl, hpos⟩
      by_cases hqr : q = r
      · subst hqr
        exact (h.alive_iff (obj q)).1 hr
      · refine ⟨q, rfl, ?_⟩
        simpa [hqr] using hpos

omit [DecidableEq ο] in
/-- A reference is given back while the object is held by another one. -/
theorem sub_of_held (h : Balanced obj t (H + single r 1))
    (hheld : ∃ q, obj q = obj r ∧ 0 < H q) : Balanced obj (t.sub r) H where
  count_eq := by
    intro q hq
    have hcount := h.count_eq q hq
    by_cases hqr : q = r
    · subst hqr
      simp only [Pi.add_apply, single_eq_same, cast_add, cast_one] at hcount
      simp [sub, hcount]
    · simpa [sub, hqr] using hcount
  alive_iff := by
    intro o
    rw [show (t.sub r).alive = t.alive from rfl, h.alive_iff o]
    constructor
    · rintro ⟨q, rfl, hpos⟩
      by_cases hqr : q = r
      · subst hqr
        exact hheld
      · refine ⟨q, rfl, ?_⟩
        simpa [hqr] using hpos
    · rintro ⟨q, hq, hpos⟩
      exact ⟨q, hq, lt_of_lt_of_le hpos (le_add_right _ _)⟩

omit [DecidableEq ρ] in
/-- An object is freed when everything that is held refers to other ones. -/
theorem free (h : Balanced obj t (H + n)) (hnone : ∀ q, obj q = o → H q = 0)
    (hn : ∀ q, obj q ≠ o → n q = 0) : Balanced obj (t.free o) H where
  count_eq := by
    intro q hq
    have hqo : obj q ≠ o := by
      rintro rfl
      simp [free] at hq
    have halive : t.alive (obj q) = true := by simpa [Table.free, hqo] using hq
    simpa [Table.free, hn q hqo] using h.count_eq q halive
  alive_iff := by
    intro o'
    by_cases ho : o' = o
    · subst ho
      simp only [free, update_self, Bool.false_eq_true, false_iff]
      rintro ⟨q, hq, hpos⟩
      rw [hnone q hq] at hpos
      exact lt_irrefl 0 hpos
    · simp only [Table.free, update_of_ne ho, h.alive_iff o']
      apply exists_congr
      intro q
      apply and_congr_right
      rintro rfl
      simp [hn q ho]

/-- The last reference to an object is given back. -/
theorem sub_free (h : Balanced obj t (H + single r 1)) (hlast : ∀ q, obj q = obj r → H q = 0) :
    Balanced obj ((t.sub r).free (obj r)) H := by
  have hfree : Balanced obj (t.free (obj r)) H := by
    apply h.free hlast
    intro q hq
    apply single_eq_of_ne
    rintro rfl
    exact hq rfl
  refine ⟨?_, hfree.alive_iff⟩
  intro q hq
  have hqr : q ≠ r := by
    rintro rfl
    simp [Table.free] at hq
  have hcount : ((t.sub r).free (obj r)).count q = t.count q := by simp [Table.free, Table.sub, hqr]
  rw [hcount]
  exact hfree.count_eq q hq

omit [DecidableEq ρ] in
/-- An object that was not held is allocated with its first references. -/
theorem create (h : Balanced obj t H) (hfresh : ∀ q, obj q = o → H q = 0)
    (hn : ∀ q, obj q ≠ o → n q = 0) (hheld : ∃ q, obj q = o ∧ 0 < n q) :
    Balanced obj (.create obj t o n) (H + n) where
  count_eq := by
    intro q hq
    by_cases hqo : obj q = o
    · simp [Table.create, hqo, hfresh q hqo]
    · have halive : t.alive (obj q) = true := by simpa [Table.create, hqo] using hq
      simp [Table.create, hqo, hn q hqo, h.count_eq q halive]
  alive_iff := by
    intro o'
    by_cases ho : o' = o
    · subst ho
      obtain ⟨q, hq, hpos⟩ := hheld
      simp only [create, update_self, true_iff]
      exact ⟨q, hq, lt_of_lt_of_le hpos (le_add_left _ _)⟩
    · simp only [Table.create, update_of_ne ho, h.alive_iff o']
      apply exists_congr
      intro q
      apply and_congr_right
      rintro rfl
      simp [hn q ho]

end Balanced

/-! ## Counting holders -/

variable {ι β M : Type} [AddCommMonoid M]

/-- Exchanging one entry of a finite table exchanges its part of a sum. -/
theorem sum_update [Fintype ι] [DecidableEq ι] (g : β → M) (f : ι → β) (i : ι) (b : β) :
    (∑ j, g (update f i b j)) + g (f i) = (∑ j, g (f j)) + g b := by
  rw [Fintype.sum_eq_add_sum_compl i, Fintype.sum_eq_add_sum_compl i fun j => g (f j)]
  have hrest : ∑ j ∈ {i}ᶜ, g (update f i b j) = ∑ j ∈ {i}ᶜ, g (f j) := by
    apply Finset.sum_congr rfl
    intro j hj
    rw [update_of_ne (by simpa using hj)]
  rw [hrest, update_self]
  abel

/-- Exchanging one entry of a list exchanges its part of a sum. -/
theorem sum_map_set (g : β → M) {l : List β} {i : ℕ} {a : β} (b : β) (h : l[i]? = some a) :
    ((l.set i b).map g).sum + g a = (l.map g).sum + g b := by
  induction l generalizing i with
  | nil => cases h
  | cons x l ih =>
    cases i with
    | zero =>
      obtain rfl : x = a := Option.some.inj h
      simp only [set_cons_zero, map_cons, sum_cons]
      abel
    | succ =>
      simp only [set_cons_succ, map_cons, sum_cons, add_assoc, ih h]

end BoredOS.Lib.RefCount
