import Mathlib

/-!
# Circular Singly Linked Lists

`Visits next p xs q` says that one passes `xs` and arrives at `q` when following `next` from `p`.
`IsRing next on` says that the nodes with `on` form one circle: from each of them one passes every
one of them once and arrives at the start.

- `IsRing.of_visits` — a circle from one node is a circle from all of them
- `IsRing.insertAfter`, `IsRing.unlink` — the two updates of such a list
- `IsRing.exists_next` — what every node of a circle has, and thus what breaks one
-/

namespace BoredOS.Lib.Ring

open List

variable {α : Type} {next next' : α → Option α} {on on' : α → Prop} {p q x : α} {xs ys : List α}

/-- Following `next` from the first node one passes the list and arrives at the last node. -/
def Visits (next : α → Option α) : α → List α → α → Prop
  | p, [], q => p = q
  | p, x :: xs, q => p = x ∧ ∃ r, next x = some r ∧ Visits next r xs q

@[simp] theorem visits_nil : Visits next p [] q ↔ p = q := .rfl

@[simp] theorem visits_cons :
    Visits next p (x :: xs) q ↔ p = x ∧ ∃ r, next x = some r ∧ Visits next r xs q := .rfl

/-- A way is walked in two parts. -/
theorem visits_append :
    Visits next p (xs ++ ys) q ↔ ∃ r, Visits next p xs r ∧ Visits next r ys q := by
  induction xs generalizing p with
  | nil => simp
  | cons x xs ih =>
    simp only [cons_append, visits_cons, ih]
    constructor
    · rintro ⟨hp, r, hr, m, hxs, hys⟩
      exact ⟨m, ⟨hp, r, hr, hxs⟩, hys⟩
    · rintro ⟨m, ⟨hp, r, hr, hxs⟩, hys⟩
      exact ⟨hp, r, hr, m, hxs, hys⟩

theorem Visits.next_last (h : Visits next p (xs ++ [x]) q) : next x = some q := by
  obtain ⟨m, -, -, r, hx, hr⟩ := visits_append.1 h
  rw [hx, show r = q from hr]

/-- Only the links of the nodes that are passed matter. -/
theorem Visits.congr (h : Visits next p xs q) (hsame : ∀ y ∈ xs, next' y = next y) :
    Visits next' p xs q := by
  induction xs generalizing p with
  | nil => exact h
  | cons x xs ih =>
    obtain ⟨hp, r, hr, hrest⟩ := h
    have hx : next' x = some r := by rw [hsame x (by simp), hr]
    exact ⟨hp, r, hx, ih hrest fun y hy => hsame y (mem_cons_of_mem x hy)⟩

theorem Visits.rotate (h : Visits next p (xs ++ x :: ys) p) : Visits next x (x :: ys ++ xs) x := by
  obtain ⟨r, hfirst, hsecond⟩ := visits_append.1 h
  obtain rfl : r = x := hsecond.1
  exact visits_append.2 ⟨p, hsecond, hfirst⟩

/-- The nodes with `on` form one circle. -/
def IsRing (next : α → Option α) (on : α → Prop) : Prop :=
  ∀ p, on p → ∃ xs, Visits next p xs p ∧ xs.Nodup ∧ ∀ q, q ∈ xs ↔ on q

namespace IsRing

/-- A circle from one node is a circle from all of them. -/
theorem of_visits (h : Visits next p xs p) (hnodup : xs.Nodup) (hmem : ∀ q, q ∈ xs ↔ on q) :
    IsRing next on := by
  intro q hq
  obtain ⟨us, vs, rfl⟩ := append_of_mem ((hmem q).2 hq)
  have hperm : (us ++ q :: vs).Perm (q :: vs ++ us) := perm_append_comm
  refine ⟨q :: vs ++ us, h.rotate, hperm.nodup_iff.1 hnodup, ?_⟩
  intro r
  rw [← hmem r, hperm.mem_iff]

/-- The circle from a node begins with that node. -/
theorem exists_cons (h : IsRing next on) (hp : on p) :
    ∃ xs, Visits next p (p :: xs) p ∧ (p :: xs).Nodup ∧ ∀ q, q ∈ p :: xs ↔ on q := by
  obtain ⟨xs, hvisits, hnodup, hmem⟩ := h p hp
  cases xs with
  | nil => exact absurd ((hmem p).2 hp) not_mem_nil
  | cons x xs =>
    obtain rfl : p = x := hvisits.1
    exact ⟨xs, hvisits, hnodup, hmem⟩

/-- Every node is followed by a node of the circle. -/
theorem exists_next (h : IsRing next on) (hp : on p) : ∃ q, next p = some q ∧ on q := by
  obtain ⟨xs, ⟨-, r, hr, hrest⟩, -, hmem⟩ := h.exists_cons hp
  refine ⟨r, hr, ?_⟩
  cases xs with
  | nil =>
    obtain rfl : r = p := hrest
    exact hp
  | cons x xs =>
    obtain rfl : r = x := hrest.1
    exact (hmem r).1 (by simp)

/-- Only the links of the nodes of the circle matter. -/
theorem congr (h : IsRing next on) (hon : ∀ q, on' q ↔ on q)
    (hsame : ∀ q, on q → next' q = next q) : IsRing next' on' := by
  intro p hp
  obtain ⟨xs, hvisits, hnodup, hmem⟩ := h p ((hon p).1 hp)
  refine ⟨xs, hvisits.congr ?_, hnodup, ?_⟩
  · intro y hy
    exact hsame y ((hmem y).1 hy)
  · intro q
    rw [hmem q, hon q]

/-- A node that is linked to itself. -/
theorem single (hx : next x = some x) (hon : ∀ q, on q ↔ q = x) : IsRing next on := by
  have hvisits : Visits next x [x] x := by simp [hx]
  apply of_visits hvisits
  · simp
  · intro q
    simp [hon q]

/-- A new node between `p` and the one after it. -/
theorem insertAfter (h : IsRing next on) (hp : on p) (hx : ¬ on x) (hpx : next' p = some x)
    (hxp : next' x = next p) (hsame : ∀ y, on y → y ≠ p → next' y = next y)
    (hon : ∀ q, on' q ↔ on q ∨ q = x) : IsRing next' on' := by
  obtain ⟨xs, ⟨-, r, hr, hrest⟩, hnodup, hmem⟩ := h.exists_cons hp
  have hnotmem : x ∉ p :: xs := fun hmemx => hx ((hmem x).1 hmemx)
  obtain ⟨hpxs, hxs⟩ := nodup_cons.1 hnodup
  -- the way from `r` back to `p` does not use the link of `p`
  have hback : Visits next' r xs p := by
    apply hrest.congr
    intro y hy
    apply hsame y ((hmem y).1 (mem_cons_of_mem p hy))
    rintro rfl
    exact hpxs hy
  have hvisits : Visits next' p (p :: x :: xs) p := by
    simp only [visits_cons, true_and]
    exact ⟨x, hpx, rfl, r, hxp.trans hr, hback⟩
  apply of_visits hvisits
  · simp only [mem_cons, not_or] at hnotmem
    simp only [nodup_cons, mem_cons, not_or]
    exact ⟨⟨Ne.symm hnotmem.1, hpxs⟩, hnotmem.2, hxs⟩
  · intro q
    rw [hon q, ← hmem q]
    simp only [mem_cons]
    tauto

/-- The node before `x` is linked to the one after it. -/
theorem unlink {b : α} (hvisits : Visits next x (x :: (ys ++ [b])) x)
    (hnodup : (x :: (ys ++ [b])).Nodup) (hmem : ∀ q, q ∈ x :: (ys ++ [b]) ↔ on q)
    (hb : next' b = next x) (hsame : ∀ y ∈ ys, next' y = next y)
    (hon : ∀ q, on' q ↔ on q ∧ q ≠ x) : IsRing next' on' := by
  obtain ⟨-, r, hr, hrest⟩ := hvisits
  obtain ⟨m, hfirst, hlast⟩ := visits_append.1 hrest
  obtain rfl : m = b := hlast.1
  obtain ⟨hxnot, hnodup'⟩ := nodup_cons.1 hnodup
  have hvisits : Visits next' r (ys ++ [m]) r := by
    apply visits_append.2
    exact ⟨m, hfirst.congr hsame, rfl, r, hb.trans hr, rfl⟩
  apply of_visits hvisits hnodup'
  intro q
  rw [hon q, ← hmem q, mem_cons]
  constructor
  · intro hq
    refine ⟨.inr hq, ?_⟩
    rintro rfl
    exact hxnot hq
  · rintro ⟨rfl | hq, hne⟩
    · exact absurd rfl hne
    · exact hq

end IsRing

end BoredOS.Lib.Ring
