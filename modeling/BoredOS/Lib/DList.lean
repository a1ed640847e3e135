import Mathlib

/-!
# Doubly Linked Lists

`Dll next prev head xs` says that the list from `head` along `next` is `xs` and that `prev` is the
inverse of `next` on it. The links are read at every split of `xs`, so that an update of a few
links is checked at the places it touches and nowhere else.

- `Dll.remove` — the neighbours of an element are linked to each other
- `Dll.insert` — an element is linked in between two neighbours
-/

namespace BoredOS.Lib.DList

open List

variable {α : Type}

/-- The elements from `head` along `next` are `xs`, and `prev` goes back. -/
structure Dll (next prev : α → Option α) (head : Option α) (xs : List α) : Prop where
  nodup : xs.Nodup
  head_eq : head = xs.head?
  links : ∀ u x v, xs = u ++ x :: v → next x = v.head? ∧ prev x = u.getLast?

namespace Dll

variable {next prev next' prev' : α → Option α} {head head' : Option α} {u v : List α} {x : α}

theorem nil : Dll next prev none [] where
  nodup := nodup_nil
  head_eq := rfl
  links u x v h := by simp at h

variable (h : Dll next prev head (u ++ x :: v))

include h in
theorem next_eq : next x = v.head? := (h.links u x v rfl).1

include h in
theorem prev_eq : prev x = u.getLast? :=
  (h.links u x v rfl).2

/-- Only the links of the elements are looked at. -/
theorem congr {xs : List α} (h : Dll next prev head xs)
    (hlinks : ∀ x ∈ xs, next' x = next x ∧ prev' x = prev x) (hhead : head' = head) :
    Dll next' prev' head' xs where
  nodup := h.nodup
  head_eq := hhead.trans h.head_eq
  links u x v hsplit := by
    have hx : x ∈ xs := by
      rw [hsplit]
      simp
    rw [(hlinks x hx).1, (hlinks x hx).2]
    exact h.links u x v hsplit

variable {y : α}

/-- An element of `u` that is not its last one is followed by another one. -/
theorem getLast?_ne {w : List α} (hnd : (u ++ y :: w).Nodup) (hw : w ≠ []) :
    (u ++ y :: w).getLast? ≠ some y := by
  intro hEq
  obtain ⟨z, w', rfl⟩ := exists_cons_of_ne_nil hw
  have hlast : (z :: w').getLast? = some y := by
    rw [← hEq, getLast?_append, getLast?_cons_cons]
    simp [getLast?_cons]
  exact (nodup_cons.mp (nodup_append.mp hnd).2.1).1 (mem_of_getLast? hlast)

/-- The links of `u ++ v` at an element of `u`. -/
theorem split_left {u' w : List α} (hnd : (u ++ v).Nodup) (hu : u = u' ++ y :: w) :
    (w = [] → u.getLast? = some y) ∧ (w ≠ [] → u.getLast? ≠ some y) ∧ v.head? ≠ some y := by
  subst hu
  refine ⟨?_, ?_, ?_⟩
  · rintro rfl
    simp
  · exact getLast?_ne (nodup_append.mp hnd).1
  · intro hEq
    exact (nodup_append.mp hnd).2.2 y (by simp) y (mem_of_head? hEq) rfl

/-- The links of `u ++ v` at an element of `v`. -/
theorem split_right {w v' : List α} (hnd : (u ++ v).Nodup) (hv : v = w ++ y :: v') :
    (w = [] → v.head? = some y) ∧ (w ≠ [] → v.head? ≠ some y) ∧ u.getLast? ≠ some y := by
  subst hv
  refine ⟨?_, ?_, ?_⟩
  · rintro rfl
    rfl
  · intro hw hEq
    obtain ⟨z, w', rfl⟩ := exists_cons_of_ne_nil hw
    obtain rfl : z = y := by simpa using hEq
    exact (nodup_cons.mp (nodup_append.mp hnd).2.1).1 (by simp)
  · intro hEq
    exact (nodup_append.mp hnd).2.2 y (mem_of_getLast? hEq) y (by simp) rfl

/-- An element of `u ++ v` stands in `u` or in `v`. -/
theorem split_append {u' v' : List α} (h : u ++ v = u' ++ y :: v') :
    (∃ w, u = u' ++ y :: w ∧ v' = w ++ v) ∨ ∃ w, u' = u ++ w ∧ v = w ++ y :: v' := by
  rcases append_eq_append_iff.mp h with ⟨w, hu', hv⟩ | ⟨w, hu, hyv⟩
  · exact .inr ⟨w, hu', hv⟩
  · cases w with
    | nil => exact .inr ⟨[], by simpa using hu.symm, by simpa using hyv.symm⟩
    | cons z w =>
      obtain ⟨rfl, rfl⟩ : y = z ∧ v' = w ++ v := by simpa using hyv
      exact .inl ⟨w, hu, rfl⟩

/-- The elements between `u` and `v` are exchanged for others. -/
theorem splice [DecidableEq α] {m w : List α} (h : Dll next prev head (u ++ (m ++ v)))
    (hnd : (u ++ (w ++ v)).Nodup)
    (hnext : ∀ y ∈ u ++ v, next' y = if u.getLast? = some y then (w ++ v).head? else next y)
    (hprev : ∀ y ∈ u ++ v, prev' y = if v.head? = some y then (u ++ w).getLast? else prev y)
    (hmid : ∀ a y b, w = a ++ y :: b →
      next' y = (b ++ v).head? ∧ prev' y = (u ++ a).getLast?)
    (hhead : head' = (u ++ (w ++ v)).head?) : Dll next' prev' head' (u ++ (w ++ v)) := by
  have hends : (u ++ v).Nodup := h.nodup.sublist (by simp)
  refine ⟨hnd, hhead, ?_⟩
  intro u' y v' hsplit
  rcases split_append hsplit with ⟨t, hu, rfl⟩ | ⟨t, rfl, hv⟩
  · obtain ⟨hlast, hearlier, hfirst⟩ := split_left hends hu
    obtain ⟨hn, hp⟩ := h.links u' y (t ++ (m ++ v)) (by simp [hu])
    have hy : y ∈ u ++ v := by simp [hu]
    rw [hnext y hy, hprev y hy, if_neg hfirst, hp]
    refine ⟨?_, rfl⟩
    cases t with
    | nil => rw [if_pos (hlast rfl), nil_append]
    | cons z t => rw [if_neg (hearlier (cons_ne_nil z t)), hn, cons_append, cons_append, head?_cons,
        head?_cons]
  · rcases split_append hv with ⟨b, hw, rfl⟩ | ⟨c, rfl, hc⟩
    · exact hmid t y b hw
    · obtain ⟨hfirst, hlater, hlast⟩ := split_right hends hc
      obtain ⟨hn, hp⟩ := h.links (u ++ (m ++ c)) y v' (by simp [hc])
      have hy : y ∈ u ++ v := by simp [hc]
      rw [hnext y hy, hprev y hy, if_neg hlast, hn]
      refine ⟨rfl, ?_⟩
      cases c with
      | nil => rw [if_pos (hfirst rfl), append_nil]
      | cons z c =>
        rw [if_neg (hlater (cons_ne_nil z c)), hp]
        simp [getLast?_append, getLast?_cons]

include h in
/-- Taking out `x`: the element before it is linked to the element after it. -/
theorem remove [DecidableEq α]
    (hnext : ∀ y ∈ u ++ v, next' y = if u.getLast? = some y then v.head? else next y)
    (hprev : ∀ y ∈ u ++ v, prev' y = if v.head? = some y then u.getLast? else prev y)
    (hhead : head' = (u ++ v).head?) : Dll next' prev' head' (u ++ v) := by
  apply splice (m := [x]) (w := []) h (h.nodup.sublist (by simp)) hnext _ _ hhead
  · rwa [append_nil]
  · simp

/-- Linking `x` in between the last element of `u` and the first one of `v`. -/
theorem insert [DecidableEq α] (h : Dll next prev head (u ++ v)) (hx : x ∉ u ++ v)
    (hxn : next' x = v.head?) (hxp : prev' x = u.getLast?)
    (hnext : ∀ y ∈ u ++ v, next' y = if u.getLast? = some y then some x else next y)
    (hprev : ∀ y ∈ u ++ v, prev' y = if v.head? = some y then some x else prev y)
    (hhead : head' = (u ++ x :: v).head?) : Dll next' prev' head' (u ++ x :: v) := by
  have hnd : (u ++ x :: v).Nodup := by
    rw [nodup_middle]
    exact nodup_cons.mpr ⟨hx, h.nodup⟩
  apply splice (m := []) (w := [x]) h hnd hnext _ _ hhead
  · simpa using hprev
  · intro a y b hsplit
    obtain ⟨rfl, rfl, rfl⟩ : a = [] ∧ y = x ∧ b = [] := by
      cases a <;> simp_all
    rw [append_nil]
    exact ⟨hxn, hxp⟩

end Dll

end BoredOS.Lib.DList
