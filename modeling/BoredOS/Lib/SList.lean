import Mathlib

/-!
# Singly Linked Lists

`Slist next head xs` says that the list from `head` along `next` ends and is `xs`. A list in memory
is at most one (`Slist.unique`). An element is put in front (`Slist.push`), and an element behind
another one is taken out by a store into the link of the one before it (`Slist.unlink`).

`takeOut ok n xs` is what is left of a list when the first `n` elements with a property are taken
out of it.
-/

namespace BoredOS.Lib.SList

open Function List

variable {α : Type}

/-- The elements from `head` along `next`. -/
def Slist (next : α → Option α) : Option α → List α → Prop
  | head, [] => head = none
  | head, x :: xs => head = some x ∧ Slist next (next x) xs

namespace Slist

variable {next next' : α → Option α} {head : Option α} {x k : α} {xs ys ks : List α}

theorem head_eq (h : Slist next head xs) : head = xs.head? := by
  cases xs with
  | nil => exact h
  | cons => exact h.1

theorem unique (h : Slist next head xs) (h' : Slist next head ys) : xs = ys := by
  induction xs generalizing head ys with
  | nil =>
    cases ys with
    | nil => rfl
    | cons => exact absurd (h.symm.trans h'.1) (by simp)
  | cons x xs ih =>
    cases ys with
    | nil => exact absurd (h'.symm.trans h.1) (by simp)
    | cons =>
      obtain rfl := Option.some.inj (h.1.symm.trans h'.1)
      rw [ih h.2 h'.2]

theorem next_eq (h : Slist next head (ks ++ x :: xs)) : next x = xs.head? := by
  induction ks generalizing head with
  | nil => exact h.2.head_eq
  | cons k ks ih => exact ih h.2

/-- Only the links of the elements are looked at. -/
theorem congr (h : Slist next head xs) (hlinks : ∀ x ∈ xs, next' x = next x) :
    Slist next' head xs := by
  induction xs generalizing head with
  | nil => exact h
  | cons x xs ih =>
    refine ⟨h.1, ?_⟩
    rw [hlinks x (by simp)]
    exact ih h.2 fun y hy => hlinks y (by simp [hy])

variable [DecidableEq α]

/-- A new first element. -/
theorem push (h : Slist next head xs) (hx : x ∉ xs) :
    Slist (update next x head) (some x) (x :: xs) := by
  refine ⟨rfl, ?_⟩
  rw [update_self]
  refine h.congr fun y hy => update_of_ne ?_ _ _
  rintro rfl
  exact hx hy

/-- The element behind `k` is taken out. -/
theorem unlink (h : Slist next head (ks ++ x :: xs)) (hnd : (ks ++ x :: xs).Nodup)
    (hlast : ks.getLast? = some k) : Slist (update next k (next x)) head (ks ++ xs) := by
  induction ks generalizing head with
  | nil => simp at hlast
  | cons y ks ih =>
    rw [cons_append, nodup_cons] at hnd
    refine ⟨h.1, ?_⟩
    cases ks with
    | nil =>
      -- the element before is the first one, and its link is the one that changes
      obtain rfl : y = k := by simpa using hlast
      rw [update_self]
      have hrest : Slist next (next y) (x :: xs) := h.2
      refine hrest.2.congr fun z hz => update_of_ne ?_ _ _
      rintro rfl
      exact hnd.1 (by simp [hz])
    | cons z ks =>
      have hk : (z :: ks).getLast? = some k := by simpa using hlast
      have hne : y ≠ k := by
        rintro rfl
        have hmem : y ∈ z :: ks := mem_of_getLast? hk
        exact hnd.1 (mem_append_left _ hmem)
      rw [update_of_ne hne]
      exact ih h.2 hnd.2 hk

end Slist

/-! ## Taking elements out -/

/-- The list without its first `n` elements with the property. -/
def takeOut (ok : α → Bool) : ℕ → List α → List α
  | 0, xs => xs
  | _ + 1, [] => []
  | n + 1, x :: xs => if ok x = true then takeOut ok n xs else x :: takeOut ok (n + 1) xs

/-- The elements that are taken out. -/
def taken (ok : α → Bool) (n : ℕ) (xs : List α) : List α := (xs.filter ok).take n

variable {ok : α → Bool} {n : ℕ} {x : α} {xs : List α}

@[simp] theorem taken_zero : taken ok 0 xs = [] := rfl

@[simp] theorem taken_nil : taken ok n [] = [] := by simp [taken]

theorem taken_cons_pos (hx : ok x = true) : taken ok (n + 1) (x :: xs) = x :: taken ok n xs := by
  simp [taken, hx]

theorem taken_cons_neg (hx : ok x = false) : taken ok n (x :: xs) = taken ok n xs := by
  simp [taken, hx]

theorem mem_of_mem_taken (h : x ∈ taken ok n xs) : x ∈ xs ∧ ok x = true :=
  mem_filter.1 (mem_of_mem_take h)

/-- What is left and what is taken out make up the list. -/
theorem perm_takeOut (ok : α → Bool) (n : ℕ) (xs : List α) :
    (taken ok n xs ++ takeOut ok n xs).Perm xs := by
  fun_induction takeOut ok n xs with
  | case1 xs => simp
  | case2 n => simp
  | case3 n x xs hx ih =>
    rw [taken_cons_pos hx]
    exact ih.cons x
  | case4 n x xs hx ih =>
    rw [taken_cons_neg (by simpa using hx)]
    exact perm_middle.trans (ih.cons x)

/-- With a list without repetitions, an element is left exactly if it is not taken out. -/
theorem mem_takeOut (hnd : xs.Nodup) : x ∈ takeOut ok n xs ↔ x ∈ xs ∧ x ∉ taken ok n xs := by
  have hperm := perm_takeOut ok n xs
  have hboth := hperm.nodup_iff.2 hnd
  constructor
  · intro hx
    refine ⟨hperm.mem_iff.1 (mem_append_right _ hx), fun htaken => ?_⟩
    exact (disjoint_of_nodup_append hboth) htaken hx
  · rintro ⟨hx, htaken⟩
    exact (mem_append.1 (hperm.mem_iff.2 hx)).resolve_left htaken

theorem nodup_takeOut (hnd : xs.Nodup) : (takeOut ok n xs).Nodup :=
  (nodup_append.1 ((perm_takeOut ok n xs).nodup_iff.2 hnd)).2.1

theorem nodup_taken (hnd : xs.Nodup) : (taken ok n xs).Nodup :=
  (nodup_append.1 ((perm_takeOut ok n xs).nodup_iff.2 hnd)).1

/-- All elements that are taken out have a property exactly if every element that could be taken and
does not have it stands behind `n` others. -/
theorem forall_taken_iff {P : α → Prop} : (∀ x ∈ taken ok n xs, P x) ↔
    ∀ front x rest, xs = front ++ x :: rest → ok x = true → ¬ P x →
      n ≤ (front.filter ok).length := by
  induction xs generalizing n with
  | nil => simp
  | cons y ys ih =>
    -- `y` itself, or an element behind it
    have hsplit : (∀ front x rest, y :: ys = front ++ x :: rest → ok x = true → ¬ P x →
        n ≤ (front.filter ok).length) ↔
        (ok y = true → ¬ P y → n = 0) ∧ ∀ front x rest, ys = front ++ x :: rest → ok x = true →
          ¬ P x → n ≤ ((y :: front).filter ok).length := by
      constructor
      · intro h
        refine ⟨fun hy hP => by simpa using h [] y ys rfl hy hP, fun front x rest heq => ?_⟩
        exact h (y :: front) x rest (by simp [heq])
      · rintro ⟨hy, hrest⟩ front x rest heq
        cases front with
        | nil =>
          obtain ⟨rfl, rfl⟩ : y = x ∧ ys = rest := by simpa using heq
          simpa using hy
        | cons z front =>
          obtain ⟨rfl, hys⟩ : y = z ∧ ys = front ++ x :: rest := by simpa using heq
          exact hrest front x rest hys
    rw [hsplit]
    cases hy : ok y with
    | false => simp [taken_cons_neg hy, ih, hy]
    | true =>
      cases n with
      | zero => simp
      | succ =>
        rw [taken_cons_pos hy, forall_mem_cons, ih]
        simp [hy]

variable {P : α → Bool} (hP : ∀ x ∈ xs, P x = true → ok x = true)
  (h : ∀ x ∈ taken ok n xs, P x = true)

include hP h

/-- If only elements with a stronger property are taken out, they are the first ones that have
it. -/
theorem filter_eq_taken_append :
    xs.filter P = taken ok n xs ++ ((xs.filter ok).drop n).filter P := by
  have hsub : xs.filter P = (xs.filter ok).filter P := by
    rw [filter_filter]
    refine filter_congr fun x hx => ?_
    cases hx' : P x with
    | false => rfl
    | true => simp [hP x hx hx']
  have htaken : ((xs.filter ok).take n).filter P = taken ok n xs := filter_eq_self.2 h
  calc xs.filter P = ((xs.filter ok).take n ++ (xs.filter ok).drop n).filter P := by
        rw [take_append_drop, hsub]
    _ = taken ok n xs ++ ((xs.filter ok).drop n).filter P := by
        rw [filter_append, htaken]

/-- They are as many as there are, or as many as are asked for. -/
theorem length_taken : (taken ok n xs).length = min n (xs.filter P).length := by
  have hlen := congrArg List.length (filter_eq_taken_append hP h)
  rw [length_append] at hlen
  rw [hlen, taken, length_take]
  by_cases hn : n ≤ (xs.filter ok).length
  · omega
  · have hnil : (xs.filter ok).drop n = [] := drop_eq_nil_of_le (by omega)
    rw [hnil, filter_nil, length_nil]
    omega

/-- If there are not more than are asked for, all are taken out. -/
theorem mem_taken_iff (hle : (xs.filter P).length ≤ n) :
    x ∈ taken ok n xs ↔ x ∈ xs ∧ P x = true := by
  have hcut := filter_eq_taken_append hP h
  have hlen := congrArg List.length hcut
  rw [length_append, length_taken hP h, Nat.min_eq_right hle] at hlen
  have hnil : ((xs.filter ok).drop n).filter P = [] := length_eq_zero_iff.1 (by omega)
  rw [hnil, append_nil] at hcut
  rw [← hcut, mem_filter]

end BoredOS.Lib.SList
