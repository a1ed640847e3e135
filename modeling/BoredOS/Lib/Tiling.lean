import Mathlib

/-!
# Tilings and Dyadic Blocks

`Tiles extent P U` says that the parts in `P` are pairwise disjoint and that together they are `U`.
Moving, splitting and merging parts are all instances of `Tiles.exchange`, which replaces some parts
by others that tile the same elements.

A dyadic block of order `o` is `2 ^ o` numbers from a multiple of `2 ^ o` on. Two of them are nested
or disjoint; a block and its buddy are the two halves of a block of the next order.
-/

namespace BoredOS.Lib.Tiling

open Nat

/-! ## Tilings -/

section

variable {ι α : Type} {extent : ι → Set α} {P Q R : Set ι} {U : Set α} {a b c : ι}

/-- The parts in `P` are pairwise disjoint and cover exactly `U`. -/
structure Tiles (extent : ι → Set α) (P : Set ι) (U : Set α) : Prop where
  disj : ∀ a ∈ P, ∀ b ∈ P, ∀ u ∈ extent a, u ∈ extent b → a = b
  cover : ∀ u, u ∈ U ↔ ∃ a ∈ P, u ∈ extent a

namespace Tiles

theorem empty : Tiles extent ∅ ∅ :=
  ⟨fun _ ha => False.elim ha, fun _ => ⟨False.elim, fun ⟨_, ha, _⟩ => ha⟩⟩

theorem mem (h : Tiles extent P U) (ha : a ∈ P) {u : α} (hu : u ∈ extent a) : u ∈ U :=
  (h.cover u).2 ⟨a, ha, hu⟩

/-- Every element of `U` lies in exactly one part. -/
theorem existsUnique (h : Tiles extent P U) {u : α} (hu : u ∈ U) : ∃! a, a ∈ P ∧ u ∈ extent a := by
  obtain ⟨a, ha, hua⟩ := (h.cover u).1 hu
  refine ⟨a, ⟨ha, hua⟩, ?_⟩
  rintro b ⟨hb, hub⟩
  exact h.disj b hb a ha u hub hua

theorem congr (h : Tiles extent P U) (hP : ∀ a, a ∈ Q ↔ a ∈ P) : Tiles extent Q U := by
  have heq : Q = P := Set.ext hP
  rwa [heq]

theorem single (a : ι) : Tiles extent {a} (extent a) := by
  refine ⟨?_, ?_⟩
  · rintro x rfl y rfl _ _ _
    rfl
  · intro u
    simp

section

variable (h : Tiles extent P U)

include h

/-- Parts are replaced by others that tile the same elements. -/
theorem exchange (hR : ∀ a ∈ R, a ∈ P) (hQ : Tiles extent Q {u | ∃ a ∈ R, u ∈ extent a}) :
    Tiles extent {a | (a ∈ P ∧ a ∉ R) ∨ a ∈ Q} U := by
  -- a part that stays shares nothing with a new one
  have hapart : ∀ a b u, a ∈ P ∧ a ∉ R → b ∈ Q → u ∈ extent a → u ∉ extent b := by
    intro a b u ha hb hua hub
    obtain ⟨c, hc, huc⟩ := hQ.mem hb hub
    have heq := h.disj a ha.1 c (hR c hc) u hua huc
    exact ha.2 (heq ▸ hc)
  refine ⟨?_, ?_⟩
  · rintro x (hx | hx) y (hy | hy) u hux huy
    · exact h.disj x hx.1 y hy.1 u hux huy
    · exact absurd huy (hapart x y u hx hy hux)
    · exact absurd hux (hapart y x u hy hx huy)
    · exact hQ.disj x hx y hy u hux huy
  · intro u
    rw [h.cover]
    constructor
    · rintro ⟨a, ha, hua⟩
      by_cases haR : a ∈ R
      · obtain ⟨b, hb, hub⟩ := (hQ.cover u).1 ⟨a, haR, hua⟩
        exact ⟨b, .inr hb, hub⟩
      · exact ⟨a, .inl ⟨ha, haR⟩, hua⟩
    · rintro ⟨a, ha | ha, hua⟩
      · exact ⟨a, ha.1, hua⟩
      · obtain ⟨c, hc, huc⟩ := hQ.mem ha hua
        exact ⟨c, hR c hc, huc⟩

/-- One part takes the place of another with the same elements. -/
theorem rename (ha : a ∈ P) (hext : extent b = extent a) :
    Tiles extent {x | (x ∈ P ∧ x ≠ a) ∨ x = b} U := by
  refine h.exchange (R := {a}) (Q := {b}) (by rintro x rfl; exact ha) ?_
  have hset : {u | ∃ x ∈ ({a} : Set ι), u ∈ extent x} = extent b := by
    rw [hext]
    ext u
    simp
  rw [hset]
  exact single b

theorem split (ha : a ∈ P) (hext : ∀ u, u ∈ extent a ↔ u ∈ extent b ∨ u ∈ extent c)
    (hdisj : ∀ u ∈ extent b, u ∉ extent c) :
    Tiles extent {x | (x ∈ P ∧ x ≠ a) ∨ x = b ∨ x = c} U := by
  refine h.exchange (R := {a}) (Q := {b, c}) (by rintro x rfl; exact ha) ?_
  have hset : {u | ∃ x ∈ ({a} : Set ι), u ∈ extent x} = {u | u ∈ extent b ∨ u ∈ extent c} := by
    ext u
    simp [hext]
  rw [hset]
  refine ⟨?_, fun u => by simp⟩
  rintro x (rfl | rfl) y (rfl | rfl) u hx hy
  · rfl
  · exact absurd hy (hdisj u hx)
  · exact absurd hx (hdisj u hy)
  · rfl

theorem merge (ha : a ∈ P) (hb : b ∈ P) (hext : ∀ u, u ∈ extent c ↔ u ∈ extent a ∨ u ∈ extent b) :
    Tiles extent {x | (x ∈ P ∧ x ≠ a ∧ x ≠ b) ∨ x = c} U := by
  have hswap : Tiles extent {x | (x ∈ P ∧ x ∉ ({a, b} : Set ι)) ∨ x ∈ ({c} : Set ι)} U := by
    refine h.exchange (by rintro x (rfl | rfl) <;> assumption) ?_
    have hset : {u | ∃ x ∈ ({a, b} : Set ι), u ∈ extent x} = extent c := by
      ext u
      simp [hext]
    rw [hset]
    exact single c
  apply hswap.congr
  intro x
  simp [not_or]

/-- A new part next to all others. -/
theorem add (hnew : ∀ u ∈ extent a, u ∉ U) :
    Tiles extent {x | x ∈ P ∨ x = a} {u | u ∈ U ∨ u ∈ extent a} := by
  refine ⟨?_, ?_⟩
  · rintro x (hx | rfl) y (hy | rfl) u hux huy
    · exact h.disj x hx y hy u hux huy
    · exact absurd (h.mem hx hux) (hnew u huy)
    · exact absurd (h.mem hy huy) (hnew u hux)
    · rfl
  · intro u
    constructor
    · rintro (hu | hu)
      · obtain ⟨x, hx, hux⟩ := (h.cover u).1 hu
        exact ⟨x, .inl hx, hux⟩
      · exact ⟨a, .inr rfl, hu⟩
    · rintro ⟨x, hx | rfl, hux⟩
      · exact .inl (h.mem hx hux)
      · exact .inr hux

/-- A part is taken away with its elements. -/
theorem remove (ha : a ∈ P) : Tiles extent {x | x ∈ P ∧ x ≠ a} (U \ extent a) := by
  refine ⟨fun x hx y hy => h.disj x hx.1 y hy.1, ?_⟩
  intro u
  constructor
  · rintro ⟨hu, hnot⟩
    obtain ⟨x, hx, hux⟩ := (h.cover u).1 hu
    exact ⟨x, ⟨hx, fun heq => hnot (heq ▸ hux)⟩, hux⟩
  · rintro ⟨x, ⟨hx, hne⟩, hux⟩
    exact ⟨h.mem hx hux, fun hua => hne (h.disj x hx a ha u hux hua)⟩

end

end Tiles

end

/-! ## Dyadic blocks -/

/-- The `2 ^ o` numbers from `h` on. -/
def block (o h : ℕ) : Set ℕ := {u | h ≤ u ∧ u < h + 2 ^ o}

variable {o h : ℕ}

theorem mem_block {u : ℕ} : u ∈ block o h ↔ h ≤ u ∧ u < h + 2 ^ o := .rfl

theorem head_mem_block (o h : ℕ) : h ∈ block o h :=
  ⟨le_refl h, Nat.lt_add_of_pos_right (Nat.two_pow_pos o)⟩

section

variable (hh : 2 ^ o ∣ h)

include hh

/-- In a block the head is the only multiple of its size. -/
theorem eq_head_of_dvd {u : ℕ} (hu : 2 ^ o ∣ u) (hmem : u ∈ block o h) : u = h := by
  obtain ⟨hle, hlt⟩ := hmem
  have hdvd : 2 ^ o ∣ u - h := dvd_sub hu hh
  have hzero : u - h = 0 := eq_zero_of_dvd_of_lt hdvd (by omega)
  omega

/-- The other half of the block of the next order. -/
theorem buddy_eq : (2 ^ (o + 1) ∣ h ∧ h ^^^ 2 ^ o = h + 2 ^ o) ∨
      (2 ^ (o + 1) ∣ h - 2 ^ o ∧ 2 ^ o ≤ h ∧ h ^^^ 2 ^ o = h - 2 ^ o) := by
  obtain ⟨k, rfl⟩ := hh
  have hxor : 2 ^ o * k ^^^ 2 ^ o = 2 ^ o * (k ^^^ 1) := by
    have h := shiftLeft_xor_distrib (i := o) (a := k) (b := 1)
    simp only [shiftLeft_eq, one_mul] at h
    rw [mul_comm (2 ^ o) k, mul_comm (2 ^ o) (k ^^^ 1), h]
  rcases even_or_odd k with heven | hodd
  · left
    obtain ⟨q, rfl⟩ := heven
    refine ⟨⟨q, by rw [pow_succ]; ring⟩, ?_⟩
    rw [hxor, xor_one_of_even ⟨q, rfl⟩]
    ring
  · right
    obtain ⟨q, rfl⟩ := hodd
    have hsub : 2 ^ o * (2 * q + 1) - 2 ^ o = 2 ^ (o + 1) * q := by
      rw [pow_succ, mul_add, mul_one, Nat.add_sub_cancel]
      ring
    refine ⟨⟨q, hsub⟩, Nat.le_mul_of_pos_right _ (by omega), ?_⟩
    rw [hxor, Nat.xor_one_of_odd ⟨q, rfl⟩, Nat.mul_sub, mul_one]

theorem buddy_dvd : 2 ^ o ∣ h ^^^ 2 ^ o := by
  rcases buddy_eq hh with ⟨-, heq⟩ | ⟨-, -, heq⟩
  · rw [heq]
    exact Nat.dvd_add hh (Nat.dvd_refl _)
  · rw [heq]
    exact dvd_sub hh (Nat.dvd_refl _)

/-- The block that a block and its buddy make up. -/
theorem block_merge (u : ℕ) :
    u ∈ block (o + 1) (min h (h ^^^ 2 ^ o)) ↔ u ∈ block o h ∨ u ∈ block o (h ^^^ 2 ^ o) := by
  simp only [mem_block, pow_succ]
  rcases buddy_eq hh with ⟨-, heq⟩ | ⟨-, hle, heq⟩
  · rw [heq, min_eq_left (by omega)]
    omega
  · rw [heq, min_eq_right (by omega)]
    omega

theorem merge_dvd : 2 ^ (o + 1) ∣ min h (h ^^^ 2 ^ o) := by
  rcases buddy_eq hh with ⟨hdvd, heq⟩ | ⟨hdvd, -, heq⟩
  · rw [heq, min_eq_left (by omega)]
    exact hdvd
  · rw [heq, min_eq_right (by omega)]
    exact hdvd

end

/-- The two halves of a block. -/
theorem block_split (u : ℕ) : u ∈ block (o + 1) h ↔ u ∈ block o h ∨ u ∈ block o (h + 2 ^ o) := by
  simp only [mem_block, pow_succ]
  omega

theorem block_halves_disjoint (u : ℕ) (hu : u ∈ block o h) : u ∉ block o (h + 2 ^ o) := by
  simp only [mem_block] at hu ⊢
  omega

/-- A larger block that holds a multiple of `2 ^ o` holds its buddy too. -/
theorem buddy_mem_block {o' h' : ℕ} (hh : 2 ^ o ∣ h) (hh' : 2 ^ o' ∣ h') (hlt : o < o')
    (hmem : h ^^^ 2 ^ o ∈ block o' h') : h ∈ block o' h' := by
  -- the block is a union of blocks of order `o + 1`
  obtain ⟨k, rfl⟩ := hh'
  have hstep : 2 ^ (o + 1) ∣ 2 ^ o' := pow_dvd_pow 2 hlt
  obtain ⟨n, hn⟩ := hstep
  simp only [mem_block] at hmem ⊢
  rcases buddy_eq hh with ⟨⟨q, hq⟩, heq⟩ | ⟨⟨q, hq⟩, hle, heq⟩
  · rw [heq, hn] at hmem
    rw [hn]
    have hlo : n * k ≤ q := by
      by_contra hcon
      have : 2 ^ (o + 1) * (q + 1) ≤ 2 ^ (o + 1) * (n * k) := mul_le_mul_left _ (by omega)
      rw [mul_add, mul_one, ← hq, pow_succ, ← mul_assoc] at this
      rw [pow_succ] at hmem
      omega
    have : 2 ^ (o + 1) * (n * k) ≤ 2 ^ (o + 1) * q := mul_le_mul_left _ hlo
    rw [← hq, ← mul_assoc] at this
    omega
  · rw [heq, hn] at hmem
    rw [hn]
    have hhi : q < n * k + n := by
      by_contra hcon
      have : 2 ^ (o + 1) * (n * k + n) ≤ 2 ^ (o + 1) * q := mul_le_mul_left _ (by omega)
      rw [mul_add, ← hq, ← mul_assoc] at this
      omega
    have : 2 ^ (o + 1) * (q + 1) ≤ 2 ^ (o + 1) * (n * k + n) := mul_le_mul_left _ (by omega)
    rw [mul_add, mul_one, ← hq, mul_add, ← mul_assoc, pow_succ] at this
    rw [pow_succ] at hmem ⊢
    omega

end BoredOS.Lib.Tiling
