import Mathlib

/-!
# Ordered Lists of Intervals

A list of records that each cover the numbers from `lo` up to, but not with, `hi`. The list is
*separated* when no interval is empty and each one ends before the next one starts. A number lies
in at most one interval, so a search through the list is determined by membership
(`Separated.find?_eq_some`); an interval has one place in the list (`Separated.placed`); and
replacing every interval by pieces of it keeps the list separated (`Separated.flatMap`).
-/

namespace BoredOS.Lib.Intervals

open List

variable {α : Type} {lo hi : α → ℕ}

/-- A number lies in an interval. -/
def Covers (lo hi : α → ℕ) (a : α) (v : ℕ) : Prop := lo a ≤ v ∧ v < hi a
  deriving Decidable

/-- No interval is empty and the intervals lie in the order of the list. -/
structure Separated (lo hi : α → ℕ) (l : List α) : Prop where
  nonempty : ∀ a ∈ l, lo a < hi a
  ordered : l.Pairwise fun a b => hi a ≤ lo b

variable {a : α} {l : List α}

namespace Separated

theorem nil : Separated lo hi ([] : List α) :=
  ⟨fun _ h => absurd h not_mem_nil, .nil⟩

theorem singleton (h : lo a < hi a) : Separated lo hi [a] := by
  refine ⟨?_, pairwise_singleton _ a⟩
  intro b hb
  rw [mem_singleton.1 hb]
  exact h

variable (h : Separated lo hi l)

include h in
theorem sublist {l' : List α} (hsub : l'.Sublist l) : Separated lo hi l' :=
  ⟨fun a ha => h.nonempty a (hsub.subset ha), h.ordered.sublist hsub⟩

theorem append_iff {l' : List α} : Separated lo hi (l ++ l') ↔
    Separated lo hi l ∧ Separated lo hi l' ∧ ∀ a ∈ l, ∀ b ∈ l', hi a ≤ lo b := by
  constructor
  · intro h
    obtain ⟨-, -, hcross⟩ := pairwise_append.1 h.ordered
    exact ⟨h.sublist (sublist_append_left l l'), h.sublist (sublist_append_right l l'), hcross⟩
  · rintro ⟨hl, hl', hcross⟩
    refine ⟨?_, pairwise_append.2 ⟨hl.ordered, hl'.ordered, hcross⟩⟩
    intro a ha
    rcases mem_append.1 ha with ha | ha
    · exact hl.nonempty a ha
    · exact hl'.nonempty a ha

theorem cons_iff : Separated lo hi (a :: l) ↔
    lo a < hi a ∧ Separated lo hi l ∧ ∀ b ∈ l, hi a ≤ lo b := by
  constructor
  · intro h
    obtain ⟨hcross, -⟩ := pairwise_cons.1 h.ordered
    exact ⟨h.nonempty a mem_cons_self, h.sublist (sublist_cons_self a l), hcross⟩
  · rintro ⟨ha, hl, hcross⟩
    refine ⟨?_, pairwise_cons.2 ⟨hcross, hl.ordered⟩⟩
    intro b hb
    rcases mem_cons.1 hb with rfl | hb
    · exact ha
    · exact hl.nonempty b hb

variable {v : ℕ}

include h in
/-- A number lies in at most one interval. -/
theorem unique {b : α} (ha : a ∈ l) (hb : b ∈ l)
    (hav : Covers lo hi a v) (hbv : Covers lo hi b v) : a = b := by
  by_contra hne
  obtain ⟨p, q, rfl⟩ := append_of_mem ha
  obtain ⟨hp, hq, hpq⟩ := append_iff.1 h
  obtain ⟨-, hq', haq⟩ := cons_iff.1 hq
  unfold Covers at hav hbv
  rcases mem_append.1 hb with hb | hb
  · have := hpq b hb a mem_cons_self
    omega
  · rcases mem_cons.1 hb with heq | hb
    · exact hne heq.symm
    · have := haq b hb
      omega

include h in
/-- The search for the interval around a number. -/
theorem find?_eq_some :
    l.find? (fun b => decide (Covers lo hi b v)) = some a ↔ a ∈ l ∧ Covers lo hi a v := by
  constructor
  · intro hfind
    exact ⟨mem_of_find?_eq_some hfind, by simpa using find?_some hfind⟩
  · rintro ⟨ha, hav⟩
    obtain ⟨b, hb⟩ := Option.isSome_iff_exists.1 (find?_isSome.2 ⟨a, ha, decide_eq_true hav⟩ :
        (l.find? fun b => decide (Covers lo hi b v)).isSome = true)
    have hbv : Covers lo hi b v := by simpa using find?_some hb
    rw [hb, h.unique (mem_of_find?_eq_some hb) ha hbv hav]

theorem find?_eq_none :
    l.find? (fun b => decide (Covers lo hi b v)) = none ↔ ∀ a ∈ l, ¬ Covers lo hi a v := by
  simp

include h in
/-- Every interval is replaced by pieces of it. -/
theorem flatMap {g : α → List α} (hpieces : ∀ a ∈ l, Separated lo hi (g a))
    (hinside : ∀ a ∈ l, ∀ b ∈ g a, lo a ≤ lo b ∧ hi b ≤ hi a) : Separated lo hi (l.flatMap g) := by
  induction l with
  | nil => exact nil
  | cons a l ih =>
    obtain ⟨-, hl, hcross⟩ := cons_iff.1 h
    rw [flatMap_cons]
    refine append_iff.2 ⟨hpieces a mem_cons_self, ?_, ?_⟩
    · exact ih hl (fun b hb => hpieces b (mem_cons_of_mem a hb))
        (fun b hb => hinside b (mem_cons_of_mem a hb))
    · intro b hb c hc
      obtain ⟨d, hd, hcd⟩ := mem_flatMap.1 hc
      have hb' := hinside a mem_cons_self b hb
      have hc' := hinside d (mem_cons_of_mem a hd) c hcd
      have := hcross d hd
      omega

include h in
/-- An interval that meets none of the list has a place in it. -/
theorem placed (hfree : ∀ b ∈ l, hi a ≤ lo b ∨ hi b ≤ lo a) :
    ∃ p q, l = p ++ q ∧ (∀ b ∈ p, hi b ≤ lo a) ∧ ∀ b ∈ q, hi a ≤ lo b := by
  induction l with
  | nil => exact ⟨[], [], rfl, fun _ hb => absurd hb not_mem_nil, fun _ hb => absurd hb not_mem_nil⟩
  | cons b l ih =>
    obtain ⟨hb, hl, hcross⟩ := cons_iff.1 h
    rcases hfree b mem_cons_self with hbefore | hafter
    · refine ⟨[], b :: l, rfl, fun _ hc => absurd hc not_mem_nil, ?_⟩
      intro c hc
      rcases mem_cons.1 hc with rfl | hc
      · exact hbefore
      · have := hcross c hc
        omega
    · obtain ⟨p, q, rfl, hp, hq⟩ := ih hl fun c hc => hfree c (mem_cons_of_mem b hc)
      refine ⟨b :: p, q, rfl, ?_, hq⟩
      intro c hc
      rcases mem_cons.1 hc with rfl | hc
      · exact hafter
      · exact hp c hc

/-- An interval is put at its place. -/
theorem insert {p q : List α} (h : Separated lo hi (p ++ q)) (ha : lo a < hi a)
    (hp : ∀ b ∈ p, hi b ≤ lo a) (hq : ∀ b ∈ q, hi a ≤ lo b) : Separated lo hi (p ++ a :: q) := by
  obtain ⟨hl, hr, hcross⟩ := append_iff.1 h
  refine append_iff.2 ⟨hl, cons_iff.2 ⟨ha, hr, hq⟩, ?_⟩
  intro b hb c hc
  rcases mem_cons.1 hc with rfl | hc
  · exact hp b hb
  · exact hcross b hb c hc

/-- An interval is replaced by pieces of it. -/
theorem replace {p q : List α} (h : Separated lo hi (p ++ a :: q))
    (hl : Separated lo hi l) (hinside : ∀ b ∈ l, lo a ≤ lo b ∧ hi b ≤ hi a) :
    Separated lo hi (p ++ (l ++ q)) := by
  obtain ⟨hp, haq, hcross⟩ := append_iff.1 h
  obtain ⟨-, hq, haq⟩ := cons_iff.1 haq
  refine append_iff.2 ⟨hp, append_iff.2 ⟨hl, hq, ?_⟩, ?_⟩
  · intro b hb c hc
    exact Nat.le_trans (hinside b hb).2 (haq c hc)
  · intro b hb c hc
    rcases mem_append.1 hc with hc | hc
    · exact Nat.le_trans (hcross b hb a mem_cons_self) (hinside c hc).1
    · exact hcross b hb c (mem_cons_of_mem a hc)

end Separated

end BoredOS.Lib.Intervals
