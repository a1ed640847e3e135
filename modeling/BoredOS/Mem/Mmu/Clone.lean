import BoredOS.Mem.Mmu.Run

/-!
# The Loops of `mmu_clone_user_cow`

`mmu_clone_user_cow` walks the tables of the parent in four nested loops and maps what it finds into
the child, so that tables are added to the forest while it is walked. `mmuCloneUserCow_rule` is the
rule for all four loops: an invariant `I D` about the pages `D` that are done is kept, provided that
one page keeps it and that the inner tables of the parent stay as they were.
-/

namespace BoredOS.Mem.Mmu

open Pmm Lib.TableTree List Set Nat

/-- A loop over the first numbers whose turns succeed. -/
theorem foldlM_range {σ : Type} {f : σ → ℕ → Option σ} {J : ℕ → σ → Prop} : ∀ (n : ℕ),
    (∀ i < n, ∀ s, J i s → ∃ s', f s i = some s' ∧ J (i + 1) s') → ∀ {s : σ}, J 0 s →
      ∃ s', (List.range n).foldlM f s = some s' ∧ J n s' := by
  intro n
  induction n with
  | zero => exact fun _ s h => ⟨s, rfl, h⟩
  | succ n ih =>
    intro hstep s h
    obtain ⟨s₁, hrun₁, h₁⟩ := ih (fun i hi => hstep i (lt_succ_of_lt hi)) h
    obtain ⟨s₂, hrun₂, h₂⟩ := hstep n (lt_succ_self n) s₁ h₁
    refine ⟨s₂, ?_, h₂⟩
    rw [range_succ, foldlM_append, hrun₁]
    show (List.foldlM f s₁ [n]) = some s₂
    rw [foldlM_cons, hrun₂]
    rfl

/-! ## Pages below a table -/

/-- The pages of the user half that a path of indices leads to. -/
def under (path : List ℕ) : Set ℕ := {v | Page 256 v ∧ path <+: indices v}

variable {path : List ℕ} {v l4 l3 l2 : ℕ} {m : Mm} {D : Set ℕ}

theorem under_slots {i : ℕ} (hv : v ∈ under (path ++ [i])) : slots 256 path i := by
  obtain ⟨hpage, hpre⟩ := hv
  have hmem : i ∈ indices v := hpre.subset (by simp)
  refine ⟨?_, ?_⟩
  · simp only [indices, mem_cons, not_mem_nil, or_false] at hmem
    rcases hmem with rfl | rfl | rfl | rfl
    · exact pml4Idx_lt v
    · exact pdptIdx_lt v
    · exact pdIdx_lt v
    · exact ptIdx_lt v
  · rintro rfl
    obtain ⟨rest, hrest⟩ := hpre
    obtain ⟨rfl, -⟩ := cons.inj hrest
    exact hpage.governed

/-- A page below a table is below one of its entries, and below one only. -/
theorem under_eq (hlen : path.length < 4) :
    under path = {v | ∃ i, slots 256 path i ∧ v ∈ under (path ++ [i])} := by
  ext v
  constructor
  · rintro ⟨hpage, rest, hrest⟩
    cases rest with
    | nil =>
      rw [append_nil] at hrest
      rw [hrest] at hlen
      simp [indices] at hlen
    | cons i rest =>
      have hmem : v ∈ under (path ++ [i]) := ⟨hpage, rest, by rw [← hrest]; simp⟩
      exact ⟨i, under_slots hmem, hmem⟩
  · rintro ⟨i, -, hpage, hpre⟩
    exact ⟨hpage, (prefix_append path [i]).trans hpre⟩

variable (h4 : l4 < 256) (h3 : l3 < 512) (h2 : l2 < 512)

include h4 h3 h2 in
theorem indices_addressOf {l1 : ℕ} (h1 : l1 < 512) :
    Page 256 (addressOf l4 l3 l2 l1) ∧ indices (addressOf l4 l3 l2 l1) = [l4, l3, l2, l1] := by
  have hidx : pml4Idx (addressOf l4 l3 l2 l1) = l4 ∧ pdptIdx (addressOf l4 l3 l2 l1) = l3 ∧
      pdIdx (addressOf l4 l3 l2 l1) = l2 ∧ ptIdx (addressOf l4 l3 l2 l1) = l1 := by
    unfold pml4Idx pdptIdx pdIdx ptIdx addressOf
    omega
  refine ⟨⟨.inl ?_, ?_, by rw [hidx.1]; exact h4⟩, ?_⟩
  · unfold addressOf
    omega
  · unfold addressOf pageSize
    omega
  · unfold indices
    rw [hidx.1, hidx.2.1, hidx.2.2.1, hidx.2.2.2]

include h4 h3 h2 in
/-- The pages below an entry of a lowest table. -/
theorem under_page {l1 : ℕ}
    (h1 : l1 < 512) : under ([l4, l3, l2] ++ [l1]) = {addressOf l4 l3 l2 l1} := by
  obtain ⟨hpage, hidx⟩ := indices_addressOf h4 h3 h2 h1
  ext v
  constructor
  · rintro ⟨hv, hpre⟩
    apply (indices_inj hv hpage).1
    rw [hidx]
    exact (hpre.eq_of_length (by simp [indices])).symm
  · rintro rfl
    exact ⟨hpage, by rw [hidx]; exact prefix_refl _⟩

/-! ## The rule -/

variable {U : Set ℕ} {data : ℕ → Option Grant} {pos : ℕ → Option Spot} {T : Set ℕ} {m₀ : Mm}

section

variable {lim r : ℕ} (h : World lim U data pos T m) (hr : pos r = some (r, []))
  (hv : pml4Idx v < lim)

include h hr hv

/-- The entry of a page is in its page table. -/
theorem World.leaf_eq {pt : ℕ} (hpt : pos pt = some (r, [pml4Idx v, pdptIdx v, pdIdx v])) :
    leaf m.tables r v = m.tables pt (ptIdx v) := by
  rcases h.tree.value_at _ [] hr rfl (along_indices hv) with ⟨g, hg, hleaf⟩ | ⟨hno, -⟩
  · rw [h.tree.unique _ hpt hg]
    exact hleaf
  · exact absurd hpt (hno pt)

/-- Below an entry that is zero no page has an entry. -/
theorem World.leaf_zero {f i : ℕ} (hf : pos f = some (r, path)) (hlen : path.length < 3)
    (hzero : m.tables f i = 0) (hpre : path ++ [i] <+: indices v) : leaf m.tables r v = 0 := by
  rcases h.tree.value_at _ [] hr rfl (along_indices hv) with ⟨g, hg, -⟩ | ⟨-, hleaf⟩
  · -- the page table would be below the entry
    have hlow : [pml4Idx v, pdptIdx v, pdIdx v] <+: indices v := ⟨[ptIdx v], rfl⟩
    obtain ⟨rest, hrest⟩ := prefix_of_prefix_length_le hpre hlow (by simpa using hlen)
    rw [nil_append, ← hrest] at hg
    exact absurd (h.tree.ancestor _ rest hg) (h.untabled hf hzero)
  · exact hleaf

end

/-- What an invariant of the loops needs: the tables of the parent that the loops read are those of
the start, pages without an entry are done without a change, and one page keeps it. -/
structure CloneRule (cpu : ℕ) (shared : ℕ → Bool) (child : ℕ) (pos : ℕ → Option Spot) (m₀ : Mm)
    (r : ℕ) (I : Set ℕ → Mm → Prop) : Prop where
  tables : ∀ {D m}, I D m → ∀ f path, pos f = some (r, path) → path.length < 3 →
    m.tables f = m₀.tables f
  valid : ∀ {D m}, I D m → ∀ f path, pos f = some (r, path) →
    isValidTablePhys m.pmm (f * pageSize) = true
  skip : ∀ {D m} (S : Set ℕ), I D m → (∀ v ∈ S, leaf m₀.tables r v = 0) → I (D ∪ S) m
  step : ∀ {D m v pt}, I D m → Page 256 v → v ∉ D →
    pos pt = some (r, [pml4Idx v, pdptIdx v, pdIdx v]) →
    ∃ m', cloneEntry cpu shared child m pt (ptIdx v) v = some m' ∧ I (D ∪ {v}) m'

variable {cpu : ℕ} {shared : ℕ → Bool} {child r : ℕ} {I : Set ℕ → Mm → Prop}

/-- The pages below the first entries of a table. -/
def underFirst (path : List ℕ) (n : ℕ) : Set ℕ := {v | ∃ i < n, v ∈ under (path ++ [i])}

theorem underFirst_zero (path : List ℕ) (D : Set ℕ) : D ∪ underFirst path 0 = D := by
  ext v
  simp [underFirst]

theorem underFirst_succ (path : List ℕ) (n : ℕ) (D : Set ℕ) :
    D ∪ underFirst path n ∪ under (path ++ [n]) = D ∪ underFirst path (n + 1) := by
  ext v
  simp only [underFirst, mem_union, mem_ofPred_eq, or_assoc]
  apply or_congr_right
  constructor
  · rintro (⟨i, hi, hv⟩ | hv)
    · exact ⟨i, lt_succ_of_lt hi, hv⟩
    · exact ⟨n, lt_succ_self n, hv⟩
  · rintro ⟨i, hi, hv⟩
    rcases Nat.lt_succ_iff_lt_or_eq.1 hi with hlt | rfl
    · exact .inl ⟨i, hlt, hv⟩
    · exact .inr hv

theorem underFirst_all {n : ℕ} (hlen : path.length < 4)
    (hn : ∀ i, i < n ↔ slots 256 path i) : underFirst path n = under path := by
  rw [under_eq hlen]
  ext v
  simp only [underFirst, mem_ofPred_eq, hn]

/-- The entries of a table are apart from each other. -/
theorem underFirst_disjoint {n : ℕ} (hlen : path.length < 4)
    (hD : ∀ v ∈ under path, v ∉ D) (hn : slots 256 path n) :
    ∀ v ∈ under (path ++ [n]), v ∉ D ∪ underFirst path n := by
  rintro v hv (hmem | ⟨i, hi, hmem⟩)
  · refine hD v ?_ hmem
    rw [under_eq hlen]
    exact ⟨n, hn, hv⟩
  · have hpre := prefix_of_prefix_length_le hv.2 hmem.2 (by simp)
    have heq := hpre.eq_of_length (by simp)
    simp at heq
    omega

variable (rule : CloneRule cpu shared child pos m₀ r I)

include rule

include h4 h3 h2 in
/-- The loop over a table of pages. -/
theorem CloneRule.pages {pt : ℕ} (hpt : pos pt = some (r, [l4, l3, l2])) (hI : I D m)
    (hD : ∀ v ∈ under [l4, l3, l2], v ∉ D) :
    ∃ m', (List.range 512).foldlM
        (fun m l1 => cloneEntry cpu shared child m pt l1 (addressOf l4 l3 l2 l1)) m = some m' ∧
      I (D ∪ under [l4, l3, l2]) m' := by
  have hslots : ∀ i, i < 512 ↔ slots 256 [l4, l3, l2] i := fun i => by simp [slots]
  rw [← underFirst_all (by simp) hslots]
  apply foldlM_range (J := fun n m => I (D ∪ underFirst [l4, l3, l2] n) m)
  · intro l1 h1 m hI
    obtain ⟨hpage, hidx⟩ := indices_addressOf h4 h3 h2 h1
    simp only [indices, cons.injEq, and_true] at hidx
    obtain ⟨hi4, hi3, hi2, hi1⟩ := hidx
    have hfresh := underFirst_disjoint (by simp) hD ((hslots l1).1 h1)
    rw [under_page h4 h3 h2 h1] at hfresh
    obtain ⟨m', hrun, hI'⟩ := rule.step hI hpage (hfresh _ rfl) (by rw [hi4, hi3, hi2]; exact hpt)
    rw [hi1] at hrun
    refine ⟨m', hrun, ?_⟩
    rw [← underFirst_succ, under_page h4 h3 h2 h1]
    exact hI'
  · rw [underFirst_zero]
    exact hI

/-- A loop over the entries of an inner table. -/
theorem CloneRule.level (h₀ : World 256 U data pos T m₀) (hr : pos r = some (r, [])) {f n : ℕ}
    (hf : pos f = some (r, path)) (hlen : path.length < 3) (hn : ∀ i, i < n ↔ slots 256 path i)
    {body : Mm → ℕ → ℕ → Option Mm} {skipHuge : Bool}
    (hbody : ∀ {D m i g}, slots 256 path i → pos g = some (r, path ++ [i]) → I D m →
      (∀ v ∈ under (path ++ [i]), v ∉ D) →
      ∃ m', body m i g = some m' ∧ I (D ∪ under (path ++ [i])) m') (hI : I D m)
    (hD : ∀ v ∈ under path, v ∉ D) :
    ∃ m', cloneLevel body skipHuge m f n = some m' ∧ I (D ∪ under path) m' := by
  rw [← underFirst_all (lt_succ_of_lt hlen) hn]
  apply foldlM_range (J := fun n m => I (D ∪ underFirst path n) m)
  · intro i hi m hI
    have hslot := (hn i).1 hi
    have hentry : m.tables f i = m₀.tables f i := by rw [rule.tables hI f path hf hlen]
    rw [← underFirst_succ]
    rw [hentry]
    by_cases hzero : m₀.tables f i = 0
    · rw [if_pos (not_present_of_zero hzero)]
      refine ⟨m, rfl, rule.skip _ hI ?_⟩
      rintro v ⟨hpage, hpre⟩
      exact h₀.leaf_zero hr hpage.governed hf hlen hzero hpre
    · have hlead := h₀.leads hf hlen hslot hzero
      have hvalid : isValidTablePhys m.pmm (physOf (m₀.tables f i)) = true := by
        rw [physOf_eq]
        exact rule.valid hI _ _ hlead.spot
      rw [if_neg (not_not.2 hlead.present), if_neg (fun hc => hlead.small hc.2),
        if_neg (by rw [hvalid]; decide)]
      exact hbody hslot hlead.spot hI (underFirst_disjoint (lt_succ_of_lt hlen) hD hslot)
  · rw [underFirst_zero]
    exact hI

theorem mmuCloneUserCow_rule
    (h₀ : World 256 U data pos T m₀) (hr : pos r = some (r, [])) (hI : I ∅ m) :
    ∃ m', mmuCloneUserCow cpu shared m r child = some m' ∧ I {v | Page 256 v} m' := by
  have hinner : ∀ (path : List ℕ), path ≠ [] → ∀ i, i < 512 ↔ slots 256 path i := by
    intro path hne i
    simp [slots, hne]
  have hall : (∅ : Set ℕ) ∪ under [] = {v | Page 256 v} := by
    ext v
    simp [under]
  rw [← hall]
  refine rule.level h₀ hr hr (by simp) (fun i => ?_) ?_ hI (fun v _ => notMem_empty v)
  · constructor
    · exact fun hi => ⟨by omega, fun _ => hi⟩
    · exact fun hi => hi.2 rfl
  intro D m l4 pdpt h4 hpdpt hI hD
  refine rule.level h₀ hr hpdpt (by simp) (hinner _ (by simp)) ?_ hI hD
  intro D m l3 pd h3 hpd hI hD
  refine rule.level h₀ hr hpd (by simp) (hinner _ (by simp)) ?_ hI hD
  intro D m l2 pt h2 hpt hI hD
  exact rule.pages (h4.2 rfl) h3.1 h2.1 hpt hI hD

end BoredOS.Mem.Mmu
