import BoredOS.Mem.Vmm.Cut
import BoredOS.Mem.Vmm.Machine

/-!
# Releasing Pages

`vmm_unmap`, `vmm_brk` and `vmm_destroy_space` first walk over pages and drop the reference of each
one that is mapped, and clear the entries afterwards. In between the entries are still there and
stand for nothing: the account is kept for `refs`, in which the pages already visited are blank.
-/

namespace BoredOS.Mem.Vmm

open Lib.Tally Lib.Tiling Lib.TableTree Pmm Mmu List Prod

variable {U T : Set ℕ} {data data₁ : ℕ → Option Grant} {pos : ℕ → Option Spot} {r v : ℕ}

/-- The frame that a present entry maps, if it is not the zero page. -/
def liveFrame (zero : Option ℕ) (e : Pte) : Option ℕ :=
  if Has e ptPresent ∧ some (frameOf e) ≠ zero then some (frameOf e) else none

/-- Some entries have given up their references; the tables are the same. -/
structure Released (U : Set ℕ) (pos : ℕ → Option Spot) (T : Set ℕ) (m m' : Mm)
    (data' : ℕ → Option Grant) (refs' : ℕ × ℕ → Option ℕ) : Prop where
  world : World 256 U data' pos T m'
  accounts : Accounts data' m'.pmm refs'
  tables : m'.tables = m.tables
  total : m'.pmm.totalPageCount = m.pmm.totalPageCount

section

variable {data₂ : ℕ → Option Grant} {m m₁ m₂ : Mm} {refs refs₁ refs₂ : ℕ × ℕ → Option ℕ}
  {zero : Option ℕ} {f : ℕ}

theorem Released.trans (h : Released U pos T m m₁ data₁ refs₁)
    (h' : Released U pos T m₁ m₂ data₂ refs₂) : Released U pos T m m₂ data₂ refs₂ :=
  ⟨h'.world, h'.accounts, h'.tables.trans h.tables, h'.total.trans h.total⟩

section

variable (hw : World 256 U data pos T m)

include hw

/-- The frames of the account are managed by the allocator. -/
theorem kind_usable (h : Single data m.pmm f ∨ Segment data m.pmm f) :
    0 < f ∧ f < m.pmm.totalPageCount := by
  obtain ⟨q, g, hq, hf⟩ := held_of_kind h
  obtain ⟨L, hinv⟩ := hw.inv
  have husable : f ∈ U := hinv.held_usable (hw.heldOf_data hq) hf
  refine ⟨?_, hinv.core.below f husable⟩
  apply pos_of_ne_zero
  rintro rfl
  exact hw.noNull husable

section

variable (ha : Accounts data m.pmm refs)

include ha

theorem Released.single {k : ℕ × ℕ} (hk : refs k = some f) (hf : Single data m.pmm f) (cpu : ℕ) :
    ∃ data', Released U pos T m (m.withPmm (pmmPageUnref m.pmm cpu f)) data'
      (Function.update refs k none) := by
  obtain ⟨data', hworld, haccounts, hspared⟩ := ha.release hw hk hf cpu
  exact ⟨data', hworld, haccounts, rfl, hspared.total⟩

theorem Released.blank
    {k : ℕ × ℕ} (hk : refs k = none) : Released U pos T m m data (Function.update refs k none) := by
  rw [← hk, Function.update_eq_self]
  exact ⟨hw, ha, rfl, rfl⟩

/-- What `mmu_virt_to_phys` and `pmm_paddr_to_page` find for a page: nothing, the zero page, or the
frame that the page stands for. -/
theorem findPage_cases (hr : pos r = some (r, [])) (hv : UserPage v)
    (href : refs (r, v) = liveFrame zero (leaf m.tables r v)) :
    (refs (r, v) = none ∧ (mmuVirtToPhys m r v = 0 ∨
      ∀ pg ∈ pmmPaddrToPage m.pmm (mmuVirtToPhys m r v), some pg = zero)) ∨
    ∃ f, refs (r, v) = some f ∧ some f ≠ zero ∧ mmuVirtToPhys m r v ≠ 0 ∧
      pmmPaddrToPage m.pmm (mmuVirtToPhys m r v) = some f := by
  have hphys := mmuVirtToPhys_spec hw hr hv.page.governed
  rw [hv.1, add_zero, physOf_eq] at hphys
  have hdiv : ∀ f, f * pageSize / pageSize = f := fun f => Nat.mul_div_cancel f (by decide)
  cases hk : refs (r, v) with
  | none =>
    refine .inl ⟨rfl, ?_⟩
    by_cases hpresent : Has (leaf m.tables r v) ptPresent
    · rw [if_pos hpresent] at hphys
      right
      intro pg hpg
      rw [hphys] at hpg
      unfold pmmPaddrToPage pfnToPage at hpg
      rw [hdiv] at hpg
      split at hpg
      next => cases hpg
      next =>
        cases hpg
        by_contra hne
        rw [hk, liveFrame, if_pos ⟨hpresent, hne⟩] at href
        cases href
    · rw [if_neg hpresent] at hphys
      exact .inl hphys
  | some f =>
    obtain ⟨⟨hpresent, hne⟩, hframe⟩ := Option.ite_some_none_eq_some.1 (href.symm.trans hk)
    rw [hframe] at hne
    obtain ⟨hpos, hlt⟩ := kind_usable hw (ha.kind _ f hk)
    rw [if_pos hpresent, hframe] at hphys
    refine .inr ⟨f, rfl, hne, ?_, ?_⟩
    · rw [hphys]
      unfold pageSize
      omega
    · rw [hphys]
      unfold pmmPaddrToPage pfnToPage
      rw [hdiv, if_neg (not_le.2 hlt)]

end

end

theorem Segment.foreign (h : Segment data m.pmm f) : Has (m.pmm.pages f).flags foreignFlags := by
  have hmarked := h.marked
  unfold foreignFlags
  intro hzero
  rw [BitVec.and_or_distrib_left] at hzero
  exact hmarked (BitVec.or_eq_zero_iff.1 hzero).2

/-- A page of private memory is visited by `vmm_unmap` or `vmm_destroy_space`. -/
theorem unrefMapped_spec (hw : World 256 U data pos T m) (ha : Accounts data m.pmm refs)
    (cpu : ℕ) (hr : pos r = some (r, [])) (hv : UserPage v)
    (href : refs (r, v) = liveFrame zero (leaf m.tables r v)) :
    ∃ data', Released U pos T m (unrefMapped cpu zero m r v) data'
      (Function.update refs (r, v) none) := by
  unfold unrefMapped
  dsimp only
  rcases findPage_cases hw ha hr hv href with ⟨hnone, hfound⟩ | ⟨f, hk, hne, hphys, hpage⟩
  · refine ⟨data, ?_⟩
    rcases hfound with hzero | hzero
    · rw [if_pos hzero]
      exact .blank hw ha hnone
    · split
      next => exact .blank hw ha hnone
      next =>
        split
        next => exact .blank hw ha hnone
        next pg hpg =>
          rw [if_neg fun hc => hc.1 (hzero pg hpg)]
          exact .blank hw ha hnone
  · rw [if_neg hphys, hpage]
    dsimp only
    by_cases hforeign : Has (m.pmm.pages f).flags foreignFlags
    · -- a page of another allocator keeps its reference, the entry goes without it
      rw [if_neg fun hc => hc.2 hforeign]
      exact ⟨data, hw, ha.shrink fun k f' hk' => (Lib.Update.of_update_none hk').2, rfl, rfl⟩
    · rw [if_pos ⟨hne, hforeign⟩]
      apply Released.single hw ha hk
      exact (ha.kind _ f hk).resolve_right fun hsegment => hforeign hsegment.foreign

variable {visit : Mm → ℕ → Mm}

theorem Released.pages
    (hvisit : ∀ m data refs v, World 256 U data pos T m → Accounts data m.pmm refs →
      UserPage v → refs (r, v) = liveFrame zero (leaf m.tables r v) →
      ∃ data', Released U pos T m (visit m v) data' (Function.update refs (r, v) none)) :
    ∀ (vs : List ℕ) (m : Mm) (data : ℕ → Option Grant) (refs : ℕ × ℕ → Option ℕ), vs.Nodup →
    World 256 U data pos T m → Accounts data m.pmm refs →
    (∀ v ∈ vs, UserPage v ∧ refs (r, v) = liveFrame zero (leaf m.tables r v)) →
    ∃ data', Released U pos T m (vs.foldl visit m) data'
      fun k => if k.1 = r ∧ k.2 ∈ vs then none else refs k := by
  intro vs
  induction vs with
  | nil =>
    intro m data refs _ hw ha _
    refine ⟨data, ?_⟩
    simp only [not_mem_nil, and_false, if_false]
    exact ⟨hw, ha, rfl, rfl⟩
  | cons v vs ih =>
    intro m data refs hnodup hw ha hpages
    obtain ⟨hv, href⟩ := hpages v mem_cons_self
    obtain ⟨hnot, hnodup⟩ := nodup_cons.1 hnodup
    obtain ⟨data₁, h₁⟩ := hvisit m data refs v hw ha hv href
    -- the other pages are as they were
    have hpages' : ∀ w ∈ vs, UserPage w ∧ Function.update refs (r, v) none (r, w) =
        liveFrame zero (leaf (visit m v).tables r w) := by
      intro w hw
      obtain ⟨hw', href'⟩ := hpages w (mem_cons_of_mem v hw)
      refine ⟨hw', ?_⟩
      rw [h₁.tables, ← href', Function.update_of_ne]
      intro heq
      exact hnot ((mk.inj heq).2 ▸ hw)
    obtain ⟨data₂, h₂⟩ := ih (visit m v) data₁ _ hnodup h₁.world h₁.accounts hpages'
    refine ⟨data₂, ?_⟩
    have hrefs : (fun k : ℕ × ℕ => if k.1 = r ∧ k.2 ∈ vs then none
          else Function.update refs (r, v) none k) =
        fun k => if k.1 = r ∧ k.2 ∈ v :: vs then none else refs k := by
      funext k
      obtain ⟨r', w⟩ := k
      rw [Function.update_apply]
      by_cases hr' : r' = r
      · subst hr'
        simp only [true_and, mk.injEq, mem_cons]
        by_cases hmem : w ∈ vs
        · simp only [hmem, or_true, if_true]
        · simp only [hmem, or_false, if_false]
      · simp only [hr', false_and, if_false, mk.injEq]
    rw [← hrefs]
    exact h₁.trans h₂

end

/-! ## Changing entries -/

section

/-- The tables after the entries of some pages of a space have changed. -/
structure Changed (U : Set ℕ) (data : ℕ → Option Grant) (pos : ℕ → Option Spot) (m : Mm)
    (r : ℕ) (g : Pte → Pte) (on : ℕ → Prop) [DecidablePred on] (m' : Mm) (pos' : ℕ → Option Spot)
    (T' : Set ℕ) : Prop where
  world : World 256 U data pos' T' m'
  roots : SameRoots pos pos'
  spared : Spared data m.pmm m'.pmm
  entries : ∀ r' v', pos r' = some (r', []) → UserPage v' → leaf m'.tables r' v' =
    if r' = r ∧ on v' then g (leaf m.tables r' v') else leaf m.tables r' v'

/-- A list of pages is changed one by one; a page may occur in it more than once. -/
theorem changePages_spec {g : Pte → Pte} (hidem : ∀ e, g (g e) = g e)
    (hvisit : ∀ pos T m v, World 256 U data pos T m → pos r = some (r, []) → UserPage v →
      ∃ pos' T', Changed U data pos m r g (· = v) (visit m v) pos' T') :
    ∀ (vs : List ℕ) (pos : ℕ → Option Spot) (T : Set ℕ) (m : Mm), World 256 U data pos T m →
    pos r = some (r, []) → (∀ v ∈ vs, UserPage v) →
    ∃ pos' T', Changed U data pos m r g (· ∈ vs) (vs.foldl visit m) pos' T' := by
  intro vs
  induction vs with
  | nil =>
    intro pos T m hw hr _
    exact ⟨pos, T, hw, .refl pos, .refl data m.pmm, by simp⟩
  | cons v vs ih =>
    intro pos T m hw hr hpages
    obtain ⟨pos₁, T₁, h₁⟩ := hvisit pos T m v hw hr (hpages v mem_cons_self)
    obtain ⟨pos₂, T₂, h₂⟩ := ih pos₁ T₁ _ h₁.world ((h₁.roots r).2 hr)
      fun w hw => hpages w (mem_cons_of_mem v hw)
    refine ⟨pos₂, T₂, h₂.world, h₁.roots.trans h₂.roots, h₁.spared.trans h₂.spared, ?_⟩
    intro r' v' hr' hv'
    rw [foldl_cons, h₂.entries r' v' ((h₁.roots r').2 hr') hv', h₁.entries r' v' hr' hv']
    simp only [mem_cons]
    by_cases heq : r' = r
    · by_cases hfirst : v' = v
      · simp only [heq, hfirst, true_and, if_true, true_or, hidem, ite_self]
      · simp only [heq, hfirst, true_and, if_false, false_or]
    · simp only [heq, false_and, if_false]

theorem clearPages_spec (cpu : ℕ) (vs : List ℕ) {pos : ℕ → Option Spot} {T : Set ℕ} {m : Mm}
    (hw : World 256 U data pos T m) (hr : pos r = some (r, [])) (hvs : ∀ v ∈ vs, UserPage v) :
    ∃ pos' T', Changed U data pos m r (fun _ => 0) (· ∈ vs)
      (vs.foldl (fun m v => (mmuUnmapPageUnlocked cpu m r v).1) m) pos' T' := by
  apply changePages_spec (g := fun _ => 0) (fun _ => rfl) _ vs pos T m hw hr hvs
  intro pos T m v hw hr hv
  obtain ⟨⟨⟨pos', T', hworld, hroots⟩, hspared, hleaf⟩, -⟩ :=
    mmuUnmapPageUnlocked_spec hw cpu hr hv.page.governed
  refine ⟨pos', T', hworld, hroots, hspared, ?_⟩
  intro r' v' hr' hv'
  rw [hleaf r' v' hr' hv'.page.governed]
  simp only [indices_inj hv'.page hv.page]

end

/-! ## The machine -/

variable {counts : Option (VmaType × Bool) → Bool} {s : Machine} {sp : Space}

theorem refOf_counted {zero : Option ℕ} {vmas : List Area} {e : Pte}
    (h : counts (areaKind vmas v) = true) : refOf counts zero vmas v e = liveFrame zero e := by
  unfold refOf liveFrame
  simp only [h, and_true]

/-- Pages of a space are released and then cleared. -/
theorem Sound.drop (h : Sound counts U data pos T s) (hr : s.spaces r = some sp) (cpu : ℕ)
    {m₁ : Mm} {vs : List ℕ} (ws : List ℕ)
    (hreleased : Released U pos T s.vm.mm m₁ data₁
      fun k => if k.1 = r ∧ k.2 ∈ vs then none else refsOf counts s k)
    (hws : ∀ v ∈ ws, UserPage v) (hsub : ∀ v ∈ vs, v ∈ ws) :
    ∃ pos' T', Sound counts U data₁ pos' T'
        (s.withMm (ws.foldl (fun m v => (mmuUnmapPageUnlocked cpu m r v).1) m₁)) ∧
      ∀ r' sp' v', s.spaces r' = some sp' → UserPage v' →
        (s.withMm (ws.foldl (fun m v => (mmuUnmapPageUnlocked cpu m r v).1) m₁)).entry r' v' =
          if r' = r ∧ v' ∈ ws then 0 else s.entry r' v' := by
  obtain ⟨pos', T', hworld, hroots, hspared, hleaf⟩ :=
    clearPages_spec cpu ws hreleased.world (h.root_pos hr) hws
  generalize ws.foldl (fun m v => (mmuUnmapPageUnlocked cpu m r v).1) m₁ = m' at *
  have hview : ∀ r' sp' v', s.spaces r' = some sp' → UserPage v' → leaf m'.tables r' v' =
      if r' = r ∧ v' ∈ ws then 0 else s.entry r' v' := by
    intro r' sp' v' hr' hv'
    rw [hleaf r' v' (h.root_pos hr') hv', hreleased.tables]
    rfl
  have hrefs : refsOf counts (s.withMm m') =
      fun k => if k.1 = r ∧ k.2 ∈ ws then none else refsOf counts s k := by
    funext k
    obtain ⟨r', v'⟩ := k
    rw [refsOf_withMm hr (e := fun v' => if v' ∈ ws then 0 else s.entry r v')]
    · by_cases hk : r' = r ∧ UserPage v'
      · obtain ⟨rfl, hv'⟩ := hk
        rw [if_pos ⟨rfl, hv'⟩, refsOf_space hr hv']
        by_cases hmem : v' ∈ ws
        · simp only [hmem, if_true, and_self]
          exact refOf_absent (not_present_of_zero rfl)
        · simp only [hmem, and_false, if_false]
      · rw [if_neg hk, if_neg]
        rintro ⟨heq, hmem⟩
        exact hk ⟨heq, hws v' hmem⟩
    · intro r' sp' v' hr' hv'
      rw [hview r' sp' v' hr' hv']
      by_cases heq : r' = r
      · subst heq
        simp only [true_and, if_true]
      · simp only [heq, false_and, if_false]
  refine ⟨pos', T', h.withMm hworld hroots (hspared.total.trans hreleased.total) ?_, hview⟩
  rw [hrefs]
  apply (hreleased.accounts.spared hspared).shrink
  rintro ⟨r', v'⟩ f hk
  by_cases hmem : r' = r ∧ v' ∈ ws
  · rw [if_pos hmem] at hk
    cases hk
  · rw [if_neg hmem] at hk
    rw [if_neg fun hc => hmem ⟨hc.1, hsub v' hc.2⟩]
    exact hk

end BoredOS.Mem.Vmm
