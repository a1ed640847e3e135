import BoredOS.Lib.TableTree
import BoredOS.Mem.Mmu.Layout
import BoredOS.Mem.Pmm.Release

/-!
# Page Tables in Allocated Frames

`World` is the invariant of page tables that map pages of 4 KiB only. The tables of the contexts
form a forest (`Lib.TableTree`), and each table has a frame of its own: one that the page allocator
gave to `alloc_table_frame`, or one that the allocator does not manage, as the tables of the boot
loader. The other blocks that clients of the allocator hold are `data`.

`lim` is the number of slots of a PML4 that the forest governs: 512 for a context as a whole, 256
for the user half, where nothing is said about the kernel half.

The functions of `mem/mmu.c` are made of six steps on such a state: a frame is allocated, linked,
unlinked and released, an entry of a lowest table is replaced, and a page is marked dirty.
-/

namespace BoredOS.Mem.Mmu

open Pmm Lib.Tiling Lib.TableTree Lib.Update Function Set
open Option (bind_some some.inj)

variable {data : ℕ → Option Grant} {T : Set ℕ}

/-! ## The view of the lowest entries -/

/-- The indices of a virtual address, from the PML4 down. -/
def indices (v : ℕ) : List ℕ := [pml4Idx v, pdptIdx v, pdIdx v, ptIdx v]

/-- The slots of the PML4 below `lim` and everything below them. -/
def slots (lim : ℕ) (path : List ℕ) (i : ℕ) : Prop := i < 512 ∧ (path = [] → i < lim)

/-- The entry that maps a page, zero when a table on the way is missing. -/
def leaf (t : Tables) (r v : ℕ) : Pte := value frameOf t r (indices v)

theorem along_indices {lim v : ℕ} (hv : pml4Idx v < lim) :
    Along (slots lim) [] ([pml4Idx v, pdptIdx v, pdIdx v] ++ [ptIdx v]) :=
  ⟨⟨pml4Idx_lt v, fun _ => hv⟩, ⟨pdptIdx_lt v, by simp⟩, ⟨pdIdx_lt v, by simp⟩,
    ⟨ptIdx_lt v, by simp⟩, trivial⟩

/-! ## Who holds what -/

open Classical in
/-- The blocks that clients of the allocator hold: `data` and one page for each table. -/
noncomputable def heldOf (data : ℕ → Option Grant) (T : Set ℕ) (q : ℕ) : Option Grant :=
  if q ∈ T then some ⟨0, 1⟩ else data q

section

variable {g q : ℕ}

theorem heldOf_of_mem (h : q ∈ T) : heldOf data T q = some ⟨0, 1⟩ := if_pos h

theorem heldOf_of_not_mem (h : q ∉ T) : heldOf data T q = data q := if_neg h

theorem heldOf_insert (g : ℕ) :
    heldOf data (insert g T) = update (heldOf data T) g (some ⟨0, 1⟩) := by
  funext q
  by_cases hq : q = g
  · subst hq
    rw [update_self, heldOf_of_mem (mem_insert q T)]
  · rw [update_of_ne hq]
    by_cases hT : q ∈ T
    · rw [heldOf_of_mem hT, heldOf_of_mem (mem_insert_of_mem g hT)]
    · rw [heldOf_of_not_mem hT, heldOf_of_not_mem (by simp [hq, hT])]

theorem heldOf_update (hg : g ∉ T) (x : Option Grant) :
    heldOf (update data g x) T = update (heldOf data T) g x := by
  funext q
  by_cases hq : q = g
  · subst hq
    rw [update_self, heldOf_of_not_mem hg, update_self]
  · rw [update_of_ne hq]
    unfold heldOf
    rw [update_of_ne hq]

end

/-- A descriptor as the users of a page see it, up to `PAGE_FLAG_DIRTY`. -/
structure Mild (s s' : PmmState) (u : ℕ) : Prop where
  refcount : (s'.pages u).refcount = (s.pages u).refcount
  order : (s'.pages u).order = (s.pages u).order
  flags : (s'.pages u).flags &&& ~~~pageFlagDirty = (s.pages u).flags &&& ~~~pageFlagDirty

theorem Mild.refl (s : PmmState) (u : ℕ) : Mild s s u := ⟨rfl, rfl, rfl⟩

variable {s₁ s₂ s₃ : PmmState} {u : ℕ}

theorem Mild.trans (h : Mild s₁ s₂ u) (h' : Mild s₂ s₃ u) : Mild s₁ s₃ u :=
  ⟨h'.refcount.trans h.refcount, h'.order.trans h.order, h'.flags.trans h.flags⟩

variable {s : PmmState} {f : ℕ}

theorem Mild.of_same {s' : PmmState} (h : SameDesc s s' u) : Mild s s' u :=
  ⟨h.refcount, h.order, by rw [h.flags]⟩

theorem Mild.has {s' : PmmState} (h : Mild s s' u) {mask : BitVec 32}
    (hmask : ~~~pageFlagDirty &&& mask = mask) :
    Has (s'.pages u).flags mask ↔ Has (s.pages u).flags mask := by
  rw [← has_and _ _ _ hmask, h.flags, has_and _ _ _ hmask]

/-- The pages of the data blocks keep their descriptors. -/
structure Spared (data : ℕ → Option Grant) (s s' : PmmState) : Prop where
  desc : ∀ q g, data q = some g → ∀ u ∈ block g.order q, Mild s s' u
  total : s'.totalPageCount = s.totalPageCount

theorem Spared.refl (data : ℕ → Option Grant) (s : PmmState) : Spared data s s :=
  ⟨fun _ _ _ u _ => .refl s u, rfl⟩

theorem Spared.trans {data : ℕ → Option Grant} (h : Spared data s₁ s₂)
    (h' : Spared data s₂ s₃) : Spared data s₁ s₃ :=
  ⟨fun q g hq u hu => (h.desc q g hq u hu).trans (h'.desc q g hq u hu), h'.total.trans h.total⟩

/-! ## The invariant -/

/-- Page tables that map pages of 4 KiB, each in a frame of its own. -/
structure World (lim : ℕ) (U : Set ℕ) (data : ℕ → Option Grant) (pos : ℕ → Option Spot)
    (T : Set ℕ) (m : Mm) : Prop where
  inv : ∃ L, Inv U m.pmm (heldOf data T) L
  apart : ∀ f ∈ T, data f = none
  narrow : m.pmm.totalPageCount ≤ 2 ^ 40
  noNull : 0 ∉ U
  tree : Tree frameOf 3 (slots lim) pos m.tables
  inner : ∀ f r path, pos f = some (r, path) → path.length < 3 → ∀ i, slots lim path i →
    m.tables f i ≠ 0 → Has (m.tables f i) ptPresent ∧ ¬ Has (m.tables f i) ptHuge
  placed : ∀ f p, pos f = some p → f ∈ T ∨ (f ∉ U ∧ 0 < f ∧ f < m.pmm.totalPageCount)
  own : ∀ f r path, pos f = some (r, path) → (∀ i ∈ path.head?, i < 256) → f ∈ T
  clean : ∀ f ∈ T, ¬ Has (m.pmm.pages f).flags (pageFlagFree ||| pageFlagReserved)

/-- All entries of the governed pages are the same. -/
def SameView (lim : ℕ) (pos : ℕ → Option Spot) (t t' : Tables) : Prop :=
  ∀ r v, pos r = some (r, []) → pml4Idx v < lim → leaf t' r v = leaf t r v

/-- The contexts are the same. -/
def SameRoots (pos pos' : ℕ → Option Spot) : Prop :=
  ∀ r, pos' r = some (r, []) ↔ pos r = some (r, [])

theorem not_free_of_clean {flags : BitVec 32}
    (h : ¬ Has flags (pageFlagFree ||| pageFlagReserved)) : ¬ Has flags pageFlagFree := by
  intro hhas
  apply h
  intro hzero
  rw [BitVec.and_or_distrib_left] at hzero
  exact hhas (BitVec.or_eq_zero_iff.1 hzero).1

variable {lim : ℕ} {U : Set ℕ} {pos : ℕ → Option Spot} {m : Mm}

section

variable {gr : Grant} (h : World lim U data pos T m)

include h

theorem World.table_usable (hf : f ∈ T) : f ∈ U ∧ 0 < f ∧ f < m.pmm.totalPageCount := by
  obtain ⟨L, hinv⟩ := h.inv
  have husable : f ∈ U := hinv.held_usable (heldOf_of_mem hf) (head_mem_block 0 f)
  refine ⟨husable, ?_, hinv.core.below f husable⟩
  apply pos_of_ne_zero
  rintro rfl
  exact h.noNull husable

theorem World.frame_lt (hf : f ∈ U) : f < 2 ^ 40 := by
  obtain ⟨L, hinv⟩ := h.inv
  exact lt_of_lt_of_le (hinv.core.below f hf) h.narrow

theorem World.range {p : Spot} (hf : pos f = some p) : 0 < f ∧ f < m.pmm.totalPageCount := by
  rcases h.placed f p hf with hmem | hout
  · exact (h.table_usable hmem).2
  · exact hout.2

/-- A table passes `is_valid_table_phys`. -/
theorem World.valid {p : Spot} (hf : pos f = some p) :
    isValidTablePhys m.pmm (f * pageSize) = true := by
  obtain ⟨hpos, hlt⟩ := h.range hf
  have hfree : ¬ Has (m.pmm.pages f).flags pageFlagFree := by
    rcases h.placed f p hf with hmem | hout
    · exact not_free_of_clean (h.clean f hmem)
    · obtain ⟨L, hinv⟩ := h.inv
      unfold Has
      rw [not_not]
      exact hinv.core.reserved f hout.1
  unfold isValidTablePhys pmmPaddrToPage pfnToPage
  rw [Nat.mul_div_cancel _ (by decide), Nat.mul_mod_left, if_neg, if_neg (not_le.2 hlt)]
  · exact decide_eq_true hfree
  · rintro (hzero | hmod)
    · unfold pageSize at hzero
      omega
    · exact hmod rfl

/-- What is in frames that hold no tables does not matter. -/
theorem World.withTables {t : Tables}
    (hagree : ∀ f, pos f ≠ none → t f = m.tables f) : World lim U data pos T ⟨t, m.pmm⟩ := by
  refine { h with tree := h.tree.congr hagree, inner := ?_ }
  intro f r path hf
  show path.length < 3 → ∀ i, slots lim path i → t f i ≠ 0 →
    Has (t f i) ptPresent ∧ ¬ Has (t f i) ptHuge
  rw [hagree f (by rw [hf]; simp)]
  exact h.inner f r path hf

/-- A frame that the allocator hands out is not among the tables. -/
theorem World.fresh (husable : f ∈ U) (hout : f ∉ T) : pos f = none := by
  cases hf : pos f with
  | none => rfl
  | some p =>
    rcases h.placed f p hf with hmem | hreserved
    · exact absurd hmem hout
    · exact absurd husable hreserved.1

theorem World.view_congr {t : Tables}
    (hagree : ∀ f, pos f ≠ none → t f = m.tables f) : SameView lim pos m.tables t := by
  intro r v hr hv
  refine h.tree.value_same hr rfl (along_indices hv) (h.tree.congr hagree) hr ?_ fun _ => .inl
  exact fun g hg => .inl ⟨hg, by rw [hagree g (by rw [hg]; simp)]⟩

/-! ## Allocation and release -/

variable {data' : ℕ → Option Grant}

/-- Only descriptors change, and those of the data blocks and of the tables stay. -/
theorem World.withPmm {T' : Set ℕ}
    (hinv : ∃ L, Inv U s (heldOf data' T') L) (htotal : s.totalPageCount = m.pmm.totalPageCount)
    (hapart : ∀ f ∈ T', data' f = none) (hpos : ∀ f p, pos f = some p → f ∈ T → f ∈ T')
    (hclean : ∀ f ∈ T', ¬ Has (s.pages f).flags (pageFlagFree ||| pageFlagReserved)) :
    World lim U data' pos T' (m.withPmm s) := by
  refine { h with
    inv := hinv, apart := hapart, narrow := ?_, placed := ?_, own := ?_, clean := hclean }
  · show s.totalPageCount ≤ 2 ^ 40
    rw [htotal]
    exact h.narrow
  · intro f p hf
    show f ∈ T' ∨ f ∉ U ∧ 0 < f ∧ f < s.totalPageCount
    rw [htotal]
    exact (h.placed f p hf).imp_left (hpos f p hf)
  · intro f r path hf hlow
    exact hpos f _ hf (h.own f r path hf hlow)

theorem World.not_table (hf : data f = some gr) : f ∉ T := by
  intro hmem
  rw [h.apart f hmem] at hf
  cases hf

theorem World.heldOf_data (hf : data f = some gr) : heldOf data T f = some gr := by
  rw [heldOf_of_not_mem (h.not_table hf)]
  exact hf

/-- The allocator and the holders change, and the tables keep their descriptors. -/
theorem World.reheld
    (hinv : ∃ L, Inv U s (heldOf data' T) L) (htotal : s.totalPageCount = m.pmm.totalPageCount)
    (hapart : ∀ f ∈ T, data' f = none)
    (hflags : ∀ f ∈ T, (s.pages f).flags = (m.pmm.pages f).flags) :
    World lim U data' pos T (m.withPmm s) := by
  refine h.withPmm hinv htotal hapart (fun _ _ _ hf => hf) fun f hf => ?_
  rw [hflags f hf]
  exact h.clean f hf

theorem apart_update (hf : f ∉ T) (x : Option Grant) : ∀ q ∈ T, update data f x q = none := by
  intro q hq
  rw [update_of_ne]
  · exact h.apart q hq
  · rintro rfl
    exact hf hq

structure NewPage (U : Set ℕ) (data : ℕ → Option Grant) (T : Set ℕ) (flags : BitVec 32)
    (s : PmmState) (f : ℕ) : Prop where
  free : data f = none
  notTable : f ∉ T
  usable : f ∈ U
  apart : ∀ q g, data q = some g → f ∉ block g.order q
  flagsField : (s.pages f).flags = flags &&& ~~~pageFlagZero
  refcountField : (s.pages f).refcount = 1

theorem World.allocPage (cpu : ℕ) (flags : BitVec 32) :
    ∃ s r, pmmAllocOrder m.pmm cpu 0 flags = some (s, r) ∧ Spared data m.pmm s ∧
      (r = none → World lim U data pos T (m.withPmm s)) ∧
      ∀ f, r = some f → World lim U (update data f (some ⟨0, 1⟩)) pos T (m.withPmm s) ∧
        NewPage U data T flags s f := by
  obtain ⟨L, hinv⟩ := h.inv
  obtain ⟨s, r, hrun, hdone, hsame, hlt⟩ := pmmAllocOrder_spec hinv cpu 0 flags
  have hspared : Spared data m.pmm s :=
    ⟨fun q g hq u hu => .of_same (hsame.desc q g (h.heldOf_data hq) u hu), hsame.total⟩
  have htables : ∀ q ∈ T, (s.pages q).flags = (m.pmm.pages q).flags :=
    fun q hq => (hsame.desc q ⟨0, 1⟩ (heldOf_of_mem hq) q (head_mem_block 0 q)).flags
  refine ⟨s, r, hrun, hspared, ?_, ?_⟩
  · rintro rfl
    exact h.reheld hdone hsame.total h.apart htables
  · rintro f rfl
    have hout : ∀ q gr, heldOf data T q = some gr → f ∉ block gr.order q :=
      fun q gr hq => HandedOut.apart hdone hq (head_mem_block 0 f)
    have hT : f ∉ T := fun hmem => hout f ⟨0, 1⟩ (heldOf_of_mem hmem) (head_mem_block 0 f)
    have hdata : data f = none := by
      cases hf : data f with
      | none => rfl
      | some gr => exact absurd (head_mem_block gr.order f) (hout f gr (h.heldOf_data hf))
    obtain ⟨z, halloc⟩ := HandedOut.allocated hdone
    refine ⟨h.reheld ?_ hsame.total (apart_update h hT _) htables, hdata, hT,
      HandedOut.usable hdone (head_mem_block 0 f), fun q gr hq => hout q gr (h.heldOf_data hq),
      halloc.flagsField, halloc.refcountField⟩
    rw [heldOf_update hT]
    exact HandedOut.grant hdone (hlt (by simp))

theorem allocTableFrame_spec (cpu : ℕ) :
    ∃ m' r, allocTableFrame cpu m = some (m', r) ∧ Spared data m.pmm m'.pmm ∧
      (r = none → World lim U data pos T m' ∧ m'.tables = m.tables) ∧
      ∀ g, r = some g → World lim U data pos (insert g T) m' ∧ g ∉ T ∧ pos g = none ∧
        m'.tables = update m.tables g fun _ => 0 := by
  obtain ⟨s, r, hrun, hspared, hnone, hsome⟩ := h.allocPage cpu (pageFlagKernel ||| pageFlagZero)
  unfold allocTableFrame
  rw [hrun, Option.bind_eq_bind, bind_some]
  cases r with
  | none => exact ⟨m.withPmm s, none, rfl, hspared, fun _ => ⟨hnone rfl, rfl⟩, (nomatch ·, ·)⟩
  | some g =>
    refine ⟨⟨update m.tables g fun _ => 0, s⟩, some g, rfl, hspared, (nomatch ·), ?_⟩
    intro g' hg'
    obtain rfl : g = g' := some.inj hg'
    obtain ⟨hpage, hnew⟩ := hsome g rfl
    have hgpos := h.fresh hnew.usable hnew.notTable
    -- the new page becomes a table first, then it is filled with zeroes
    have hworld : World lim U data pos (insert g T) (m.withPmm s) := by
      refine hpage.withPmm ?_ rfl ?_ (fun f _ _ hf => mem_insert_of_mem g hf) ?_
      · rw [heldOf_insert, ← heldOf_update hnew.notTable]
        exact hpage.inv
      · intro f hf
        rcases mem_insert_iff.1 hf with rfl | hf
        · exact hnew.free
        · exact h.apart f hf
      · intro f hf
        rcases mem_insert_iff.1 hf with rfl | hf
        · rw [hnew.flagsField]
          decide
        · exact hpage.clean f hf
    have hagree : ∀ f, pos f ≠ none → update m.tables g (fun _ => 0) f = m.tables f := by
      intro f hf
      rw [update_of_ne]
      rintro rfl
      exact hf hgpos
    exact ⟨hworld.withTables hagree, hnew.notTable, hgpos, rfl⟩

/-- A block of `data` loses a reference, and it is returned with the last one. -/
theorem World.freeOrder (hf : data f = some gr)
    (hmark : ¬ Has (m.pmm.pages f).flags pageFlagFree) (cpu : ℕ) :
    World lim U (dropRef data f) pos T (m.withPmm (pmmFreeOrder m.pmm cpu f gr.order)) ∧
      Spared (update data f none) m.pmm (pmmFreeOrder m.pmm cpu f gr.order) := by
  have hT := h.not_table hf
  have hheld := h.heldOf_data hf
  obtain ⟨L, hinv⟩ := h.inv
  obtain ⟨L', hinv', hsame⟩ := pmmFreeOrder_spec hinv hheld (fun hm => hmark hm.2.2.2) cpu
  have hdrop : dropRef (heldOf data T) f = heldOf (dropRef data f) T := by
    unfold dropRef
    rw [hheld, hf, heldOf_update hT]
  rw [hdrop] at hinv'
  rw [← heldOf_update hT] at hsame
  refine ⟨h.reheld ⟨L', hinv'⟩ hsame.total (apart_update h hT _) ?_, ⟨?_, hsame.total⟩⟩
  · intro q hq
    exact (hsame.desc q ⟨0, 1⟩ (heldOf_of_mem hq) q (head_mem_block 0 q)).flags
  · intro q g hq u hu
    apply Mild.of_same
    apply hsame.desc q g _ u hu
    rw [heldOf_of_not_mem (h.not_table (of_update_none hq).2)]
    exact hq

/-- A table that nothing leads to is a page like any other. -/
theorem World.lend (hf : f ∈ T) (hpos : pos f = none) :
    World lim U (update data f (some ⟨0, 1⟩)) pos (T \ {f}) m := by
  refine h.withPmm ?_ rfl ?_ (fun q p hq hmem => ⟨hmem, ne_of_none hpos hq⟩)
    fun q hq => h.clean q hq.1
  · rw [heldOf_update (by simp), ← heldOf_insert, insert_sdiff_singleton,
      insert_eq_of_mem hf]
    exact h.inv
  · intro q hq
    rw [update_of_ne hq.2]
    exact h.apart q hq.1

/-- A table that nothing leads to goes back to the allocator. -/
theorem freeTableFrame_spec (cpu : ℕ) {g : ℕ} (hg : g ∈ T) (hpos : pos g = none) :
    World lim U data pos (T \ {g}) (m.withPmm (freeTableFrame cpu m.pmm (g * pageSize))) ∧
      Spared data m.pmm (freeTableFrame cpu m.pmm (g * pageSize)) := by
  obtain ⟨-, hnull, hlt⟩ := h.table_usable hg
  have hclean := h.clean g hg
  have hfree : ¬ Has (m.pmm.pages g).flags pageFlagFree := not_free_of_clean hclean
  have hrun : freeTableFrame cpu m.pmm (g * pageSize) = pmmFreeOrder m.pmm cpu g 0 := by
    unfold freeTableFrame isValidTablePhys pmmPaddrToPage pfnToPage
    rw [Nat.mul_div_cancel _ (by decide), Nat.mul_mod_left, if_neg (not_le.2 hlt)]
    rw [if_neg (show ¬ (g * pageSize = 0 ∨ 0 ≠ 0) by unfold pageSize; omega)]
    rw [if_pos (decide_eq_true hfree)]
    exact if_neg hclean
  obtain ⟨hworld, hspared⟩ := (h.lend hg hpos).freeOrder (update_self ..) hfree cpu
  obtain ⟨hback, hdrop⟩ := back_of_none (h.apart g hg)
  rw [hdrop] at hworld
  rw [hback] at hspared
  rw [hrun]
  exact ⟨hworld, hspared⟩

/-! ## Links -/

variable {path₀ : List ℕ} {f₀ r₀ i₀ : ℕ} (hf₀ : pos f₀ = some (r₀, path₀)) (hlow : path₀.length < 3)

omit h in
include hf₀ hlow in
theorem not_lowest {q r v i : ℕ} (hq : pos q = some (r, [pml4Idx v, pdptIdx v, pdIdx v])) :
    ¬ (q = f₀ ∧ i = i₀) := by
  rintro ⟨rfl, -⟩
  cases hf₀.symm.trans hq
  exact lt_irrefl 3 hlow

include hf₀ hlow in
/-- An empty table in an allocated frame is linked. -/
theorem World.link {g : ℕ} (hi₀ : slots lim path₀ i₀)
    (hzero : m.tables f₀ i₀ = 0) (hg : g ∈ T) (hpos : pos g = none)
    (hempty : m.tables g = fun _ => 0) :
    World lim U data (update pos g (some (r₀, path₀ ++ [i₀]))) T (m.setEntry f₀ i₀ (tableEntry g)) ∧
      SameView lim pos m.tables (m.setEntry f₀ i₀ (tableEntry g)).tables ∧
      SameRoots pos (update pos g (some (r₀, path₀ ++ [i₀]))) := by
  have hlt40 := h.frame_lt (h.table_usable hg).1
  have he : tableEntry g ≠ 0 := by
    intro hz
    have := has_tableEntry g
    rw [hz] at this
    exact not_has_zero _ this
  have htarget := frameOf_tableEntry hlt40
  have htables : (m.setEntry f₀ i₀ (tableEntry g)).tables =
      store (update m.tables g fun _ => 0) f₀ i₀ (tableEntry g) := by
    rw [← hempty, update_eq_self]
    rfl
  have hroots : SameRoots pos (update pos g (some (r₀, path₀ ++ [i₀]))) := by
    intro r
    rw [update_apply]
    split
    next heq => simp [heq, hpos]
    next => exact .rfl
  have htree := h.tree.grow hf₀ hlow hi₀ hzero hpos he htarget
  rw [← htables] at htree
  refine ⟨{ h with tree := htree, inner := ?_, placed := ?_, own := ?_ }, ?_, hroots⟩
  · intro f r path hf hlen i hi hne
    rw [setEntry_apply] at hne ⊢
    by_cases hat : f = f₀ ∧ i = i₀
    · rw [if_pos hat]
      exact ⟨has_tableEntry g, not_huge_tableEntry hlt40⟩
    · rw [if_neg hat] at hne ⊢
      obtain ⟨rfl, -⟩ | ⟨-, hf⟩ := of_update hf
      · exact absurd (by rw [hempty]) hne
      · exact h.inner f r path hf hlen i hi hne
  · intro f p hf
    obtain ⟨rfl, -⟩ | ⟨-, hf⟩ := of_update hf
    · exact .inl hg
    · exact h.placed f p hf
  · intro f r path hf hhead
    obtain ⟨rfl, -⟩ | ⟨-, hf⟩ := of_update hf
    · exact hg
    · exact h.own f r path hf hhead
  · intro r v hr hv
    refine h.tree.value_same hr rfl (along_indices hv) htree ((hroots r).2 hr) ?_ ?_
    · intro q hq
      rw [update_of_ne (ne_of_none hpos hq), setEntry_apply, if_neg (not_lowest hf₀ hlow hq)]
      exact .inl ⟨hq, rfl⟩
    · intro q hq
      obtain ⟨rfl, -⟩ | ⟨-, hq⟩ := of_update hq
      · right
        rw [setEntry_apply, if_neg fun hc => ne_of_none hpos hf₀ hc.1.symm, hempty]
      · exact .inl hq

include hf₀ hlow in
/-- The link to an empty table is cleared. -/
theorem World.unlink (hi₀ : slots lim path₀ i₀)
    (hne : m.tables f₀ i₀ ≠ 0) (hempty : ∀ i < 512, m.tables (frameOf (m.tables f₀ i₀)) i = 0) :
    World lim U data (update pos (frameOf (m.tables f₀ i₀)) none) T (m.setEntry f₀ i₀ 0) ∧
      SameView lim pos m.tables (m.setEntry f₀ i₀ 0).tables ∧
      SameRoots pos (update pos (frameOf (m.tables f₀ i₀)) none) := by
  have hg := h.tree.child hf₀ hlow hi₀ hne
  have hempty' : ∀ i, slots lim (path₀ ++ [i₀]) i → m.tables (frameOf (m.tables f₀ i₀)) i = 0 :=
    fun i hi => hempty i hi.1
  have hroots : SameRoots pos (update pos (frameOf (m.tables f₀ i₀)) none) := by
    intro r
    rw [update_apply]
    split
    next heq => simp [heq, hg]
    next => exact .rfl
  have htree := h.tree.drop hf₀ hlow hi₀ hne hempty'
  refine ⟨{ h with
    tree := htree, inner := ?_
    placed := fun f p hf => h.placed f p (of_update_none hf).2
    own := fun f r path hf => h.own f r path (of_update_none hf).2 }, ?_, hroots⟩
  · intro f r path hf hlen i hi hne'
    rw [setEntry_apply] at hne' ⊢
    by_cases hat : f = f₀ ∧ i = i₀
    · rw [if_pos hat] at hne'
      exact absurd rfl hne'
    · rw [if_neg hat] at hne' ⊢
      exact h.inner f r path (of_update_none hf).2 hlen i hi hne'
  · intro r v hr hv
    refine h.tree.value_same hr rfl (along_indices hv) htree ((hroots r).2 hr) ?_
      fun q hq => .inl (of_update_none hq).2
    intro q hq
    by_cases hqg : q = frameOf (m.tables f₀ i₀)
    · rw [hqg, update_self]
      exact .inr ⟨rfl, hempty _ (ptIdx_lt v)⟩
    · rw [update_of_ne hqg, setEntry_apply, if_neg (not_lowest hf₀ hlow hq)]
      exact .inl ⟨hq, rfl⟩

/-! ## Entries and descriptors -/

/-- An entry of a lowest table is replaced. -/
theorem World.store {pt r : ℕ} {path : List ℕ}
    (hpt : pos pt = some (r, path)) (hlow : path.length = 3) (i : ℕ) (e : Pte) :
    World lim U data pos T (m.setEntry pt i e) ∧ ∀ r' v, pos r' = some (r', []) → pml4Idx v < lim →
        leaf (m.setEntry pt i e).tables r' v =
          if r' = r ∧ indices v = path ++ [i] then e else leaf m.tables r' v := by
  refine ⟨{ h with tree := h.tree.storeLow hpt hlow i e, inner := ?_ }, ?_⟩
  · intro f r' path' hf hlen j hj hne
    have hother : ¬ (f = pt ∧ j = i) := by
      rintro ⟨rfl, -⟩
      rw [hpt] at hf
      cases hf
      omega
    rw [setEntry_apply, if_neg hother] at hne ⊢
    exact h.inner f r' path' hf hlen j hj hne
  · intro r' v hr' hv
    exact h.tree.value_store hr' rfl (along_indices hv) hpt hlow e

/-- A page may be marked dirty. -/
theorem keepDirty_spec (old : Pte) (phys : ℕ) :
    World lim U data pos T (m.withPmm (keepDirty m.pmm old phys)) ∧
      ∀ u, Mild m.pmm (keepDirty m.pmm old phys) u := by
  unfold keepDirty
  cases pmmPaddrToPage m.pmm phys with
  | none => exact ⟨h, .refl m.pmm⟩
  | some p =>
    dsimp only
    split
    · have hmild : ∀ u, Mild m.pmm (orPageFlags m.pmm p pageFlagDirty) u := by
        intro u
        unfold orPageFlags
        by_cases hu : u = p
        · subst hu
          refine ⟨?_, ?_, ?_⟩
          all_goals rw [PmmState.pages_setPage, if_pos rfl]
          rw [or_and_distrib, show pageFlagDirty &&& ~~~pageFlagDirty = 0 by decide]
          simp
        · exact .of_same (sameDesc_setPage m.pmm hu _)
      refine ⟨?_, hmild⟩
      obtain ⟨L, hinv⟩ := h.inv
      refine h.withPmm ⟨L, hinv.setDesc rfl rfl rfl ?_ rfl fun _ => rfl⟩ rfl h.apart
        (fun _ _ _ hf => hf) ?_
      · rw [or_and_distrib, show pageFlagDirty &&& pageFlagFree = 0 by decide]
        simp
      · intro f hf
        rw [(hmild f).has (by decide)]
        exact h.clean f hf
    · exact ⟨h, .refl m.pmm⟩

end

/-! ## Contexts -/

/-- Before the first context nothing is known about the tables. -/
theorem World.start (lim : ℕ) {L : FreeLists} (hinv : Inv U s data L)
    (hnarrow : s.totalPageCount ≤ 2 ^ 40) (hnull : 0 ∉ U) (t : Tables) :
    World lim U data (fun _ => none) ∅ ⟨t, s⟩ := by
  have hheld : heldOf data ∅ = data := by
    funext q
    exact heldOf_of_not_mem (notMem_empty q)
  refine ⟨⟨L, ?_⟩, fun f hf => absurd hf (notMem_empty f), hnarrow, hnull, ?_, ?_, ?_, ?_,
    fun f hf => absurd hf (notMem_empty f)⟩
  · rw [hheld]
    exact hinv
  · exact ⟨(nomatch ·, ·, ·), (nomatch ·, ·, ·, ·), (nomatch ·, ·, ·, ·), (nomatch ·, ·, ·, ·, ·)⟩
  · exact (nomatch ·, ·, ·, ·)
  · exact (nomatch ·, ·, ·)
  · exact (nomatch ·, ·, ·, ·)

/-- A frame with an empty user half becomes a PML4. -/
theorem World.addRoot (h : World lim U data pos T m) (hf : f ∈ T) (hpos : pos f = none)
    (hempty : ∀ i < lim, m.tables f i = 0) :
    World lim U data (update pos f (some (f, []))) T m := by
  refine { h with tree := ⟨?_, ?_, ?_, ?_⟩, inner := ?_, placed := ?_, own := ?_ }
  · intro q r hq
    obtain ⟨rfl, hnew⟩ | ⟨-, hq⟩ := of_update hq
    · exact (Prod.mk.inj (some.inj hnew)).1
    · exact h.tree.root q r hq
  · intro q r path hq
    obtain ⟨-, hq⟩ | ⟨-, hq⟩ := of_update hq
    · cases hq
      exact Nat.zero_le 3
    · exact h.tree.short q r path hq
  · intro q r path hq hlen i hi
    obtain ⟨rfl, hnew⟩ | ⟨-, hq⟩ := of_update hq
    · cases hnew
      exact .inl (hempty i (hi.2 rfl))
    · rcases h.tree.entry q r path hq hlen i hi with hzero | hchild
      · exact .inl hzero
      · right
        rw [update_of_ne (ne_of_none hpos hchild), hchild]
  · intro g r path i hg
    obtain ⟨-, hg⟩ | ⟨-, hg⟩ := of_update hg
    · simp at hg
    · obtain ⟨q, hq, hi, hne, htarget⟩ := h.tree.linked g r path i hg
      refine ⟨q, ?_, hi, hne, htarget⟩
      rw [update_of_ne (ne_of_none hpos hq), hq]
  · intro q r path hq hlen i hi hne
    obtain ⟨rfl, hnew⟩ | ⟨-, hq⟩ := of_update hq
    · cases hnew
      exact absurd (hempty i (hi.2 rfl)) hne
    · exact h.inner q r path hq hlen i hi hne
  · intro q p hq
    obtain ⟨rfl, -⟩ | ⟨-, hq⟩ := of_update hq
    · exact .inl hf
    · exact h.placed q p hq
  · intro q r path hq hhead
    obtain ⟨rfl, -⟩ | ⟨-, hq⟩ := of_update hq
    · exact hf
    · exact h.own q r path hq hhead

/-- A new context: it maps nothing in its user half, and the other contexts are as they were. -/
theorem mmuCreateContext_spec (h : World lim U data pos T m) (hlim : lim ≤ 256) (cpu : ℕ)
    (mem : Bool) (kernel : ℕ) :
    ∃ m' r, mmuCreateContext cpu mem m kernel = some (m', r) ∧ Spared data m.pmm m'.pmm ∧
      (r = none → World lim U data pos T m' ∧ m'.tables = m.tables) ∧
      ∀ f, r = some f → World lim U data (update pos f (some (f, []))) (insert f T) m' ∧
        pos f = none ∧ SameView lim pos m.tables m'.tables ∧
        ∀ v, pml4Idx v < lim → leaf m'.tables f v = 0 := by
  unfold mmuCreateContext
  cases mem with
  | false => exact ⟨m, none, rfl, .refl data m.pmm, fun _ => ⟨h, rfl⟩, (nomatch ·, ·)⟩
  | true =>
    obtain ⟨m₁, r, hrun, hspared, hnone, hsome⟩ := allocTableFrame_spec h cpu
    rw [hrun, Option.bind_eq_bind, bind_some]
    cases r with
    | none => exact ⟨m₁, none, rfl, hspared, hnone, (nomatch ·, ·)⟩
    | some f =>
      obtain ⟨hworld, -, hfpos, htables⟩ := hsome f rfl
      refine ⟨_, some f, rfl, hspared, (nomatch ·), ?_⟩
      intro f' hf'
      obtain rfl : f = f' := some.inj hf'
      generalize htop : (fun i => if 256 ≤ i ∧ i < 512 then m₁.tables kernel i
        else m₁.tables f i) = top
      -- the user half of the new PML4 holds the zeroes of the allocation
      have hlow : ∀ i < lim, update m₁.tables f top f i = 0 := by
        intro i hi
        subst htop
        rw [update_self, if_neg (by omega), htables, update_self]
      have hother : ∀ q, pos q ≠ none → q ≠ f := by
        rintro q hq rfl
        exact hq hfpos
      have hagree : ∀ q, pos q ≠ none → update m₁.tables f top q = m₁.tables q :=
        fun q hq => update_of_ne (hother q hq) _ _
      have hagree' : ∀ q, pos q ≠ none → update m₁.tables f top q = m.tables q := by
        intro q hq
        rw [hagree q hq, htables, update_of_ne (hother q hq)]
      refine ⟨(hworld.withTables hagree).addRoot (mem_insert f T) hfpos hlow, hfpos,
        h.view_congr hagree', ?_⟩
      intro v hv
      exact value_zero (hlow _ hv)

end BoredOS.Mem.Mmu
