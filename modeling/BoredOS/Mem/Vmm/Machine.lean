import BoredOS.Lib.Tally
import BoredOS.Mem.Mmu.Run
import BoredOS.Mem.Vmm.Areas

/-!
# References and Counts

Page table entries refer to frames, and the reference count of a frame is to be at least the number
of entries that refer to it. `refs` is the partial function from entries to frames, and `Accounts`
is the relation between it and the page allocator. Behind an entry is a page that was allocated by
itself, or a page of a larger block that `kmalloc_aligned` has marked.

An entry is added and removed together with a reference, or removed alone, which leaves the count
too large.
-/

namespace BoredOS.Mem.Vmm

open Function BitVec Lib.Tally Lib.Tiling Lib.TableTree Pmm Mmu Set
open Option (bind_eq_some_iff bind_some map_some some.inj)

section

variable {κ : Type} {data : ℕ → Option Grant} {refs : κ → Option ℕ} {k : κ} {f : ℕ}

/-- The flags of pages that `vmm_unmap` and `vmm_destroy_space` do not release. -/
def foreignFlags : BitVec 32 := pageFlagFree ||| pageFlagSlab ||| pageFlagKmallocLarge

/-- A page that was allocated by itself. -/
def Single (data : ℕ → Option Grant) (s : PmmState) (f : ℕ) : Prop :=
  (∃ n, data f = some ⟨0, n⟩) ∧ ¬ Has (s.pages f).flags foreignFlags

/-- A page of a block from `kmalloc_aligned`. -/
structure Segment (data : ℕ → Option Grant) (s : PmmState) (f : ℕ) : Prop where
  held : ∃ q g, data q = some g ∧ f ∈ block g.order q
  marked : Has (s.pages f).flags pageFlagKmallocLarge
  order_lt : (s.pages f).order < maxOrder
  refcount_lt : (s.pages f).refcount < 2 ^ 32

/-- The counts of the allocator cover the references. -/
structure Accounts {κ : Type} (data : ℕ → Option Grant) (s : PmmState)
    (refs : κ → Option ℕ) : Prop where
  support : FiniteSupport refs
  kind : ∀ k f, refs k = some f → Single data s f ∨ Segment data s f
  covered : ∀ f, 0 < tally refs f → tally refs f ≤ (s.pages f).refcount

variable {n : ℕ}

section

variable {s s' : PmmState}

theorem Single.mild (h : Single data s f) (hmild : Mild s s' f) : Single data s' f :=
  ⟨h.1, fun hhas => h.2 ((hmild.has (by decide)).1 hhas)⟩

theorem Segment.mild (h : Segment data s f) (hmild : Mild s s' f) : Segment data s' f :=
  ⟨h.held, (hmild.has (by decide)).2 h.marked, hmild.order ▸ h.order_lt,
    hmild.refcount ▸ h.refcount_lt⟩

/-- The page lies in a block of `data`. -/
theorem held_of_kind (h : Single data s f ∨ Segment data s f) :
    ∃ q g, data q = some g ∧ f ∈ block g.order q := by
  rcases h with ⟨⟨n, hn⟩, -⟩ | hsegment
  · exact ⟨f, ⟨0, n⟩, hn, head_mem_block 0 f⟩
  · exact hsegment.held

theorem kind_mild (h : Single data s f ∨ Segment data s f) (hspared : Spared data s s') :
    Mild s s' f := by
  obtain ⟨q, g, hq, hf⟩ := held_of_kind h
  exact hspared.desc q g hq f hf

/-- The allocator changes and spares what is held. -/
theorem Accounts.spared (h : Accounts data s refs) (hspared : Spared data s s') :
    Accounts data s' refs := by
  have hmild : ∀ k f, refs k = some f → Mild s s' f :=
    fun k f hk => kind_mild (h.kind k f hk) hspared
  refine ⟨h.support, ?_, ?_⟩
  · intro k f hk
    exact (h.kind k f hk).imp (·.mild (hmild k f hk)) (·.mild (hmild k f hk))
  · intro f hpos
    obtain ⟨k, hk⟩ := (tally_pos_iff h.support).1 hpos
    rw [(hmild k f hk).refcount]
    exact h.covered f hpos

variable {refs' : κ → Option ℕ}

variable (h : Accounts data s refs) (hsupport : FiniteSupport refs')
  (hrefs : ∀ f' ≠ f, ∀ k, refs' k = some f' ↔ refs k = some f')

include h hsupport hrefs in
/-- The references to one page, its count and its kind change; what concerns the other pages
stays. -/
theorem Accounts.recount {data' : ℕ → Option Grant}
    (hother : ∀ f' ≠ f, Single data s f' ∨ Segment data s f' → Mild s s' f' ∧
      (Single data s f' → Single data' s' f') ∧ (Segment data s f' → Segment data' s' f'))
    (hself : 0 < tally refs' f → (Single data' s' f ∨ Segment data' s' f) ∧
      tally refs' f ≤ (s'.pages f).refcount) : Accounts data' s' refs' := by
  refine ⟨hsupport, ?_, ?_⟩
  · intro k f' hk
    by_cases hff : f' = f
    · subst hff
      exact (hself (tally_pos hsupport hk)).1
    · have hkind := h.kind k f' ((hrefs f' hff k).1 hk)
      obtain ⟨-, hsingle, hsegment⟩ := hother f' hff hkind
      exact hkind.imp hsingle hsegment
  · intro f' hpos
    by_cases hff : f' = f
    · subst hff
      exact (hself hpos).2
    · obtain ⟨k, hk⟩ := (tally_pos_iff hsupport).1 hpos
      have hk' := (hrefs f' hff k).1 hk
      obtain ⟨hmild, -, -⟩ := hother f' hff (h.kind k f' hk')
      rw [tally_congr (hrefs f' hff), hmild.refcount]
      exact h.covered f' (tally_pos h.support hk')

theorem other_refs [DecidableEq κ] {x : Option ℕ} (hk : ∀ f' ∈ refs k, f' = f)
    (hx : ∀ f' ∈ x, f' = f) : ∀ f' ≠ f, ∀ k', update refs k x k' = some f' ↔ refs k' = some f' := by
  intro f' hne k'
  rw [update_apply]
  split
  next heq =>
    subst heq
    exact ⟨fun hc => absurd (hx f' hc) hne, fun hc => absurd (hk f' hc) hne⟩
  next => exact .rfl

/-- Entries go and their references stay. -/
theorem Accounts.shrink (h : Accounts data s refs)
    (hsub : ∀ k f, refs' k = some f → refs k = some f) : Accounts data s refs' := by
  have hsupport : FiniteSupport refs' := by
    apply h.support.mono
    intro k hk
    cases hk' : refs' k with
    | none => rfl
    | some f =>
      rw [hsub k f hk'] at hk
      cases hk
  refine ⟨hsupport, fun k f hk => h.kind k f (hsub k f hk), ?_⟩
  intro f hpos
  obtain ⟨k, hk⟩ := (tally_pos_iff hsupport).1 hpos
  have hle := tally_mono h.support fun k => hsub k f
  exact le_trans hle (h.covered f (tally_pos h.support (hsub k f hk)))

/-- An entry is added for a page with a reference to spare. -/
theorem Accounts.add [DecidableEq κ] (h : Accounts data s refs) (hk : refs k = none)
    (hkind : Single data s f ∨ Segment data s f) (hroom : tally refs f < (s.pages f).refcount) :
    Accounts data s (update refs k (some f)) := by
  have hcount : tally (update refs k (some f)) f = tally refs f + 1 :=
    tally_insert_self h.support (by rw [hk]; simp)
  apply h.recount (f := f) (h.support.update k (some f))
  · apply other_refs
    · rw [hk]
      exact fun f' hf' => nomatch hf'
    · exact fun f' hf' => (some.inj hf').symm
  · exact fun f' _ _ => ⟨.refl s f', id, id⟩
  · intro _
    rw [hcount]
    exact ⟨hkind, hroom⟩

/-- Pages apart from a single one are held by other blocks. -/
theorem kind_other {f' : ℕ} (hf : data f = some ⟨0, n⟩) (hne : f' ≠ f) (x : Option Grant)
    (hspared : Spared (update data f none) s s') (h : Single data s f' ∨ Segment data s f') :
    Mild s s' f' ∧ (Single data s f' → Single (update data f x) s' f') ∧
      (Segment data s f' → Segment (update data f x) s' f') := by
  have hout : ∀ q g, data q = some g → f' ∈ block g.order q → q ≠ f := by
    rintro q g hq hmem rfl
    rw [hf] at hq
    cases hq
    obtain ⟨hle, hlt⟩ : q ≤ f' ∧ f' < q + 1 := hmem
    exact hne (by omega)
  obtain ⟨q, g, hq, hmem⟩ := held_of_kind h
  have hmild : Mild s s' f' := by
    apply hspared.desc q g _ f' hmem
    rw [update_of_ne (hout q g hq hmem)]
    exact hq
  refine ⟨hmild, ?_, ?_⟩
  · rintro ⟨⟨n', hn'⟩, hflags⟩
    refine .mild ⟨⟨n', ?_⟩, hflags⟩ hmild
    rw [update_of_ne hne]
    exact hn'
  · rintro ⟨⟨q, g, hq, hmem⟩, hflags, horder, hrefs⟩
    refine .mild ⟨⟨q, g, ?_, hmem⟩, hflags, horder, hrefs⟩ hmild
    rw [update_of_ne (hout q g hq hmem)]
    exact hq

theorem regrant_order (f refs : ℕ) {q : ℕ} {g : Grant} (hq : data q = some g) :
    ∃ n, regrant data f refs q = some ⟨g.order, n⟩ := by
  unfold regrant
  by_cases heq : q = f
  · subst heq
    rw [update_self, hq]
    exact ⟨refs, rfl⟩
  · rw [update_of_ne heq, hq]
    exact ⟨g.refs, rfl⟩

/-- The kind of a page does not depend on the counts. -/
theorem kind_regrant {f' refs : ℕ} (hlt : refs < 2 ^ 32) :
    (Single data s f' → Single (regrant data f refs)
        (s.setPage f { s.pages f with refcount := refs }) f') ∧
      (Segment data s f' → Segment (regrant data f refs)
        (s.setPage f { s.pages f with refcount := refs }) f') := by
  have hpage : (s.setPage f { s.pages f with refcount := refs }).pages f' =
      { s.pages f' with refcount := if f' = f then refs else (s.pages f').refcount } := by
    rw [PmmState.pages_setPage]
    split
    next heq => rw [heq]
    next => rfl
  constructor
  · rintro ⟨⟨n, hn⟩, hflags⟩
    refine ⟨regrant_order f refs hn, ?_⟩
    rw [hpage]
    exact hflags
  · rintro ⟨⟨q, g, hq, hmem⟩, hflags, horder, hrefs⟩
    obtain ⟨n, hn⟩ := regrant_order f refs hq
    refine ⟨⟨q, _, hn, hmem⟩, ?_, ?_, ?_⟩
    · rw [hpage]
      exact hflags
    · rw [hpage]
      exact horder
    · rw [hpage]
      split
      next => exact hlt
      next => exact hrefs

include h hsupport hrefs in
/-- The count of a page and the references to it change. -/
theorem Accounts.setRefs
    (hkind : Single data s f ∨ Segment data s f) (hlt : n < 2 ^ 32) (hcovered : tally refs' f ≤ n) :
    Accounts (regrant data f n) (s.setPage f { s.pages f with refcount := n }) refs' := by
  have hcount : ((s.setPage f { s.pages f with refcount := n }).pages f).refcount = n := by
    rw [PmmState.pages_setPage, if_pos rfl]
  apply h.recount (f := f) hsupport hrefs
  · intro f' hne _
    exact ⟨.of_same (sameDesc_setPage s hne _), (kind_regrant hlt).1, (kind_regrant hlt).2⟩
  · intro _
    rw [hcount]
    exact ⟨hkind.imp (kind_regrant hlt).1 (kind_regrant hlt).2, hcovered⟩

/-- A page with more than one reference loses one. -/
theorem pmmPageUnref_many (hrefs : (s.pages f).refcount = n) (hone : 1 < n)
    (horder : (s.pages f).order < maxOrder) (hlt : n < 2 ^ 32) (cpu : ℕ) :
    pmmPageUnref s cpu f = s.setPage f { s.pages f with refcount := n - 1 } := by
  have hmod : (n + (2 ^ 32 - 1)) % 2 ^ 32 = n - 1 := by omega
  unfold pmmPageUnref pmmFreeOrder
  rw [if_neg (not_le.2 horder), hrefs]
  dsimp only
  rw [hmod, if_pos hone]

end

variable [DecidableEq κ] {lim : ℕ} {U : Set ℕ} {pos : ℕ → Option Spot} {T : Set ℕ} {m : Mm}

theorem Single.not_free (h : Single data m.pmm f) : ¬ Has (m.pmm.pages f).flags pageFlagFree := by
  intro hhas
  apply h.2
  intro hzero
  unfold foreignFlags at hzero
  rw [and_or_distrib_left, and_or_distrib_left] at hzero
  exact hhas (or_eq_zero_iff.1 (or_eq_zero_iff.1 hzero).1).1

section

variable (hw : World lim U data pos T m) (h : Single data m.pmm f ∨ Segment data m.pmm f)

include hw h

theorem kind_not_table : f ∉ T := by
  obtain ⟨q, g, hq, hf⟩ := held_of_kind h
  intro hmem
  obtain ⟨L, hinv⟩ := hw.inv
  have heq := hinv.block_unique (hw.heldOf_data hq) (heldOf_of_mem hmem) hf (head_mem_block 0 f)
  exact hw.not_table hq (heq ▸ hmem)

theorem kind_refcount_lt : (m.pmm.pages f).refcount < 2 ^ 32 := by
  rcases h with ⟨⟨n, hn⟩, -⟩ | hsegment
  · rw [(hw.granted hn).refcountField]
    exact (hw.granted hn).refs_lt
  · exact hsegment.refcount_lt

theorem kind_order_lt : (m.pmm.pages f).order < maxOrder := by
  rcases h with ⟨⟨n, hn⟩, -⟩ | hsegment
  · rw [(hw.granted hn).orderField]
    exact (hw.granted hn).order_lt
  · exact hsegment.order_lt

end

variable (h : Accounts data m.pmm refs)

include h

section

variable (hw : World lim U data pos T m)

include hw

/-- An entry goes together with a reference that is not the last. -/
theorem Accounts.releaseMany
    (hk : refs k = some f) (hmany : 1 < (m.pmm.pages f).refcount) (cpu : ℕ) :
    World lim U (regrant data f ((m.pmm.pages f).refcount - 1)) pos T
        (m.withPmm (pmmPageUnref m.pmm cpu f)) ∧
      Accounts (regrant data f ((m.pmm.pages f).refcount - 1)) (pmmPageUnref m.pmm cpu f)
        (update refs k none) := by
  have hkind := h.kind k f hk
  have hlt := kind_refcount_lt hw hkind
  have hcount := tally_erase_self h.support hk
  have hcovered := h.covered f (tally_pos h.support hk)
  rw [pmmPageUnref_many rfl hmany (kind_order_lt hw hkind) hlt cpu]
  refine ⟨hw.setRefs (kind_not_table hw hkind) (by omega) (by omega), ?_⟩
  apply h.setRefs (h.support.update k none) _ hkind (by omega) (by omega)
  apply other_refs
  · rw [hk]
    exact fun f' hf' => (some.inj hf').symm
  · exact fun f' hf' => nomatch hf'

/-- An entry goes together with its reference to a single page, which is returned with the last. -/
theorem Accounts.release (hk : refs k = some f) (hf : Single data m.pmm f) (cpu : ℕ) :
    ∃ data', World lim U data' pos T (m.withPmm (pmmPageUnref m.pmm cpu f)) ∧
      Accounts data' (pmmPageUnref m.pmm cpu f) (update refs k none) ∧
      Spared (update data f none) m.pmm (pmmPageUnref m.pmm cpu f) := by
  obtain ⟨n, hn⟩ := hf.1
  have hrefs : (m.pmm.pages f).refcount = n := (hw.granted hn).refcountField
  obtain ⟨hworld, hspared⟩ := hw.unref hn hf.not_free cpu
  have hcount := tally_erase_self h.support hk
  have hcovered := h.covered f (tally_pos h.support hk)
  rcases lt_or_ge 1 n with hmany | hlast
  · obtain ⟨hworld', haccounts⟩ := h.releaseMany hw hk (by rw [hrefs]; exact hmany) cpu
    exact ⟨_, hworld', haccounts, hspared⟩
  · -- the last reference: the frame is free again
    have hdata : dropRef data f = update data f none := by
      unfold dropRef
      rw [hn, Option.bind_some, if_pos hlast]
    rw [hdata] at hworld
    refine ⟨_, hworld, ?_, hspared⟩
    apply h.recount (f := f) (h.support.update k none)
    · apply other_refs
      · rw [hk]
        exact fun f' hf' => (some.inj hf').symm
      · exact fun f' hf' => nomatch hf'
    · exact fun f' hne hkind => kind_other hn hne none hspared hkind
    · intro hpos
      omega

/-- A page gets a reference and, with it, an entry. Without the entry the count is too large. -/
theorem Accounts.retain (hkind : Single data m.pmm f ∨ Segment data m.pmm f)
    (hcovered : tally refs f ≤ (m.pmm.pages f).refcount) (hk : refs k = none)
    (hlt : (m.pmm.pages f).refcount + 1 < 2 ^ 32) :
    World lim U (regrant data f ((m.pmm.pages f).refcount + 1)) pos T
        (m.withPmm (pmmPageRef m.pmm f)) ∧
      Accounts (regrant data f ((m.pmm.pages f).refcount + 1)) (pmmPageRef m.pmm f)
        (update refs k (some f)) ∧
      Accounts (regrant data f ((m.pmm.pages f).refcount + 1)) (pmmPageRef m.pmm f) refs := by
  have hrun : pmmPageRef m.pmm f = m.pmm.setPage f
      { m.pmm.pages f with refcount := (m.pmm.pages f).refcount + 1 } := by
    unfold pmmPageRef
    rw [Nat.mod_eq_of_lt hlt]
  have hcount : tally (update refs k (some f)) f = tally refs f + 1 :=
    tally_insert_self h.support (by rw [hk]; simp)
  rw [hrun]
  refine ⟨hw.setRefs (kind_not_table hw hkind) (Nat.succ_pos _) hlt, ?_, ?_⟩
  · apply h.setRefs (h.support.update k (some f)) _ hkind hlt (by omega)
    apply other_refs
    · rw [hk]
      exact fun f' hf' => nomatch hf'
    · exact fun f' hf' => (some.inj hf').symm
  · exact h.setRefs h.support (fun _ _ _ => .rfl) hkind hlt (by omega)

end

omit [DecidableEq κ] in
/-- A new page has no entry yet. -/
theorem Accounts.gain {s : PmmState} {flags : BitVec 32}
    (hnew : NewPage U data T flags s f) (hspared : Spared data m.pmm s)
    (hflags : flags &&& ~~~pageFlagZero = 0) :
    Accounts (update data f (some ⟨0, 1⟩)) s refs ∧
      Single (update data f (some ⟨0, 1⟩)) s f ∧ tally refs f = 0 := by
  -- what is referred to is held, and the new page was not
  have hnone : ∀ k, refs k ≠ some f := by
    intro k hk
    obtain ⟨q, g, hq, hf⟩ := held_of_kind (h.kind k f hk)
    exact hnew.apart q g hq hf
  have hzero : tally refs f = 0 := by
    by_contra hne
    obtain ⟨k, hk⟩ := (tally_pos_iff h.support).1 (pos_of_ne_zero hne)
    exact hnone k hk
  refine ⟨?_, ⟨⟨1, update_self f _ _⟩, ?_⟩, hzero⟩
  · apply (h.spared hspared).recount (f := f) h.support (fun _ _ _ => .rfl)
    · intro f' hne _
      refine ⟨.refl s f', ?_, ?_⟩
      · rintro ⟨⟨n, hn⟩, hfl⟩
        refine ⟨⟨n, ?_⟩, hfl⟩
        rw [update_of_ne hne]
        exact hn
      · rintro ⟨⟨q, g, hq, hmem⟩, hfl, horder, hrefs⟩
        refine ⟨⟨q, g, ?_, hmem⟩, hfl, horder, hrefs⟩
        rw [update_of_ne]
        · exact hq
        · rintro rfl
          rw [hnew.free] at hq
          cases hq
    · intro hpos
      omega
  · rw [hnew.flagsField, hflags]
    decide

end

/-!
## Address Spaces over Page Tables

A machine has any number of address spaces, each known by the frame of its PML4. `Sound` ties the
layers together: the page tables of the spaces are a forest in frames of the allocator
(`Mmu.World`), and the counts of the frames cover the entries that refer to them (`Accounts`).

The zero page is outside of the account, its count only ever grows. Which other pages are counted
depends on the area that they lie in: `counts` is told the type of the area and whether it is
shared. Pages in shared areas are mapped into clones without a reference, and only pages in private
anonymous areas are ever released.
-/

/-! ## Machines -/

/-- The machine and the spaces that exist, by the frame of the PML4. -/
structure Machine where
  vm : Vm
  spaces : ℕ → Option Space

namespace Machine

def entry (s : Machine) (r v : ℕ) : Pte := leaf s.vm.mm.tables r v

def setSpace (s : Machine) (r : ℕ) (sp : Space) : Machine :=
  { s with spaces := update s.spaces r (some sp) }

/-- The page tables and the page allocator change. -/
def withMm (s : Machine) (m : Mm) : Machine := { s with vm := s.vm.withMm m }

end Machine

def UserPage (v : ℕ) : Prop := v % pageSize = 0 ∧ v < 2 ^ 47
  deriving Decidable

theorem UserPage.page {v : ℕ} (h : UserPage v) : Mmu.Page 256 v := by
  refine ⟨.inl h.2, h.1, ?_⟩
  have := h.2
  unfold pml4Idx
  omega

/-- The type of the area around an address, and whether it is shared. -/
def areaKind (vmas : List Area) (v : ℕ) : Option (VmaType × Bool) :=
  (vmaFind vmas v).map fun a => (a.type, decide (Has a.flags vmaFlagShared))

/-- All entries are counted, except in shared areas. -/
def unshared : Option (VmaType × Bool) → Bool
  | some (_, true) => false
  | _ => true

/-- The frame for whose count an entry stands, if it stands for one. -/
def refOf (counts : Option (VmaType × Bool) → Bool) (zero : Option ℕ) (vmas : List Area) (v : ℕ)
    (e : Pte) : Option ℕ :=
  if Has e ptPresent ∧ some (frameOf e) ≠ zero ∧ counts (areaKind vmas v) = true then
    some (frameOf e)
  else none

/-- The references of all entries. -/
def refsOf (counts : Option (VmaType × Bool) → Bool) (s : Machine) (k : ℕ × ℕ) : Option ℕ :=
  (s.spaces k.1).bind fun sp =>
    if UserPage k.2 then refOf counts s.vm.zeroPage sp.vmas k.2 (s.entry k.1 k.2) else none

/-! ## The invariant -/

/-- The invariant of the machine. -/
structure Sound (counts : Option (VmaType × Bool) → Bool) (U : Set ℕ)
    (data : ℕ → Option Grant) (pos : ℕ → Option Spot) (T : Set ℕ) (s : Machine) : Prop where
  world : World 256 U data pos T s.vm.mm
  root : ∀ r, pos r = some (r, []) ↔ (s.spaces r).isSome = true
  pml4 : ∀ r sp, s.spaces r = some sp → sp.pml4 = r
  wellFormed : ∀ r sp, s.spaces r = some sp → WellFormed sp.vmas
  zero : ∀ z, s.vm.zeroPage = some z → z ∉ U ∧ 0 < z ∧ z < s.vm.mm.pmm.totalPageCount
  accounts : Accounts data s.vm.mm.pmm (refsOf counts s)

variable {m : Mm}

section

variable {counts : Option (VmaType × Bool) → Bool} {U : Set ℕ}
  {data data' : ℕ → Option Grant} {pos pos' : ℕ → Option Spot} {T T' : Set ℕ} {s : Machine}
  {r v : ℕ} {sp : Space}

variable (h : Sound counts U data pos T s)

include h in
theorem Sound.root_pos (hr : s.spaces r = some sp) : pos r = some (r, []) :=
  (h.root r).2 (by rw [hr]; rfl)

theorem refsOf_space (hr : s.spaces r = some sp) (hv : UserPage v) :
    refsOf counts s (r, v) = refOf counts s.vm.zeroPage sp.vmas v (s.entry r v) := by
  unfold refsOf
  rw [hr]
  exact if_pos hv

theorem refOf_absent {zero : Option ℕ} {vmas : List Area} {e : Pte} (h : ¬ Has e ptPresent) :
    refOf counts zero vmas v e = none :=
  if_neg fun hc => h hc.1

/-- A reference comes from a present entry of a space. -/
theorem refsOf_eq_some {k : ℕ × ℕ} {f : ℕ} (h : refsOf counts s k = some f) :
    ∃ sp, s.spaces k.1 = some sp ∧ frameOf (s.entry k.1 k.2) = f ∧
      counts (areaKind sp.vmas k.2) = true := by
  obtain ⟨sp, hsp, hsome⟩ := bind_eq_some_iff.1 h
  split at hsome
  next =>
    unfold refOf at hsome
    split at hsome
    next hcond =>
      cases hsome
      exact ⟨sp, hsp, rfl, hcond.2.2⟩
    next => cases hsome
  next => cases hsome

/-- A reference only depends on the space and the entry. -/
theorem refsOf_congr {s' : Machine} {k : ℕ × ℕ} (hspaces : s'.spaces k.1 = s.spaces k.1)
    (hzero : s'.vm.zeroPage = s.vm.zeroPage)
    (hentry : ∀ sp, s.spaces k.1 = some sp → UserPage k.2 → s'.entry k.1 k.2 = s.entry k.1 k.2) :
    refsOf counts s' k = refsOf counts s k := by
  unfold refsOf
  rw [hspaces, hzero]
  cases hr : s.spaces k.1 with
  | none => rfl
  | some sp =>
    by_cases hv : UserPage k.2
    · rw [hentry sp hr hv]
    · simp only [hv, if_false]

include h in
theorem Sound.zero_of_total (htotal : m.pmm.totalPageCount = s.vm.mm.pmm.totalPageCount) (z : ℕ)
    (hz : s.vm.zeroPage = some z) : z ∉ U ∧ 0 < z ∧ z < m.pmm.totalPageCount := by
  rw [htotal]
  exact h.zero z hz

include h in
/-- The machine after changes of page table entries; the spaces are the same. -/
theorem Sound.withMm (hworld : World 256 U data' pos' T' m) (hroots : SameRoots pos pos')
    (htotal : m.pmm.totalPageCount = s.vm.mm.pmm.totalPageCount)
    (haccounts : Accounts data' m.pmm (refsOf counts (s.withMm m))) :
    Sound counts U data' pos' T' (s.withMm m) := by
  refine ⟨hworld, fun r' => ?_, h.pml4, h.wellFormed, h.zero_of_total htotal, haccounts⟩
  rw [hroots r']
  exact h.root r'

/-- The references after the entries of one space have changed. -/
theorem refsOf_withMm (hr : s.spaces r = some sp) {e : ℕ → Pte}
    (hleaf : ∀ r' sp' v', s.spaces r' = some sp' → UserPage v' → leaf m.tables r' v' =
      if r' = r then e v' else s.entry r' v') (k : ℕ × ℕ) :
    refsOf counts (s.withMm m) k =
      if k.1 = r ∧ UserPage k.2 then refOf counts s.vm.zeroPage sp.vmas k.2 (e k.2)
      else refsOf counts s k := by
  split
  next hk =>
    obtain ⟨hroot, hv⟩ := hk
    have hr' : s.spaces k.1 = some sp := hroot ▸ hr
    rw [← (hleaf k.1 sp k.2 hr' hv).trans (if_pos hroot)]
    exact refsOf_space (s := s.withMm m) hr' hv
  next hk =>
    refine refsOf_congr rfl rfl fun sp' hr' hv => (hleaf k.1 sp' k.2 hr' hv).trans (if_neg ?_)
    exact fun hroot => hk ⟨hroot, hv⟩

/-- One entry of the machine is `e` now, the others are as they were. -/
def Touched (s s' : Machine) (r v : ℕ) (e : Pte) : Prop :=
  ∀ r' sp' v', s.spaces r' = some sp' → UserPage v' →
    s'.entry r' v' = if (r', v') = (r, v) then e else s.entry r' v'

theorem Touched.of_same {s' : Machine} (r v : ℕ) (h : ∀ r' sp' v', s.spaces r' = some sp' →
    UserPage v' → s'.entry r' v' = s.entry r' v') : Touched s s' r v (s.entry r v) := by
  intro r' sp' v' hr' hv'
  rw [h r' sp' v' hr' hv']
  split
  next heq =>
    cases heq
    rfl
  next => rfl

include h in
/-- The machine after the entry of one page has changed. -/
theorem Sound.remap (hr : s.spaces r = some sp)
    (hv : UserPage v) {e : Pte} (hworld : World 256 U data' pos' T' m)
    (hroots : SameRoots pos pos') (htotal : m.pmm.totalPageCount = s.vm.mm.pmm.totalPageCount)
    (hleaf : ∀ r' v', pos r' = some (r', []) → pml4Idx v' < 256 → leaf m.tables r' v' =
      if r' = r ∧ indices v' = indices v then e else leaf s.vm.mm.tables r' v')
    (haccounts : Accounts data' m.pmm
      (update (refsOf counts s) (r, v) (refOf counts s.vm.zeroPage sp.vmas v e))) :
    Sound counts U data' pos' T' (s.withMm m) ∧ Touched s (s.withMm m) r v e ∧
      refsOf counts (s.withMm m) =
        update (refsOf counts s) (r, v) (refOf counts s.vm.zeroPage sp.vmas v e) := by
  have hview : Touched s (s.withMm m) r v e := by
    intro r' sp' v' hr' hv'
    refine (hleaf r' v' (h.root_pos hr') hv'.page.governed).trans ?_
    simp only [indices_inj hv'.page hv.page, Prod.mk.injEq]
    rfl
  have hrefs : refsOf counts (s.withMm m) =
      update (refsOf counts s) (r, v) (refOf counts s.vm.zeroPage sp.vmas v e) := by
    funext k
    by_cases hk : k = (r, v)
    · subst hk
      rw [update_self, ← (hview r sp v hr hv).trans (if_pos rfl)]
      exact refsOf_space (s := s.withMm m) hr hv
    · rw [update_of_ne hk]
      exact refsOf_congr rfl rfl fun sp' hr' hv' => (hview k.1 sp' k.2 hr' hv').trans (if_neg hk)
  refine ⟨h.withMm hworld hroots htotal ?_, hview, hrefs⟩
  rw [hrefs]
  exact haccounts

include h in
/-- The tables changed, no entry of a page did, and the counts are the same. -/
theorem Sound.settle (hworld : World 256 U data' pos' T' m) (hroots : SameRoots pos pos')
    (htotal : m.pmm.totalPageCount = s.vm.mm.pmm.totalPageCount)
    (hview : SameView 256 pos s.vm.mm.tables m.tables)
    (haccounts : Accounts data' m.pmm (refsOf counts s)) :
    Sound counts U data' pos' T' (s.withMm m) ∧
      ∀ r sp v, s.spaces r = some sp → UserPage v → (s.withMm m).entry r v = s.entry r v := by
  have hentry : ∀ r sp v, s.spaces r = some sp → UserPage v → leaf m.tables r v = s.entry r v :=
    fun r sp v hr hv => hview r v (h.root_pos hr) hv.page.governed
  have hrefs : refsOf counts (s.withMm m) = refsOf counts s := by
    funext k
    exact refsOf_congr rfl rfl fun sp hr hv => hentry k.1 sp k.2 hr hv
  refine ⟨h.withMm hworld hroots htotal ?_, hentry⟩
  rw [hrefs]
  exact haccounts

theorem spaces_setSpace (s : Machine) (r : ℕ) (sp : Space) (r' : ℕ) :
    (s.setSpace r sp).spaces r' = if r' = r then some sp else s.spaces r' :=
  update_apply ..

theorem spaces_setSpace_cases {r' : ℕ} {sp' : Space} (h : (s.setSpace r sp).spaces r' = some sp') :
    r' = r ∧ sp' = sp ∨ s.spaces r' = some sp' := by
  rw [spaces_setSpace] at h
  split at h
  next heq =>
    cases h
    exact .inl ⟨heq, rfl⟩
  next => exact .inr h

include h in
/-- A space is added or replaced, with or without a change of the tables. -/
theorem Sound.setSpace (hworld : World 256 U data' pos' T' m)
    (hroots : ∀ r', pos' r' = some (r', []) ↔ r' = r ∨ pos r' = some (r', []))
    (htotal : m.pmm.totalPageCount = s.vm.mm.pmm.totalPageCount) (hpml4 : sp.pml4 = r)
    (hwf : WellFormed sp.vmas)
    (hrefs : refsOf counts ((s.withMm m).setSpace r sp) = refsOf counts s)
    (haccounts : Accounts data' m.pmm (refsOf counts s)) :
    Sound counts U data' pos' T' ((s.withMm m).setSpace r sp) := by
  refine ⟨hworld, fun r' => ?_, ?_, ?_, h.zero_of_total htotal, hrefs ▸ haccounts⟩
  · rw [hroots r', spaces_setSpace, h.root r']
    by_cases heq : r' = r
    · simp [heq]
    · simp [heq, Machine.withMm]
  · intro r' sp' hr'
    obtain ⟨rfl, rfl⟩ | hr' := spaces_setSpace_cases hr'
    · exact hpml4
    · exact h.pml4 r' sp' hr'
  · intro r' sp' hr'
    obtain ⟨rfl, rfl⟩ | hr' := spaces_setSpace_cases hr'
    · exact hwf
    · exact h.wellFormed r' sp' hr'

include h in
/-- The areas of a space change, and what its entries stand for does not. -/
theorem Sound.respace (hr : s.spaces r = some sp)
    {sp' : Space} (hpml4 : sp'.pml4 = sp.pml4) (hwf : WellFormed sp'.vmas)
    (hrefs : ∀ v, UserPage v → refOf counts s.vm.zeroPage sp'.vmas v (s.entry r v) =
      refOf counts s.vm.zeroPage sp.vmas v (s.entry r v)) :
    Sound counts U data pos T (s.setSpace r sp') := by
  refine h.setSpace h.world (fun r' => (or_iff_right_of_imp ?_).symm) rfl
    (hpml4.trans (h.pml4 r sp hr)) hwf ?_ h.accounts
  · rintro rfl
    exact h.root_pos hr
  · funext k
    by_cases hk : k.1 = r
    · subst hk
      unfold refsOf
      rw [spaces_setSpace, if_pos rfl, hr, bind_some, bind_some]
      split
      next hv => exact hrefs k.2 hv
      next => rfl
    · exact refsOf_congr (update_of_ne hk _ _) rfl fun _ _ _ => rfl

/-- Every present entry of a space lies in one of its areas. -/
def Covered (s : Machine) (r : ℕ) (vmas : List Area) : Prop :=
  ∀ v, UserPage v → Has (s.entry r v) ptPresent → ∃ a ∈ vmas, a.Covers v

/-- Around the pages that are mapped the new areas have the type and the flags of the old ones. -/
def AreasKept (s : Machine) (r : ℕ) (vmas vmas' : List Area) : Prop :=
  ∀ v, UserPage v → Has (s.entry r v) ptPresent → ∀ a ∈ vmas, a.Covers v →
    ∃ b ∈ vmas', b.Covers v ∧ b.flags = a.flags ∧ b.type = a.type

include h in
theorem Sound.rearea (hr : s.spaces r = some sp)
    (hcovered : Covered s r sp.vmas) (sp' : Space) (hpml4 : sp'.pml4 = sp.pml4)
    (hwf : WellFormed sp'.vmas) (hkept : AreasKept s r sp.vmas sp'.vmas) :
    Sound counts U data pos T (s.setSpace r sp') := by
  refine h.respace hr hpml4 hwf fun v hv => ?_
  by_cases hpresent : Has (s.entry r v) ptPresent
  · obtain ⟨a, ha, hav⟩ := hcovered v hv hpresent
    obtain ⟨b, hb, hbv, hflags, htype⟩ := hkept v hv hpresent a ha hav
    unfold refOf areaKind
    rw [(h.wellFormed r sp hr).find_eq_some.2 ⟨ha, hav⟩, hwf.find_eq_some.2 ⟨hb, hbv⟩,
      map_some, map_some, hflags, htype]
  · rw [refOf_absent hpresent, refOf_absent hpresent]

/-! ## The first states -/

theorem Accounts.blank (hrefs : ∀ k, refsOf counts s k = none) :
    Accounts data s.vm.mm.pmm (refsOf counts s) := by
  have hempty : refsOf counts s = fun _ => none := funext hrefs
  rw [hempty]
  refine ⟨?_, (nomatch ·, ·, ·), ?_⟩
  · unfold FiniteSupport
    simp
  · intro f hpos
    have hzero : tally (fun _ : ℕ × ℕ => (none : Option ℕ)) f = 0 := by
      unfold tally
      simp
    omega

/-- `vmm_init` sets a page aside. -/
theorem Sound.init (counts : Option (VmaType × Bool) → Bool) {L : FreeLists}
    (hinv : Inv U m.pmm data L) (hnarrow : m.pmm.totalPageCount ≤ 2 ^ 40) (hnull : 0 ∉ U) (cpu : ℕ)
    (bytes : ℕ → ℕ → BitVec 8) :
    ∃ vm, vmmInit cpu m bytes = some vm ∧
      ∃ U', Sound counts U' data (fun _ => none) ∅ ⟨vm, fun _ => none⟩ := by
  have hworld := World.start 256 hinv hnarrow hnull m.tables
  obtain ⟨s, p, hrun, -, hnone, hsome⟩ :=
    hworld.allocPage cpu (pageFlagKernel ||| pageFlagZero)
  unfold vmmInit
  rw [hrun, Option.bind_eq_bind, bind_some]
  have hroots : ∀ r : ℕ, (none : Option Spot) = some (r, []) ↔
      ((none : Option Space)).isSome = true := fun r => by simp
  cases p with
  | none =>
    exact ⟨_, rfl, U, hnone rfl, hroots, (nomatch ·, ·, ·), (nomatch ·, ·, ·), (nomatch ·, ·),
      Accounts.blank fun _ => rfl⟩
  | some z =>
    obtain ⟨hworld', hnew⟩ := hsome z rfl
    obtain ⟨L', hinv'⟩ := hworld'.inv
    have hheld : heldOf (update data z (some ⟨0, 1⟩)) ∅ z = some ⟨0, 1⟩ := by
      rw [heldOf_of_not_mem (notMem_empty z), update_self]
    have hmark : (s.pages z).flags &&& pageFlagFree = 0 := by
      rw [hnew.flagsField]
      decide
    -- the zero page is never given back, so it leaves the usable pages
    have hretired := hinv'.retire hheld hmark
    have hback : update (heldOf (update data z (some ⟨0, 1⟩)) ∅) z none = data := by
      rw [← heldOf_update (notMem_empty z), update_idem, ← hnew.free, update_eq_self]
      funext q
      exact heldOf_of_not_mem (notMem_empty q)
    rw [hback] at hretired
    have hbelow : z < s.totalPageCount := hinv'.core.below z hnew.usable
    have hstart := World.start 256 hretired hworld'.narrow (fun hmem => hnull hmem.1) m.tables
    refine ⟨_, rfl, U \ {z}, hstart, hroots, (nomatch ·, ·, ·), (nomatch ·, ·, ·), ?_,
      Accounts.blank fun _ => rfl⟩
    intro z' hz'
    cases hz'
    refine ⟨fun hmem => hmem.2 rfl, ?_, hbelow⟩
    apply pos_of_ne_zero
    rintro rfl
    exact hnull hnew.usable

include h in
/-- `vmm_create_space` adds a space that maps nothing. -/
theorem Sound.create (cpu : ℕ) (mem : Bool) (kernel : ℕ) :
    ∃ m' res, vmmCreateSpace cpu mem s.vm.mm kernel = some (m', res) ∧
      Spared data s.vm.mm.pmm m'.pmm ∧
      (res = none → Sound counts U data pos T (s.withMm m') ∧ m'.tables = s.vm.mm.tables) ∧
      ∀ sp, res = some sp → ∃ f, sp = freshSpace f ∧ s.spaces f = none ∧
        Sound counts U data (update pos f (some (f, []))) (insert f T)
          ((s.withMm m').setSpace f sp) ∧
        (∀ r sp v, s.spaces r = some sp → UserPage v → leaf m'.tables r v = s.entry r v) ∧
        ∀ v, UserPage v → leaf m'.tables f v = 0 := by
  obtain ⟨m', res, hrun, hspared, hnone, hsome⟩ :=
    mmuCreateContext_spec h.world (le_refl 256) cpu mem kernel
  unfold vmmCreateSpace
  rw [hrun, Option.bind_eq_bind, bind_some]
  refine ⟨m', res.map freshSpace, rfl, hspared, ?_, ?_⟩
  · intro hres
    obtain ⟨hworld, htables⟩ := hnone (Option.map_eq_none_iff.1 hres)
    have hview : SameView 256 pos s.vm.mm.tables m'.tables := htables ▸ SameView.refl 256 pos _
    exact ⟨(h.settle hworld (.refl pos) hspared.total hview (h.accounts.spared hspared)).1, htables⟩
  · intro sp hres
    obtain ⟨f, rfl, rfl⟩ := Option.map_eq_some_iff.1 hres
    obtain ⟨hworld, hfpos, hview, hzero⟩ := hsome f rfl
    have hfree : s.spaces f = none := by
      cases hf : s.spaces f with
      | none => rfl
      | some => exact absurd (h.root_pos hf) (by simp [hfpos])
    have hsame : ∀ r sp v, s.spaces r = some sp → UserPage v → leaf m'.tables r v = s.entry r v :=
      fun r sp v hr hv => hview r v (h.root_pos hr) hv.page.governed
    have hempty : ∀ v, UserPage v → leaf m'.tables f v = 0 := fun v hv => hzero v hv.page.governed
    -- the new space has no entry, and the others keep theirs
    have hrefs : refsOf counts ((s.withMm m').setSpace f (freshSpace f)) = refsOf counts s := by
      funext k
      by_cases hk : k.1 = f
      · subst hk
        unfold refsOf
        rw [spaces_setSpace, if_pos rfl, hfree, bind_some, Option.bind_none]
        split
        next hv => exact refOf_absent (not_present_of_zero (hempty k.2 hv))
        next => rfl
      · exact refsOf_congr (update_of_ne hk _ _) rfl fun sp hr hv => hsame k.1 sp k.2 hr hv
    have hroots : ∀ r, update pos f (some (f, [])) r = some (r, []) ↔
        r = f ∨ pos r = some (r, []) := by
      intro r
      rw [update_apply]
      split
      next heq => simp [heq]
      next hne => simp [hne]
    exact ⟨f, rfl, hfree, h.setSpace hworld hroots hspared.total rfl .nil hrefs
      (h.accounts.spared hspared), hsame, hempty⟩

end

/-! ## A concrete machine -/

/-- The machine after boot, with two regions of memory and empty tables. -/
def bootVm : Option Vm :=
  (pmmInit twoRegions).bind fun s => vmmInit 0 ⟨fun _ _ => 0, s⟩ fun _ _ => 0

theorem pmmInit_twoRegions : ∃ s L, pmmInit twoRegions = some s ∧ s.totalPageCount ≤ 2 ^ 40 ∧
    Inv (usablePages twoRegions) s (fun _ => none) L := by
  have hsize : (pmmInit twoRegions).any (fun s => decide (s.totalPageCount ≤ 2 ^ 40)) = true := by
    decide +kernel
  obtain ⟨s, hinit, hnarrow⟩ := (Option.any_eq_true _ _).1 hsize
  obtain ⟨L, hinv⟩ := pmm_init bootMap_twoRegions (m := ⟨s, fun _ => none⟩) ⟨hinit, rfl⟩
  exact ⟨s, L, hinit, of_decide_eq_true hnarrow, hinv⟩

theorem sound_boot (counts : Option (VmaType × Bool) → Bool) :
    ∃ vm U, bootVm = some vm ∧ vm.mm.tables = (fun _ _ => 0) ∧
      Sound counts U (fun _ => none) (fun _ => none) ∅ ⟨vm, fun _ => none⟩ := by
  obtain ⟨s, L, hinit, hnarrow, hinv⟩ := pmmInit_twoRegions
  obtain ⟨vm, hrun, U, hsound⟩ := Sound.init counts (m := ⟨fun _ _ => 0, s⟩) hinv
    hnarrow null_not_mem_twoRegions 0 fun _ _ => 0
  refine ⟨vm, U, ?_, ?_, hsound⟩
  swap
  · obtain ⟨⟨s, p⟩, -, hvm⟩ := bind_eq_some_iff.1 hrun
    cases p <;> (cases hvm; rfl)
  unfold bootVm
  rw [hinit]
  exact hrun

theorem tables_vmmCreateSpace {cpu : ℕ} {mem : Bool} {m' : Mm} {kernel : ℕ} {res : Option Space}
    (h : vmmCreateSpace cpu mem m kernel = some (m', res)) (hzero : m.tables = fun _ _ => 0) :
    m'.tables = fun _ _ => 0 := by
  cases mem with
  | false =>
    cases h
    exact hzero
  | true =>
    obtain ⟨⟨m₁, r⟩, hrun, h⟩ := bind_eq_some_iff.1 h
    cases h
    obtain ⟨⟨m₂, r⟩, halloc, hrun⟩ := bind_eq_some_iff.1 hrun
    obtain ⟨⟨s, p⟩, -, halloc⟩ := bind_eq_some_iff.1 halloc
    cases p with
    | none =>
      cases halloc
      cases hrun
      exact hzero
    | some =>
      cases halloc
      cases hrun
      funext q i
      simp [hzero, update_apply]

/-- The machine with one space that has no area yet. -/
theorem sound_first (counts : Option (VmaType × Bool) → Bool) :
    ∃ s r U pos T, s.spaces r = some (freshSpace r) ∧ s.vm.mm.tables = (fun _ _ => 0) ∧
      Sound counts U (fun _ => none) pos T s := by
  obtain ⟨vm, U, hboot, htables, hsound⟩ := sound_boot counts
  obtain ⟨m', res, hrun, -, -, hsome⟩ := hsound.create 0 true 0
  have hfirst : (bootVm.bind fun vm => vmmCreateSpace 0 true vm.mm 0).any
      (fun p => p.2.isSome) = true := by
    decide +kernel
  rw [hboot, bind_some] at hfirst
  rw [hrun] at hfirst
  obtain ⟨sp, rfl⟩ := Option.isSome_iff_exists.1 hfirst
  obtain ⟨f, rfl, -, hsound', -⟩ := hsome _ rfl
  exact ⟨_, f, U, _, _, update_self f _ _, tables_vmmCreateSpace hrun htables, hsound'⟩

end BoredOS.Mem.Vmm
