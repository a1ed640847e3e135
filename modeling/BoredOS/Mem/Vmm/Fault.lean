import BoredOS.Mem.Vmm.Machine

/-!
# Page Faults

A fault changes the entry of one page. `Outcome` lists what the entry may become: it stays as it is,
it maps the zero page, a fresh page or a copy, or it is made writable in place.

The handler relies on the error code: `vmm_handle_page_fault` does not look whether the entry is
still as the code says. The lemmas here are about faults whose code tells the truth.
-/

namespace BoredOS.Mem.Vmm

open Function List Nat Lib.Intervals Lib.Tally Lib.TableTree Lib.Update Pmm Mmu Separated
open Option (bind_eq_bind bind_some)

variable {U T : Set ℕ} {data : ℕ → Option Grant} {pos : ℕ → Option Spot}
    {s : Machine} {r v : ℕ} {sp : Space}

/-! ## Entries -/

theorem not_huge_newPageFlags (flags : BitVec 32) : ¬ Has (newPageFlags flags) mmuFlagHuge2m := by
  unfold newPageFlags
  split <;> split <;> decide

/-- The bits of a copied entry, apart from the address. -/
def copiedFlags (pte : Pte) (vmaFlags : BitVec 32) : Pte :=
  ((pte &&& (ptAccessed ||| ptDirty)) ||| ptPresent ||| ptUser ||| ptRw) |||
    if Has vmaFlags vmaFlagExec then 0 else ptNx

variable (pte : Pte)

theorem copiedFlags_and_addrMask (vmaFlags : BitVec 32) :
    copiedFlags pte vmaFlags &&& ptAddrMask = 0 := by
  have hold : pte &&& (ptAccessed ||| ptDirty) &&& ptAddrMask = 0 := by
    rw [BitVec.and_assoc, show (ptAccessed ||| ptDirty) &&& ptAddrMask = 0 by decide]
    simp
  unfold copiedFlags
  simp only [or_and_distrib, hold]
  split <;> decide

variable (frame : ℕ) (vmaFlags : BitVec 32)

theorem copiedEntry_eq :
    copiedEntry pte frame vmaFlags =
      (BitVec.ofNat 64 (frame * pageSize) &&& ptAddrMask) ||| copiedFlags pte vmaFlags := by
  unfold copiedEntry copiedFlags
  split
  next =>
    -- no bit of the entry is the one that is cleared
    have hnx : ∀ x mask : Pte, mask &&& ptNx = 0 → x &&& mask &&& ptNx = 0 := by
      intro x mask hmask
      rw [BitVec.and_assoc, hmask]
      simp
    rw [and_not_of_and_eq_zero]
    · simp only [BitVec.or_assoc]
      rw [show ptRw ||| (0 : Pte) = ptRw by decide]
    · simp only [or_and_distrib, hnx _ ptAddrMask (by decide),
        hnx _ (ptAccessed ||| ptDirty) (by decide)]
      decide
  next => simp only [BitVec.or_assoc]

theorem frameOf_copiedEntry {frame : ℕ} (hlt : frame < 2 ^ 40) (vmaFlags : BitVec 32) :
    frameOf (copiedEntry pte frame vmaFlags) = frame := by
  rw [copiedEntry_eq, frameOf_and_or _ (copiedFlags_and_addrMask pte vmaFlags),
    frameOf_ofNat (mul_mod_left frame pageSize)]
  unfold pageSize
  omega

theorem has_copiedEntry {mask : Pte} (hmask : ptAddrMask &&& mask = 0) :
    Has (copiedEntry pte frame vmaFlags) mask ↔ Has (copiedFlags pte vmaFlags) mask := by
  rw [copiedEntry_eq, has_or]
  exact or_iff_right (not_has_and _ _ _ hmask)

theorem present_copiedEntry : Has (copiedEntry pte frame vmaFlags) ptPresent := by
  rw [has_copiedEntry _ _ _ (by decide)]
  unfold copiedFlags
  simp only [has_or]
  exact .inl (.inl (.inl (.inr (by decide))))

/-! ## What a fault does -/

/-- The entry of the page after a fault in an area with `flags`. `present` and `write` are what the
error code says. -/
inductive Outcome (present write : Bool) (flags : BitVec 32) (e : Pte) : Pte → Prop
  | same : Outcome present write flags e e
  | zero (z : ℕ) (hcode : present = false) :
      Outcome present write flags e (pageEntry (z * pageSize) (mmuProtRead ||| mmuProtUser))
  | fresh (p : ℕ) (hcode : present = false) :
      Outcome present write flags e (pageEntry (p * pageSize) (newPageFlags flags))
  | upgrade (hwrite : write = true) (hpresent : Has e ptPresent) :
      Outcome present write flags e (e ||| ptRw)
  | copy (p : ℕ) (hwrite : write = true) : Outcome present write flags e (copiedEntry e p flags)

/-- The state after a fault. -/
structure Settled (U : Set ℕ) (s s' : Machine) (r v : ℕ)
    (present write : Bool) (flags : BitVec 32) : Prop where
  sound : ∃ data' pos' T', Sound unshared U data' pos' T' s'
  effect : ∃ e, Outcome present write flags (s.entry r v) e ∧ Touched s s' r v e

variable {flags : BitVec 32} {present write : Bool} {m : Mm} {bytes : ℕ → ℕ → BitVec 8} {p : ℕ}

section

variable {data' : ℕ → Option Grant} {pos' : ℕ → Option Spot} {T' : Set ℕ}

/-- The contents of the frames are not part of the invariant. -/
theorem Sound.setBytes (h : Sound unshared U data pos T s) (bytes : ℕ → ℕ → BitVec 8) :
    Sound unshared U data pos T { s with vm := { s.vm with data := bytes } } :=
  { h with }

section

variable (h : Sound unshared U data pos T s)

include h

/-- Nothing has changed but the contents of frames. -/
theorem Settled.same (hworld : World 256 U data' pos' T' m)
    (hroots : SameRoots pos pos') (htotal : m.pmm.totalPageCount = s.vm.mm.pmm.totalPageCount)
    (hview : SameView 256 pos s.vm.mm.tables m.tables)
    (haccounts : Accounts data' m.pmm (refsOf unshared s)) :
    Settled U s { s with vm := ⟨m, s.vm.zeroPage, bytes⟩ } r v present write flags := by
  obtain ⟨hsound, hentry⟩ := h.settle hworld hroots htotal hview haccounts
  exact ⟨⟨_, _, _, hsound.setBytes bytes⟩, _, .same, .of_same r v hentry⟩

/-- The page has another entry. -/
theorem Settled.changed {e : Pte} (hr : s.spaces r = some sp) (hv : UserPage v)
    (hworld : World 256 U data' pos' T' m) (hroots : SameRoots pos pos')
    (htotal : m.pmm.totalPageCount = s.vm.mm.pmm.totalPageCount)
    (hleaf : ∀ r' v', pos r' = some (r', []) → pml4Idx v' < 256 → leaf m.tables r' v' =
      if r' = r ∧ indices v' = indices v then e else leaf s.vm.mm.tables r' v')
    (haccounts : Accounts data' m.pmm
      (update (refsOf unshared s) (r, v) (refOf unshared s.vm.zeroPage sp.vmas v e)))
    (houtcome : Outcome present write flags (s.entry r v) e) :
    Settled U s { s with vm := ⟨m, s.vm.zeroPage, bytes⟩ } r v present write flags := by
  obtain ⟨hsound, hentry, -⟩ := h.remap hr hv hworld hroots htotal hleaf haccounts
  exact ⟨⟨_, _, _, hsound.setBytes bytes⟩, e, houtcome, hentry⟩

/-- The branch for a page that is not present. A page that is present all the same is lost, and its
reference with it. -/
theorem Sound.faultAbsent (hr : s.spaces r = some sp) (hv : UserPage v) (cpu : ℕ) (write : Bool)
    (flags : BitVec 32) :
    ∃ vm' ret, faultAbsent cpu s.vm r v write flags = some (vm', ret) ∧
      Settled U s { s with vm := vm' } r v false write flags := by
  have hroot := h.root_pos hr
  -- the account without the page
  have hblank : Accounts data s.vm.mm.pmm (update (refsOf unshared s) (r, v) none) :=
    h.accounts.shrink fun _ _ hk => (of_update_none hk).2
  unfold Vmm.faultAbsent
  split
  next hread =>
    obtain ⟨z, hz⟩ : ∃ z, s.vm.zeroPage = some z := by
      cases hz : s.vm.zeroPage with
      | none => exact absurd (by unfold zeroPaddr; rw [hz]; rfl) hread.2
      | some z => exact ⟨z, rfl⟩
    have hpaddr : zeroPaddr s.vm = z * pageSize := by
      unfold zeroPaddr
      rw [hz]
      rfl
    rw [hpaddr]
    obtain ⟨m, ret, hrun, hspared, hmapped⟩ := mmuMapPage_spec h.world cpu hroot hv.page.governed
      hv.1 (mul_mod_left z pageSize)
      (show ¬ Has (mmuProtRead ||| mmuProtUser) mmuFlagHuge2m by decide)
    rw [hrun, bind_eq_bind, bind_some]
    refine ⟨_, _, rfl, ?_⟩
    rcases hmapped with ⟨-, pos', T', hworld, hroots, hleaf⟩ | ⟨-, hworld, hview⟩
    · refine .changed h hr hv hworld hroots hspared.total hleaf ?_ (.zero z rfl)
      -- the zero page has no account
      have hzero : refOf unshared s.vm.zeroPage sp.vmas v
          (pageEntry (z * pageSize) (mmuProtRead ||| mmuProtUser)) = none := by
        apply if_neg
        rintro ⟨-, hne, -⟩
        apply hne
        have hlt : z < 2 ^ 40 := lt_of_lt_of_le (h.zero z hz).2.2 h.world.narrow
        rw [frameOf_pageEntry hlt (by decide), hz]
      rw [hzero]
      exact hblank.spared hspared
    · exact .same h hworld (.refl pos) hspared.total hview (h.accounts.spared hspared)
  next =>
    obtain ⟨s₁, p, hrun, hspared, hfail, hsome⟩ := h.world.allocPage cpu pageFlagZero
    rw [hrun, bind_eq_bind, bind_some]
    cases p with
    | none =>
      exact ⟨_, _, rfl, Settled.same h (hfail rfl) (.refl pos) hspared.total
        (.refl 256 pos s.vm.mm.tables) (h.accounts.spared hspared)⟩
    | some p =>
      obtain ⟨hworld₁, hnew⟩ := hsome p rfl
      obtain ⟨haccounts₁, -⟩ := h.accounts.gain hnew hspared (by decide)
      obtain ⟨hblank₁, hsingle, htally₁⟩ := hblank.gain hnew hspared (by decide)
      obtain ⟨m, ret, hmap, hspared', hmapped⟩ := mmuMapPage_spec hworld₁ cpu hroot
        hv.page.governed hv.1 (mul_mod_left p pageSize) (not_huge_newPageFlags flags)
      change ∃ vm' ret, (mmuMapPage cpu (s.vm.mm.withPmm s₁) r v (p * pageSize)
        (newPageFlags flags) >>= _) = some (vm', ret) ∧ _
      rw [hmap, bind_eq_bind, bind_some]
      refine ⟨_, _, rfl, ?_⟩
      have htotal : m.pmm.totalPageCount = s.vm.mm.pmm.totalPageCount :=
        hspared'.total.trans hspared.total
      rcases hmapped with ⟨-, pos', T', hworld, hroots, hleaf⟩ | ⟨-, hworld, hview⟩
      · refine .changed h hr hv hworld hroots htotal hleaf ?_ (.fresh p rfl)
        have hframe := frameOf_pageEntry (hworld₁.frame_lt hnew.usable)
          (not_huge_newPageFlags flags)
        have hblank₂ := hblank₁.spared hspared'
        unfold refOf
        split
        next =>
          have hmild : Mild s₁ m.pmm p := kind_mild (.inl hsingle) hspared'
          have hadd := hblank₂.add (update_self (r, v) none (refsOf unshared s))
            (.inl (hsingle.mild hmild))
            (by rw [htally₁, hmild.refcount, hnew.refcountField]; exact one_pos)
          rw [update_idem] at hadd
          rw [hframe]
          exact hadd
        next => exact hblank₂
      · exact .same h hworld (.refl pos) htotal hview (haccounts₁.spared hspared')

/-- An entry is made writable in place. -/
theorem Settled.upgraded {pt : ℕ}
    (hr : s.spaces r = some sp) (hv : UserPage v) (hpresent : Has (s.entry r v) ptPresent)
    (hpt : pos pt = some (r, [pml4Idx v, pdptIdx v, pdIdx v])) :
    Settled U s { s with vm := s.vm.withMm (s.vm.mm.setEntry pt (ptIdx v) (s.entry r v ||| ptRw)) }
      r v true true flags := by
  obtain ⟨hworld, hleaf⟩ := h.world.store hpt rfl (ptIdx v) (s.entry r v ||| ptRw)
  have hsame : refOf unshared s.vm.zeroPage sp.vmas v (s.entry r v ||| ptRw) =
      refsOf unshared s (r, v) := by
    have hstill : Has (s.entry r v ||| ptRw) ptPresent := (has_or _ _ _).2 (.inl hpresent)
    rw [refsOf_space hr hv]
    unfold refOf
    rw [frameOf_or_flags _ (by decide)]
    simp only [hstill, hpresent, true_and]
  have hrefs : update (refsOf unshared s) (r, v)
      (refOf unshared s.vm.zeroPage sp.vmas v (s.entry r v ||| ptRw)) = refsOf unshared s := by
    rw [hsame, update_eq_self]
  refine .changed h hr hv hworld (.refl pos) rfl hleaf ?_ (.upgrade rfl hpresent)
  rw [hrefs]
  exact h.accounts

end

/-- An entry moves from a page with other references to a new one. -/
theorem Accounts.move {κ : Type} [DecidableEq κ] {lim : ℕ} {refs : κ → Option ℕ} {k : κ}
    {f : ℕ} (h : Accounts data m.pmm refs) (hw : World lim U data pos T m)
    (hk : refs k = some f) (hmany : 1 < (m.pmm.pages f).refcount) (hp : Single data m.pmm p)
    (hone : (m.pmm.pages p).refcount = 1) (htally : tally refs p = 0) (cpu : ℕ) :
    ∃ data', World lim U data' pos T (m.withPmm (pmmPageUnref m.pmm cpu f)) ∧
      Accounts data' (pmmPageUnref m.pmm cpu f) (update refs k (some p)) ∧
      (pmmPageUnref m.pmm cpu f).totalPageCount = m.pmm.totalPageCount := by
  obtain ⟨hworld, haccounts⟩ := h.releaseMany hw hk hmany cpu
  have hkind := h.kind k f hk
  have hlt := kind_refcount_lt hw hkind
  have hne : p ≠ f := by
    rintro rfl
    omega
  have hrun := pmmPageUnref_many rfl hmany (kind_order_lt hw hkind) hlt cpu
  have hsingle : Single (regrant data f ((m.pmm.pages f).refcount - 1))
      (pmmPageUnref m.pmm cpu f) p := by
    rw [hrun]
    exact (kind_regrant (by omega)).1 hp
  have hrefs : ((pmmPageUnref m.pmm cpu f).pages p).refcount = 1 := by
    rw [hrun, PmmState.pages_setPage, if_neg hne]
    exact hone
  have hgone : tally (update refs k none) p = 0 := by
    have hle := tally_mono (i := p) h.support fun k' (hk' : update refs k none k' = _) =>
      (of_update_none hk').2
    omega
  have hadd := haccounts.add (update_self k none refs) (.inl hsingle)
    (by rw [hgone, hrefs]; exact one_pos)
  rw [update_idem] at hadd
  exact ⟨_, hworld, hadd, by rw [hrun]; rfl⟩

section

variable (h : Sound unshared U data pos T s)

include h

section

variable (hr : s.spaces r = some sp) (hv : UserPage v) (hpresent : Has (s.entry r v) ptPresent)

include hr hv hpresent

theorem Sound.faultCopy {pt : ℕ} (hpt : pos pt = some (r, [pml4Idx v, pdptIdx v, pdIdx v]))
    (hentry : s.vm.mm.tables pt (ptIdx v) = s.entry r v)
    (hmany : some (frameOf (s.entry r v)) ≠ s.vm.zeroPage →
      (s.vm.mm.pmm.pages (frameOf (s.entry r v))).refcount ≠ 1)
    (hcounted : unshared (areaKind sp.vmas v) = true) (cpu : ℕ) :
    ∃ vm' ret, faultCopy cpu s.vm pt (ptIdx v) (frameOf (s.entry r v)) flags = some (vm', ret) ∧
      Settled U s { s with vm := vm' } r v true true flags := by
  obtain ⟨s₁, p, hrun, hspared, hfail, hsome⟩ := h.world.allocPage cpu 0
  unfold Vmm.faultCopy
  rw [hrun, bind_eq_bind, bind_some, hentry]
  cases p with
  | none =>
    exact ⟨_, _, rfl, Settled.same h (hfail rfl) (.refl pos) hspared.total
      (.refl 256 pos s.vm.mm.tables) (h.accounts.spared hspared)⟩
  | some p =>
    obtain ⟨hworld₁, hnew⟩ := hsome p rfl
    obtain ⟨haccounts₁, hsingle, htally⟩ := h.accounts.gain hnew hspared (by decide)
    dsimp only
    by_cases hwritable : Has (s.entry r v) ptPresent ∧ Has (s.entry r v) ptRw
    · -- somebody was faster, the copy goes back
      rw [if_pos hwritable]
      refine ⟨_, _, rfl, ?_⟩
      obtain ⟨hworld₂, hspared₂⟩ := hworld₁.unref (update_self p _ _) hsingle.not_free cpu
      have horder : (s₁.pages p).order = 0 :=
        (hworld₁.granted (update_self p _ _)).orderField
      obtain ⟨hdata, hback⟩ := back_of_none hnew.free
      have hunref : pmmPageUnref s₁ cpu p = pmmFreeOrder s₁ cpu p 0 := by
        rw [← horder]
        rfl
      rw [hback] at hworld₂
      rw [hdata] at hspared₂
      change World 256 U data pos T (s.vm.mm.withPmm (pmmPageUnref s₁ cpu p)) at hworld₂
      change Spared data s₁ (pmmPageUnref s₁ cpu p) at hspared₂
      rw [hunref] at hworld₂ hspared₂
      have hspared' := hspared.trans hspared₂
      exact .same h hworld₂ (.refl pos) hspared'.total (.refl 256 pos s.vm.mm.tables)
        (h.accounts.spared hspared')
    · rw [if_neg hwritable]
      refine ⟨_, _, rfl, ?_⟩
      obtain ⟨hworld₂, hleaf⟩ := hworld₁.store hpt rfl (ptIdx v) (copiedEntry (s.entry r v) p flags)
      have hframe := frameOf_copiedEntry (s.entry r v) (hworld₁.frame_lt hnew.usable) flags
      have href : refOf unshared s.vm.zeroPage sp.vmas v (copiedEntry (s.entry r v) p flags) =
          some p := by
        have hne : some p ≠ s.vm.zeroPage := fun heq => (h.zero p heq.symm).1 hnew.usable
        unfold refOf
        rw [hframe]
        exact if_pos ⟨present_copiedEntry _ _ _, hne, hcounted⟩
      change Settled U s { s with vm := ⟨if some (frameOf (s.entry r v)) ≠ s.vm.zeroPage
        then _ else _, _, _⟩ } r v true true flags
      split
      next hold =>
        have hk : refsOf unshared s (r, v) = some (frameOf (s.entry r v)) := by
          rw [refsOf_space hr hv]
          exact if_pos ⟨hpresent, hold, hcounted⟩
        have hmild := kind_mild (h.accounts.kind _ _ hk) hspared
        have hcovered := h.accounts.covered _ (tally_pos h.accounts.support hk)
        have hpos := tally_pos h.accounts.support hk
        have hne := hmany hold
        obtain ⟨data₂, hworld₃, haccounts₃, htotal₃⟩ := Accounts.move haccounts₁ hworld₂ hk
          (by show 1 < (s₁.pages _).refcount; rw [hmild.refcount]; omega) hsingle
          hnew.refcountField htally cpu
        refine .changed h hr hv hworld₃ (.refl pos) (htotal₃.trans hspared.total) hleaf ?_
          (.copy p rfl)
        rw [href]
        exact haccounts₃
      next hold =>
        have hk : refsOf unshared s (r, v) = none := by
          rw [refsOf_space hr hv]
          exact if_neg fun hc => hold hc.2.1
        refine .changed h hr hv hworld₂ (.refl pos) hspared.total hleaf ?_ (.copy p rfl)
        rw [href]
        refine haccounts₁.add hk (.inl hsingle) ?_
        rw [htally, hnew.refcountField]
        exact one_pos

/-- The branch for a write to a page that is present. -/
theorem Sound.faultWriteProtected
    {type : VmaType} (hkind : areaKind sp.vmas v = some (type, decide (Has flags vmaFlagShared)))
    (cpu : ℕ) :
    ∃ vm' ret, faultWriteProtected cpu s.vm r v flags = some (vm', ret) ∧
      Settled U s { s with vm := vm' } r v true true flags := by
  unfold Vmm.faultWriteProtected
  rcases mmuGetPtePtr_spec h.world (h.root_pos hr) hv.page.governed hv.1 with
    ⟨-, hzero⟩ | ⟨pt, hfound, hleaf, hpt⟩
  · exact absurd hpresent (not_present_of_zero hzero)
  have hentry : s.vm.mm.tables pt (ptIdx v) = s.entry r v := hleaf.symm
  rw [hfound]
  dsimp only
  rw [hentry]
  have hpage : pmmPaddrToPage s.vm.mm.pmm (physOf (s.entry r v)) =
      if frameOf (s.entry r v) ≥ s.vm.mm.pmm.totalPageCount then none
      else some (frameOf (s.entry r v)) := rfl
  rw [hpage]
  by_cases hout : frameOf (s.entry r v) ≥ s.vm.mm.pmm.totalPageCount
  · rw [if_pos hout]
    exact ⟨_, _, rfl, Settled.upgraded h hr hv hpresent hpt⟩
  · rw [if_neg hout]
    dsimp only
    split
    next => exact ⟨_, _, rfl, Settled.upgraded h hr hv hpresent hpt⟩
    next hsole =>
      obtain ⟨hprivate, hmany⟩ := not_or.1 hsole
      rw [decide_eq_false hprivate] at hkind
      exact h.faultCopy hr hv hpresent hpt hentry (fun hne hone => hmany ⟨hne, hone⟩)
        (by rw [hkind]; rfl) cpu

end

end

end

/-! ## The area of a fault -/

/-- The areas after the search: as they were, or with a stack that reaches down to the page. -/
inductive GrownStack (page : ℕ) : List Area → List Area → Prop
  | same (vmas : List Area) : GrownStack page vmas vmas
  | grown {p q : List Area} {stack : Area} (hstack : Has stack.flags vmaFlagStack)
      (hbefore : ∀ b ∈ p, b.end_ ≤ page) (hbelow : page < stack.start) :
      GrownStack page (p ++ stack :: q) (p ++ { stack with start := page } :: q)

section

variable {vmas vmas' : List Area} {page addr : ℕ}

theorem pageAlignDown_le (x : ℕ) : pageAlignDown x ≤ x := div_mul_le_self x pageSize

theorem pageAlignDown_mod (x : ℕ) : pageAlignDown x % pageSize = 0 := mul_mod_left _ _

/-- A bound of whole pages holds for an address if and only if it holds for its page. -/
theorem le_pageAlignDown {b x : ℕ} (hb : b % pageSize = 0) : b ≤ pageAlignDown x ↔ b ≤ x := by
  unfold pageAlignDown
  unfold pageSize at *
  omega

theorem Area.Good.covers_page {a : Area} (ha : a.Good) :
    a.Covers (pageAlignDown addr) ↔ a.Covers addr := by
  have hstart := le_pageAlignDown (x := addr) ha.start_aligned
  have hend := le_pageAlignDown (x := addr) ha.end_aligned
  show a.start ≤ _ ∧ _ < a.end_ ↔ a.start ≤ _ ∧ _ < a.end_
  omega

section

variable (h : GrownStack page vmas vmas')

include h

theorem GrownStack.wellFormed (hwf : WellFormed vmas)
    (hpage : page % pageSize = 0) : WellFormed vmas' := by
  cases h with
  | same => exact hwf
  | @grown p q stack hstack hbefore hbelow =>
    have hgood := hwf.good stack (mem_append_right p mem_cons_self)
    obtain ⟨-, hq, -⟩ := append_iff.1 hwf.separated
    obtain ⟨-, -, hbehind⟩ := cons_iff.1 hq
    have hgrown : Area.Good { stack with start := page } :=
      ⟨lt_trans hbelow hgood.nonempty, hpage, hgood.end_aligned, hgood.bounded⟩
    exact (hwf.sublist ((sublist_cons_self stack q).append_left p)).insert hgrown hbefore hbehind

/-- Every area is an old one, or an old one that has grown. -/
theorem GrownStack.mem {b : Area} (hb : b ∈ vmas') :
    b ∈ vmas ∨ ∃ stack ∈ vmas, b = { stack with start := page } := by
  cases h with
  | same => exact .inl hb
  | @grown p q stack hstack hbefore hbelow =>
    rcases mem_append.1 hb with hb | hb
    · exact .inl (mem_append_left _ hb)
    · rcases mem_cons.1 hb with rfl | hb
      · exact .inr ⟨stack, mem_append_right p mem_cons_self, rfl⟩
      · exact .inl (mem_append_right p (mem_cons_of_mem _ hb))

/-- What an area covers is covered by an area with the same type and flags. -/
theorem GrownStack.covers {a : Area} {v : ℕ} (ha : a ∈ vmas) (hav : a.Covers v) :
    ∃ b ∈ vmas', b.Covers v ∧ b.flags = a.flags ∧ b.type = a.type := by
  cases h with
  | same => exact ⟨a, ha, hav, rfl, rfl⟩
  | @grown p q stack hstack hbefore hbelow =>
    rcases mem_append.1 ha with ha | ha
    · exact ⟨a, mem_append_left _ ha, hav, rfl, rfl⟩
    · rcases mem_cons.1 ha with rfl | ha
      · exact ⟨_, mem_append_right p mem_cons_self,
          ⟨le_trans (le_of_lt hbelow) hav.1, hav.2⟩, rfl, rfl⟩
      · exact ⟨a, mem_append_right p (mem_cons_of_mem _ ha), hav, rfl, rfl⟩

end

theorem faultArea_cases {sp : Space} (hwf : WellFormed sp.vmas) (addr : ℕ) (rsp : Option ℕ) :
    (∃ err, faultArea sp addr rsp = (sp, .error err)) ∨
    ∃ vmas' a, GrownStack (pageAlignDown addr) sp.vmas vmas' ∧ a ∈ vmas' ∧ a.Covers addr ∧
      faultArea sp addr rsp = ({ sp with vmas := vmas' }, .ok a) := by
  unfold faultArea
  rcases hwf.find_cases addr with ⟨a, ha, hav, hfind⟩ | ⟨hnone, hfind⟩
  · rw [hfind]
    exact .inr ⟨sp.vmas, a, .same _, ha, hav, rfl⟩
  · rw [hfind]
    cases hnext : sp.vmas.find? fun c => decide (c.start > addr) with
    | none => exact .inl ⟨_, rfl⟩
    | some next =>
      dsimp only
      by_cases hstack : Has next.flags vmaFlagStack
      swap
      · rw [if_pos hstack]
        exact .inl ⟨_, rfl⟩
      rw [if_neg (not_not.2 hstack)]
      split
      · exact .inl ⟨_, rfl⟩
      split
      · exact .inl ⟨_, rfl⟩
      -- the next area is the first stack above the address
      obtain ⟨hafter, p, q, heq, hearlier⟩ := find?_eq_some_iff_append.1 hnext
      have hafter' : next.start > addr := of_decide_eq_true hafter
      have hbelow : ∀ b ∈ p, b.start ≤ addr := by
        intro b hb
        have := hearlier b hb
        simpa using this
      have htarget : (sp.vmas.find? fun c =>
          decide (Has c.flags vmaFlagStack ∧ c.start > addr)) = some next := by
        refine find?_eq_some_iff_append.2 ⟨decide_eq_true ⟨hstack, hafter'⟩, p, q, heq, ?_⟩
        intro b hb
        have := hbelow b hb
        simp
        omega
      rw [htarget]
      dsimp only
      have hbefore : ∀ b ∈ p, b.end_ ≤ pageAlignDown addr := by
        intro b hb
        have hmem : b ∈ sp.vmas := by
          rw [heq]
          exact mem_append_left _ hb
        apply (le_pageAlignDown (hwf.good b hmem).end_aligned).2
        by_contra hlt
        exact hnone b hmem ⟨hbelow b hb, Nat.lt_of_not_le hlt⟩
      have hlow : pageAlignDown addr < next.start :=
        lt_of_le_of_lt (pageAlignDown_le addr) hafter'
      have hgrown : GrownStack (pageAlignDown addr) sp.vmas
          (p ++ { next with start := pageAlignDown addr } :: q) := by
        rw [heq]
        exact .grown hstack hbefore hlow
      have hmemnext : next ∈ sp.vmas := by
        rw [heq]
        exact mem_append_right p mem_cons_self
      have hnonempty := (hwf.good next hmemnext).nonempty
      refine .inr ⟨_, { next with start := pageAlignDown addr }, hgrown,
        mem_append_right p mem_cons_self,
        ⟨pageAlignDown_le addr, lt_trans hafter' hnonempty⟩, ?_⟩
      rw [heq] at hwf ⊢
      obtain ⟨-, hq, -⟩ := append_iff.1 hwf.separated
      obtain ⟨-, -, hbehind⟩ := cons_iff.1 hq
      have hins := (hwf.sublist ((sublist_cons_self next q).append_left p)).insert_eq
        (a := { next with start := pageAlignDown addr }) (lt_trans hlow hnonempty) hbefore
        hbehind
      rw [hwf.remove_eq, hins]

end

/-! ## The handler -/

/-- A write fault whose code says that the page is present finds it present. A code that calls a
present page absent costs the reference of the page, which the accounts allow. -/
def Truthful (s : Machine) (r addr : ℕ) (code : BitVec 32) : Prop :=
  Has code faultPresent → Has code faultWrite → Has (s.entry r (pageAlignDown addr)) ptPresent

/-- What the access needs and what the handler accepts for it. -/
def Admitted (code flags : BitVec 32) : Prop :=
  (Has code faultWrite → Has flags vmaFlagWrite ∨ Has flags vmaFlagCow) ∧
    (Has code faultExec → Has flags vmaFlagExec)

/-- A stack that grows takes in no page that is mapped. -/
theorem Sound.grow (h : Sound unshared U data pos T s) (hr : s.spaces r = some sp)
    (hcovered : Covered s r sp.vmas) {page : ℕ} (hpage : page % pageSize = 0) {vmas' : List Area}
    (hgrown : GrownStack page sp.vmas vmas') :
    Sound unshared U data pos T (s.setSpace r { sp with vmas := vmas' }) := by
  apply h.rearea hr hcovered { sp with vmas :=
      vmas' } rfl (hgrown.wellFormed (h.wellFormed r sp hr) hpage)
  exact fun _ _ _ _ => hgrown.covers

/-- A fault leaves the page tables alone, or it settles the page in an area that admits the
access. -/
theorem Sound.fault (h : Sound unshared U data pos T s) (hr : s.spaces r = some sp)
    (huser : ∀ a ∈ sp.vmas, a.end_ ≤ 2 ^ 47) (hcovered : Covered s r sp.vmas) (cpu addr : ℕ)
    (code : BitVec 32) (rsp : Option ℕ) (htruth : Truthful s r addr code) :
    ∃ vm' vmas' ret, vmmHandlePageFault cpu s.vm sp addr code rsp =
        some (vm', { sp with vmas := vmas' }, ret) ∧
      GrownStack (pageAlignDown addr) sp.vmas vmas' ∧
      (vm' = s.vm ∨ ∃ a ∈ vmas', a.Covers addr ∧ Admitted code a.flags ∧
        UserPage (pageAlignDown addr) ∧
        Settled U (s.setSpace r { sp with vmas := vmas' })
          ⟨vm', (s.setSpace r { sp with vmas := vmas' }).spaces⟩ r (pageAlignDown addr)
          (decide (Has code faultPresent)) (decide (Has code faultWrite)) a.flags) := by
  have hwf := h.wellFormed r sp hr
  have hpage := pageAlignDown_mod addr
  obtain rfl : sp.pml4 = r := h.pml4 r sp hr
  unfold vmmHandlePageFault
  split
  · exact ⟨_, sp.vmas, _, rfl, .same _, .inl rfl⟩
  rcases faultArea_cases hwf addr rsp with ⟨err, hfail⟩ | ⟨vmas', a, hgrown, ha, hav, hfound⟩
  · rw [hfail]
    exact ⟨_, sp.vmas, _, rfl, .same _, .inl rfl⟩
  rw [hfound]
  dsimp only
  have hsound := h.grow hr hcovered hpage hgrown
  have hwf' := hgrown.wellFormed hwf hpage
  have hr' : (s.setSpace sp.pml4 { sp with vmas := vmas' }).spaces sp.pml4 =
      some { sp with vmas := vmas' } := update_self ..
  have hpageCovered : a.Covers (pageAlignDown addr) := (hwf'.good a ha).covers_page.2 hav
  by_cases hdenied : Has code faultWrite ∧ ¬ Has a.flags vmaFlagWrite ∧ ¬ Has a.flags vmaFlagCow
  · rw [if_pos hdenied]
    exact ⟨_, vmas', _, rfl, hgrown, .inl rfl⟩
  rw [if_neg hdenied]
  by_cases hdenied' : Has code faultExec ∧ ¬ Has a.flags vmaFlagExec
  · rw [if_pos hdenied']
    exact ⟨_, vmas', _, rfl, hgrown, .inl rfl⟩
  rw [if_neg hdenied']
  have hadmitted : Admitted code a.flags := by
    refine ⟨?_, ?_⟩
    · intro hwrite
      by_contra hnot
      exact hdenied ⟨hwrite, not_or.1 hnot⟩
    · intro hexec
      by_contra hnot
      exact hdenied' ⟨hexec, hnot⟩
  -- the areas end in the user half, also the one that has grown
  have huserPage : UserPage (pageAlignDown addr) := by
    refine ⟨hpage, ?_⟩
    have hlt : pageAlignDown addr < a.end_ := hpageCovered.2
    suffices hend : a.end_ ≤ 2 ^ 47 by omega
    rcases hgrown.mem ha with ha | ⟨stack, hstack, rfl⟩
    · exact huser a ha
    · exact huser stack hstack
  have hkind : areaKind vmas' (pageAlignDown addr) =
      some (a.type, decide (Has a.flags vmaFlagShared)) := by
    unfold areaKind
    rw [hwf'.find_eq_some.2 ⟨ha, hpageCovered⟩]
    rfl
  by_cases hcode : Has code faultPresent
  swap
  · rw [if_pos hcode]
    obtain ⟨vm', ret, hrun, hsettled⟩ :=
        hsound.faultAbsent hr' huserPage cpu (decide (Has code faultWrite)) a.flags
    change Vmm.faultAbsent cpu s.vm sp.pml4 _ _ _ = _ at hrun
    rw [hrun, decide_eq_false hcode]
    exact ⟨vm', vmas', ret, rfl, hgrown, .inr ⟨a, ha, hav, hadmitted, huserPage, hsettled⟩⟩
  rw [if_neg (not_not.2 hcode)]
  by_cases hwrite : Has code faultWrite
  swap
  · rw [if_neg hwrite]
    exact ⟨_, vmas', _, rfl, hgrown, .inl rfl⟩
  rw [if_pos hwrite]
  have hpresent := htruth hcode hwrite
  obtain ⟨vm', ret, hrun, hsettled⟩ := hsound.faultWriteProtected hr' huserPage hpresent hkind cpu
  change Vmm.faultWriteProtected cpu s.vm sp.pml4 _ _ = _ at hrun
  rw [hrun, decide_eq_true hcode, decide_eq_true hwrite]
  exact ⟨vm', vmas', ret, rfl, hgrown, .inr ⟨a, ha, hav, hadmitted, huserPage, hsettled⟩⟩

end BoredOS.Mem.Vmm
