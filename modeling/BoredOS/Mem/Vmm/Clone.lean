import BoredOS.Mem.Mmu.Clone
import BoredOS.Mem.Vmm.Release

/-!
# Cloning a Space

`vmm_clone_space` makes a new space and lets `mmu_clone_user_cow` map the pages of the parent into
it. A private page gets a reference and loses the right to be written in both spaces; a shared page
is mapped as it is.

What the mapping returns is dropped: when memory for page tables runs out, the child misses pages
whose references have been taken.
-/

namespace BoredOS.Mem.Vmm

open Function List Option Set Lib.Intervals Lib.Tally Lib.Tiling Lib.TableTree Pmm Mmu Prod

variable {v c r : ℕ} {U T : Set ℕ}
  {data data' : ℕ → Option Grant} {pos : ℕ → Option Spot} {s : Machine} {spc : Space}

/-! ## Entries -/

theorem has_cowEntry (e : Pte) {mask : Pte} (hmask : (ptRw ||| ptCow) &&& mask = 0) :
    Has (cowEntry e) mask ↔ Has e mask := by
  have hparts : ptRw &&& mask = 0 ∧ ptCow &&& mask = 0 := by
    rw [or_and_distrib] at hmask
    exact BitVec.or_eq_zero_iff.1 hmask
  unfold cowEntry
  split
  next =>
    rw [has_or, has_and]
    · exact or_iff_left (not_not.2 hparts.2)
    · rw [BitVec.and_comm]
      apply and_not_of_and_eq_zero
      rw [BitVec.and_comm]
      exact hparts.1
  next => exact .rfl

theorem not_rw_cowEntry (e : Pte) : ¬ Has (cowEntry e) ptRw := by
  unfold cowEntry
  split
  next =>
    rw [has_or, not_or]
    exact ⟨not_has_and _ _ _ (by decide), by decide⟩
  next h => exact h

theorem frameOf_cowEntry (e : Pte) : frameOf (cowEntry e) = frameOf e := by
  unfold cowEntry
  split
  next =>
    rw [frameOf_or_flags _ (by decide)]
    unfold frameOf physOf
    rw [BitVec.and_assoc, show ~~~ptRw &&& ptAddrMask = ptAddrMask by decide]
  next => rfl

theorem frameOf_lt (e : Pte) : frameOf e < 2 ^ 40 := by
  have hlt : physOf e < 2 ^ 52 := by
    exact lt_of_le_of_lt Nat.and_le_right (by decide)
  have heq := physOf_eq e
  unfold pageSize at heq
  omega

theorem not_huge_sharedCloneFlags (e : Pte) (device : Bool) :
    ¬ Has (sharedCloneFlags e device) mmuFlagHuge2m := by
  unfold sharedCloneFlags
  split <;> split <;> split <;> decide

/-- The entry of the parent after a clone; `total` is the number of page descriptors. -/
def clonedParent (total : ℕ) (shared : Bool) (e : Pte) : Pte :=
  if Has e ptPresent ∧ Has e ptUser ∧ frameOf e < total ∧ shared = false then cowEntry e else e

/-- The map flags for the child. -/
def cloneMapFlags (total : ℕ) (shared : Bool) (e : Pte) : BitVec 32 :=
  if total ≤ frameOf e then sharedCloneFlags e true
  else if shared = true then sharedCloneFlags e false
  else privateCloneFlags (cowEntry e)

def clonedChild (total : ℕ) (shared : Bool) (e : Pte) : Pte :=
  if Has e ptPresent ∧ Has e ptUser then pageEntry (physOf e) (cloneMapFlags total shared e) else 0

variable (total : ℕ)

theorem of_cloneMapFlags {total : ℕ} {shared : Bool} {e : Pte} {f : BitVec 32} {Q : Prop}
    (hshared : ∀ device, Has (sharedCloneFlags e device) f → Q)
    (hprivate : Has (privateCloneFlags (cowEntry e)) f → Q) :
    Has (cloneMapFlags total shared e) f → Q := by
  unfold cloneMapFlags
  split
  · exact hshared _
  · split
    · exact hshared _
    · exact hprivate

theorem not_huge_cloneMapFlags (shared : Bool) (e : Pte) :
    ¬ Has (cloneMapFlags total shared e) mmuFlagHuge2m := by
  apply of_cloneMapFlags (not_huge_sharedCloneFlags e)
  unfold privateCloneFlags
  split <;> split <;> decide

theorem present_pageEntry (phys : ℕ) (flags : BitVec 32) : Has (pageEntry phys flags) ptPresent :=
  (has_pageEntry phys flags (by decide)).2 (has_present_mmuFlagsToPte flags)

theorem frameOf_clonedParent (shared : Bool) (e : Pte) :
    frameOf (clonedParent total shared e) = frameOf e := by
  unfold clonedParent
  split
  · exact frameOf_cowEntry e
  · rfl

theorem present_clonedParent (shared : Bool) (e : Pte) :
    Has (clonedParent total shared e) ptPresent ↔ Has e ptPresent := by
  unfold clonedParent
  split
  · exact has_cowEntry e (by decide)
  · exact .rfl

variable {e : Pte}

/-- An entry stands for the same frame as long as its frame is the same. -/
theorem refOf_congr {counts : Option (VmaType × Bool) → Bool} {zero : Option ℕ}
    {vmas vmas' : List Area} {e' : Pte} (hpresent : Has e' ptPresent ↔ Has e ptPresent)
    (hframe : frameOf e' = frameOf e)
    (hcounts : counts (areaKind vmas' v) = counts (areaKind vmas v)) :
    refOf counts zero vmas' v e' = refOf counts zero vmas v e := by
  unfold refOf
  simp only [hpresent, hframe, hcounts]

theorem inShared_eq (vmas : List Area) (v : ℕ) :
    inShared vmas v = ((areaKind vmas v).map snd).getD false := by
  unfold inShared areaKind
  rw [Option.map_map]
  rfl

variable {vmas : List Area}

theorem unshared_of_not_inShared (h : inShared vmas v = false) :
    unshared (areaKind vmas v) = true := by
  rw [inShared_eq] at h
  cases hk : areaKind vmas v with
  | none => rfl
  | some k =>
    obtain ⟨t, b⟩ := k
    rw [hk] at h
    change b = false at h
    rw [h]
    rfl

theorem refsOf_unshared {sp : Space} (hr : s.spaces r = some sp)
    (h : inShared sp.vmas v = true) : refsOf unshared s (r, v) = none := by
  cases hk : refsOf unshared s (r, v) with
  | none => rfl
  | some =>
    obtain ⟨sp', hr', -, hcounts⟩ := refsOf_eq_some hk
    obtain rfl : sp = sp' := some.inj (hr.symm.trans hr')
    rw [inShared_eq] at h
    cases harea : areaKind sp.vmas v with
    | none =>
      rw [harea] at h
      cases h
    | some k =>
      obtain ⟨t, b⟩ := k
      rw [harea] at h hcounts
      subst h
      cases hcounts

/-! ## One page -/

/-- The allocator after the reference for a page has been taken. -/
def clonePmm (shared : Bool) (p : PmmState) (e : Pte) : PmmState :=
  if frameOf e < p.totalPageCount ∧ shared = false then pmmPageRef p (frameOf e) else p

/-- The body of the loops, with its three branches for a page put together. -/
theorem cloneEntry_eq (cpu : ℕ) (shared : ℕ → Bool) (child : ℕ) (m : Mm) (pt i v : ℕ)
    (he : m.tables pt i = e) :
    cloneEntry cpu shared child m pt i v = if Has e ptPresent ∧ Has e ptUser then
        (mmuMapPageUnlocked cpu
          ((m.setEntry pt i (clonedParent m.pmm.totalPageCount (shared v) e)).withPmm
            (clonePmm (shared v) m.pmm e)) child v (physOf e)
          (cloneMapFlags m.pmm.totalPageCount (shared v) e)).map fst
      else some m := by
  subst he
  have hself : (m.setEntry pt i (m.tables pt i)).withPmm m.pmm = m := by
    unfold Mm.setEntry
    rw [update_eq_self, update_eq_self]
    rfl
  have hfound : ∀ e : Pte, pmmPaddrToPage m.pmm (physOf e) =
      if m.pmm.totalPageCount ≤ frameOf e then none else some (frameOf e) := by
    intro e
    unfold pmmPaddrToPage pfnToPage
    rw [physOf_eq, Nat.mul_div_cancel _ (by decide)]
  unfold cloneEntry
  dsimp only
  rw [hfound]
  by_cases hlive : Has (m.tables pt i) ptPresent ∧ Has (m.tables pt i) ptUser
  swap
  · rw [if_pos (by rw [← not_and_or]; exact hlive), if_neg hlive]
  rw [if_neg (by rw [← not_and_or]; exact not_not.2 hlive), if_pos hlive]
  unfold clonedParent clonePmm cloneMapFlags
  by_cases hdevice : m.pmm.totalPageCount ≤ frameOf (m.tables pt i)
  · simp only [hdevice, not_lt.2 hdevice, hself, if_true, if_false, false_and, and_false]
  · have hpage := not_le.1 hdevice
    cases hshared : shared v with
    | true => simp only [hdevice, hpage, hself, hlive, if_true, if_false, and_false, reduceCtorEq]
    | false =>
      simp only [hdevice, hpage, hlive, if_true, if_false, and_self, reduceCtorEq]
      rfl

section

/-- The account after the reference for a page has been taken and before the page is mapped. -/
structure Charged (U : Set ℕ) (pos : ℕ → Option Spot) (T : Set ℕ) (s : Machine) (k : ℕ × ℕ)
    (x : Option ℕ) (data' : ℕ → Option Grant) (p : PmmState) : Prop where
  world : World 256 U data' pos T (s.vm.mm.withPmm p)
  total : p.totalPageCount = s.vm.mm.pmm.totalPageCount
  taken : Accounts data' p (update (refsOf unshared s) k x)
  idle : Accounts data' p (refsOf unshared s)
  counted : ∀ k' f, refsOf unshared s k' = some f →
    (p.pages f).refcount ≤ (s.vm.mm.pmm.pages f).refcount + if x = some f then 1 else 0

/-- A page without a counted frame: its descriptor does not matter. -/
theorem Charged.uncounted (h : Sound unshared U data pos T s) {k : ℕ × ℕ}
    (hk : refsOf unshared s k = none) {shared : Bool}
    (hzero : frameOf e < s.vm.mm.pmm.totalPageCount → shared = false →
      s.vm.zeroPage = some (frameOf e)) :
    Charged U pos T s k none data (clonePmm shared s.vm.mm.pmm e) := by
  have hsame : update (refsOf unshared s) k none = refsOf unshared s := by
    rw [← hk, update_eq_self]
  unfold clonePmm
  split
  next hpage =>
    -- the zero page is not managed by the allocator any more
    have hU := (h.zero _ (hzero hpage.1 hpage.2)).1
    obtain ⟨hworld, hspared⟩ := h.world.setRefs_foreign hU
      (((s.vm.mm.pmm.pages (frameOf e)).refcount + 1) % 2 ^ 32)
    refine ⟨hworld, rfl, ?_, h.accounts.spared hspared, ?_⟩
    · rw [hsame]
      exact h.accounts.spared hspared
    · intro k' f hf
      have hmild := kind_mild (h.accounts.kind k' f hf) hspared
      exact le_of_eq hmild.refcount
  next =>
    refine ⟨h.world, rfl, ?_, h.accounts, fun _ _ _ => le_refl _⟩
    rw [hsame]
    exact h.accounts

/-- A page with a counted frame. -/
theorem Charged.counts_one (h : Sound unshared U data pos T s) {k k' : ℕ × ℕ}
    (hk : refsOf unshared s k = none) (hk' : refsOf unshared s k' = some (frameOf e))
    (hlt : (s.vm.mm.pmm.pages (frameOf e)).refcount + 1 < 2 ^ 32) :
    ∃ data', Charged U pos T s k (some (frameOf e)) data'
      (clonePmm false s.vm.mm.pmm e) := by
  have hkind := h.accounts.kind k' _ hk'
  obtain ⟨-, hpage⟩ := kind_usable h.world hkind
  obtain ⟨hworld, htaken, hidle⟩ := h.accounts.retain h.world hkind
    (h.accounts.covered _ (tally_pos h.accounts.support hk')) hk hlt
  unfold clonePmm
  rw [if_pos ⟨hpage, rfl⟩]
  refine ⟨_, hworld, rfl, htaken, hidle, ?_⟩
  intro k'' f _
  unfold pmmPageRef
  rw [PmmState.pages_setPage]
  split
  next heq =>
    rw [if_pos (by rw [heq])]
    rw [Nat.mod_eq_of_lt hlt, heq]
  next => omega

/-- The page is mapped, unless memory for the tables runs out. -/
theorem Charged.map (h : Sound unshared U data pos T s) (hc : s.spaces c = some spc)
    (hv : UserPage v) {p : PmmState} {phys : ℕ} {flags : BitVec 32}
    (hcharged : Charged U pos T s (c, v)
      (refOf unshared s.vm.zeroPage spc.vmas v (pageEntry phys flags)) data' p)
    (hflags : ¬ Has flags mmuFlagHuge2m) (cpu : ℕ) :
    ∃ m' pos' T', (mmuMapPageUnlocked cpu (s.vm.mm.withPmm p) c v phys flags).map fst =
        some m' ∧ Sound unshared U data' pos' T' (s.withMm m') ∧ Spared data' p m'.pmm ∧
      Grown pos s.vm.mm c pos' m' ∧ (Touched s (s.withMm m') c v (pageEntry phys flags) ∨
        Touched s (s.withMm m') c v (s.entry c v)) := by
  obtain ⟨m', ret, hrun, hspared, hmapped⟩ := mmuMapPageUnlocked_tables hcharged.world cpu
    (h.root_pos hc) hv.page.governed phys hflags
  have htotal : m'.pmm.totalPageCount = s.vm.mm.pmm.totalPageCount :=
    hspared.total.trans hcharged.total
  rw [hrun]
  rcases hmapped with ⟨-, pos', T', hworld, hroots, hleaf, hgrown⟩ | ⟨-, hworld, hagree⟩
  · obtain ⟨hsound, htouched, -⟩ := h.remap hc hv hworld hroots htotal hleaf
      (hcharged.taken.spared hspared)
    exact ⟨m', pos', T', rfl, hsound, hspared, ⟨hgrown.persist, hgrown.frame⟩, .inl htouched⟩
  · obtain ⟨hsound, hentry⟩ := h.settle hworld (.refl pos) htotal
      (h.world.view_congr hagree) (hcharged.idle.spared hspared)
    refine ⟨m', pos, T, rfl, hsound, hspared, ⟨fun _ _ hf => hf, ?_⟩, .inr (.of_same c v hentry)⟩
    exact fun f q hf _ => hagree f (by rw [hf]; simp)

end

/-! ## All pages -/

/-- A machine whose space `r` is about to be cloned into the empty space `c`. -/
structure CloneSetup (s : Machine) (r c : ℕ) (spr spc : Space) (shared : ℕ → Bool) : Prop where
  parent : s.spaces r = some spr
  child : s.spaces c = some spc
  apart : r ≠ c
  shared_eq : shared = inShared spr.vmas
  kinds : ∀ v, UserPage v → Has (s.entry r v) ptPresent →
    unshared (areaKind spc.vmas v) = unshared (areaKind spr.vmas v)

/-- The pages of the parent that refer to a frame and are still to be cloned. -/
def pending (s : Machine) (r : ℕ) (D : Set ℕ) (f : ℕ) : Set ℕ :=
  {v | v ∉ D ∧ refsOf unshared s (r, v) = some f}

/-- The state of the loops of `mmu_clone_user_cow` after the pages `D`. -/
structure Cloning (U : Set ℕ) (s : Machine) (r c : ℕ) (shared : ℕ → Bool) (pos : ℕ → Option Spot)
    (D : Set ℕ) (m : Mm) (data' : ℕ → Option Grant) (pos' : ℕ → Option Spot) (T' : Set ℕ) :
    Prop where
  sound : Sound unshared U data' pos' T' (s.withMm m)
  persist : ∀ f p, pos f = some p → pos' f = some p
  tables : ∀ f path, pos f = some (r, path) → path.length < 3 → m.tables f = s.vm.mm.tables f
  total : m.pmm.totalPageCount = s.vm.mm.pmm.totalPageCount
  parentTodo : ∀ v, UserPage v → v ∉ D → leaf m.tables r v = s.entry r v
  parentDone : ∀ v, UserPage v → v ∈ D → leaf m.tables r v =
    clonedParent s.vm.mm.pmm.totalPageCount (shared v) (s.entry r v)
  childTodo : ∀ v, UserPage v → v ∉ D → leaf m.tables c v = 0
  childDone : ∀ v, UserPage v → v ∈ D →
    leaf m.tables c v = clonedChild s.vm.mm.pmm.totalPageCount (shared v) (s.entry r v) ∨
      leaf m.tables c v = 0
  others : ∀ r' sp v, s.spaces r' = some sp → r' ≠ r → r' ≠ c → UserPage v →
    leaf m.tables r' v = s.entry r' v
  budget : ∀ v f, refsOf unshared s (r, v) = some f →
    (m.pmm.pages f).refcount + (pending s r D f).ncard < 2 ^ 32

section

variable {pos' : ℕ → Option Spot} {T' : Set ℕ} {spr : Space} {shared : ℕ → Bool} {D : Set ℕ}
  {m : Mm}

theorem pending_finite (h : Sound unshared U data pos T s) (D : Set ℕ) (f : ℕ) :
    (pending s r D f).Finite := by
  have hsupport := h.accounts.support
  have hinj : Function.Injective fun v : ℕ => (r, v) := fun a b hab => (mk.inj hab).2
  apply (hsupport.preimage hinj.injOn).subset
  rintro v ⟨-, hv⟩
  show refsOf unshared s (r, v) ≠ none
  rw [hv]
  simp

/-- Pages that are not mapped for the user are done. -/
theorem Cloning.skip (h₀ : Sound unshared U data pos T s)
    (h : Cloning U s r c shared pos D m data' pos' T') (S : Set ℕ)
    (hS : ∀ v ∈ S, ¬ (Has (s.entry r v) ptPresent ∧ Has (s.entry r v) ptUser)) :
    Cloning U s r c shared pos (D ∪ S) m data' pos' T' := by
  refine { h with
    parentTodo := fun v hv hD => h.parentTodo v hv fun hmem => hD (.inl hmem)
    childTodo := fun v hv hD => h.childTodo v hv fun hmem => hD (.inl hmem)
    parentDone := ?_, childDone := ?_, budget := ?_ }
  · intro v hv hD
    by_cases hmem : v ∈ D
    · exact h.parentDone v hv hmem
    · have hS := hS v (hD.resolve_left hmem)
      rw [h.parentTodo v hv hmem, clonedParent, if_neg fun hc => hS ⟨hc.1, hc.2.1⟩]
  · intro v hv hD
    by_cases hmem : v ∈ D
    · exact h.childDone v hv hmem
    · left
      rw [h.childTodo v hv hmem, clonedChild, if_neg (hS v (hD.resolve_left hmem))]
  · intro v f hf
    have hle : (pending s r (D ∪ S) f).ncard ≤ (pending s r D f).ncard :=
      ncard_le_ncard (fun w hw => ⟨fun hmem => hw.1 (.inl hmem), hw.2⟩) (pending_finite h₀ D f)
    have := h.budget v f hf
    omega

/-- The number of pages that are pending falls with the page that is cloned. -/
theorem pending_insert (h₀ : Sound unshared U data pos T s) (hD : v ∉ D) (f : ℕ) :
    (pending s r (D ∪ {v}) f).ncard + (if refsOf unshared s (r, v) = some f then 1 else 0) ≤
      (pending s r D f).ncard := by
  have hsub : pending s r (D ∪ {v}) f ⊆ pending s r D f \ {v} := by
    rintro w ⟨hw, hf⟩
    exact ⟨⟨fun hmem => hw (.inl hmem), hf⟩, fun hmem => hw (.inr hmem)⟩
  have hfinite := pending_finite (r := r) h₀ D f
  have hle := ncard_le_ncard hsub (hfinite.subset sdiff_subset)
  split
  next hf =>
    have hmem : v ∈ pending s r D f := ⟨hD, hf⟩
    have hone := ncard_sdiff_singleton_add_one hmem hfinite
    omega
  next =>
    have hmono := ncard_le_ncard (sdiff_subset (s := pending s r D f) (t := {v})) hfinite
    omega

section

variable (setup : CloneSetup s r c spr spc shared)

include setup

/-- The child's entry stands for what the parent's stands for. -/
theorem CloneSetup.refOf_child (hv : UserPage v) (hpresent : Has (s.entry r v) ptPresent) :
    refOf unshared s.vm.zeroPage spc.vmas v (pageEntry (physOf (s.entry r v))
      (cloneMapFlags s.vm.mm.pmm.totalPageCount (shared v) (s.entry r v))) =
      refsOf unshared s (r, v) := by
  rw [refsOf_space setup.parent hv]
  apply refOf_congr ⟨fun _ => hpresent, fun _ => present_pageEntry _ _⟩ _
    (setup.kinds v hv hpresent)
  rw [physOf_eq]
  exact frameOf_pageEntry (frameOf_lt _) (not_huge_cloneMapFlags _ _ _)

variable (h : Cloning U s r c shared pos D m data' pos' T')

include h

theorem Cloning.refs_parent (v : ℕ) :
    refsOf unshared (s.withMm m) (r, v) = refsOf unshared s (r, v) := by
  by_cases hv : UserPage v
  swap
  · unfold refsOf
    simp only [hv, if_false]
    rfl
  have hr : (s.withMm m).spaces r = some spr := setup.parent
  rw [refsOf_space hr hv, refsOf_space setup.parent hv]
  by_cases hD : v ∈ D
  · have hentry : (s.withMm m).entry r v = _ := h.parentDone v hv hD
    rw [hentry]
    exact refOf_congr (present_clonedParent ..) (frameOf_clonedParent ..) rfl
  · have hentry : (s.withMm m).entry r v = _ := h.parentTodo v hv hD
    rw [hentry]
    rfl

/-- The entry of the parent is stored. It refers to the frame that it referred to before, so the
references stay. -/
theorem Cloning.store_parent {pt : ℕ} (hv : UserPage v)
    (hpt : pos' pt = some (r, [pml4Idx v, pdptIdx v, pdIdx v])) {e : Pte} {m₁ : Mm}
    (he : e = clonedParent s.vm.mm.pmm.totalPageCount (shared v) (s.entry r v))
    (hm₁ : m₁ = m.setEntry pt (ptIdx v) e) :
    Sound unshared U data' pos' T' (s.withMm m₁) ∧ Touched (s.withMm m) (s.withMm m₁) r v e ∧
      refsOf unshared (s.withMm m₁) = refsOf unshared (s.withMm m) := by
  have hworld : World 256 U data' pos' T' m := h.sound.world
  obtain ⟨hworld₁, hleaf₁⟩ := hworld.store hpt rfl (ptIdx v) e
  have hsame : update (refsOf unshared (s.withMm m)) (r, v) (refOf unshared s.vm.zeroPage
      spr.vmas v e) = refsOf unshared (s.withMm m) := by
    rw [he, refOf_congr (present_clonedParent ..) (frameOf_clonedParent ..) rfl,
      ← refsOf_space setup.parent hv, ← h.refs_parent setup, update_eq_self]
  have hpmm : m₁.pmm = m.pmm := by rw [hm₁]; rfl
  rw [← hm₁] at hworld₁ hleaf₁
  have haccounts := h.sound.accounts
  rw [← hsame] at haccounts
  obtain ⟨hsound₁, htouched₁, hrefs₁⟩ := h.sound.remap (s := s.withMm m) (m := m₁) setup.parent hv
    hworld₁ (.refl pos') (by rw [hpmm]; rfl) hleaf₁ (by rw [hpmm]; exact haccounts)
  exact ⟨hsound₁, htouched₁, hrefs₁.trans hsame⟩

variable (h₀ : Sound unshared U data pos T s) (hv : UserPage v)

include h₀ hv

/-- The reference for a page of the parent is taken. -/
theorem Cloning.charge (hD : v ∉ D) (hpresent : Has (s.entry r v) ptPresent) {m₁ : Mm}
    (hpmm : m₁.pmm = m.pmm) (h₁ : Sound unshared U data' pos' T' (s.withMm m₁))
    (hrefs : refsOf unshared (s.withMm m₁) = refsOf unshared (s.withMm m)) :
    ∃ data'', Charged U pos' T' (s.withMm m₁) (c, v)
      (refOf unshared s.vm.zeroPage spc.vmas v (pageEntry (physOf (s.entry r v))
        (cloneMapFlags s.vm.mm.pmm.totalPageCount (shared v) (s.entry r v)))) data''
      (clonePmm (shared v) m.pmm (s.entry r v)) := by
  have hchild : refsOf unshared (s.withMm m₁) (c, v) = none := by
    have hc : (s.withMm m).spaces c = some spc := setup.child
    rw [hrefs, refsOf_space hc hv]
    apply refOf_absent
    exact not_present_of_zero (h.childTodo v hv hD)
  rw [setup.refOf_child hv hpresent, ← hpmm]
  cases hk : refsOf unshared s (r, v) with
  | none =>
    refine ⟨data', .uncounted h₁ hchild ?_⟩
    intro _ hshared
    by_contra hne
    rw [setup.shared_eq] at hshared
    have hcounts := unshared_of_not_inShared hshared
    rw [refsOf_space setup.parent hv, refOf, if_pos ⟨hpresent, Ne.symm hne, hcounts⟩] at hk
    cases hk
  | some =>
    obtain ⟨-, -, rfl, -⟩ := refsOf_eq_some hk
    have hshared : shared v = false := by
      cases hsh : shared v with
      | false => rfl
      | true =>
        rw [setup.shared_eq] at hsh
        rw [refsOf_unshared setup.parent hsh] at hk
        cases hk
    rw [hshared]
    have hk' : refsOf unshared (s.withMm m₁) (r, v) = some (frameOf (s.entry r v)) := by
      rw [hrefs, h.refs_parent setup]
      exact hk
    apply Charged.counts_one h₁ hchild hk'
    · have hbudget := h.budget v _ hk
      change (m.pmm.pages (frameOf (s.entry r v))).refcount +
        (pending s r D (frameOf (s.entry r v))).ncard < 2 ^ 32 at hbudget
      have hone : 0 < (pending s r D (frameOf (s.entry r v))).ncard :=
        (ncard_pos (pending_finite h₀ D _)).2 ⟨v, hD, hk⟩
      show (m₁.pmm.pages (frameOf (s.entry r v))).refcount + 1 < 2 ^ 32
      rw [hpmm]
      omega

/-- One page of the parent: it is not there for the user and skipped, or it is shared with the
child, which may fail for want of a table. -/
theorem Cloning.page {pt : ℕ} (hD : v ∉ D)
    (hpt : pos pt = some (r, [pml4Idx v, pdptIdx v, pdIdx v])) (cpu : ℕ) :
    ∃ m' data'' pos'' T'', cloneEntry cpu shared c m pt (ptIdx v) v = some m' ∧
      Cloning U s r c shared pos (D ∪ {v}) m' data'' pos'' T'' := by
  have hpt' := h.persist pt _ hpt
  have hparent := h.parentTodo v hv hD
  have hentry : m.tables pt (ptIdx v) = s.entry r v := by
    rw [← hparent]
    exact (h.sound.world.leaf_eq (h.sound.root_pos setup.parent) hv.page.governed hpt').symm
  rw [cloneEntry_eq cpu shared c m pt (ptIdx v) v hentry, h.total]
  by_cases hlive : Has (s.entry r v) ptPresent ∧ Has (s.entry r v) ptUser
  swap
  · rw [if_neg hlive]
    refine ⟨m, data', pos', T', rfl, h.skip h₀ {v} ?_⟩
    rintro w rfl
    exact hlive
  rw [if_pos hlive]
  set e' := clonedParent s.vm.mm.pmm.totalPageCount (shared v) (s.entry r v) with he'
  obtain ⟨m₁, hm₁⟩ : ∃ m₁, m₁ = m.setEntry pt (ptIdx v) e' := ⟨_, rfl⟩
  have hpmm : m₁.pmm = m.pmm := by rw [hm₁]; rfl
  obtain ⟨hsound₁, htouched₁, hrefs₁⟩ := h.store_parent setup hv hpt' he' hm₁
  rw [← hm₁]
  -- the reference, and the entry of the child
  obtain ⟨data'', hcharged⟩ := h.charge setup h₀ hv hD hlive.1 hpmm hsound₁ hrefs₁
  obtain ⟨m', pos'', T'', hrun, hsound', hspared, hgrown, hcase⟩ :=
    hcharged.map (s := s.withMm m₁) hsound₁ setup.child hv (not_huge_cloneMapFlags _ _ _) cpu
  obtain ⟨x, htouched, hx⟩ : ∃ x, Touched (s.withMm m₁) (s.withMm m') c v x ∧
      (x = clonedChild s.vm.mm.pmm.totalPageCount (shared v) (s.entry r v) ∨ x = 0) := by
    rcases hcase with htouched | htouched
    · refine ⟨_, htouched, .inl ?_⟩
      unfold clonedChild
      rw [if_pos hlive]
    · refine ⟨_, htouched, .inr ?_⟩
      have hc := htouched₁ c spc v setup.child hv
      rw [if_neg fun heq => setup.apart (mk.inj heq).1.symm] at hc
      exact hc.trans (h.childTodo v hv hD)
  have hview : ∀ r' sp' w, s.spaces r' = some sp' → UserPage w → leaf m'.tables r' w =
      if (r', w) = (c, v) then x
      else if (r', w) = (r, v) then e' else leaf m.tables r' w := by
    intro r' sp' w hr' hw
    exact (htouched r' sp' w hr' hw).trans (by rw [htouched₁ r' sp' w hr' hw]; rfl)
  have hother : ∀ {r' sp' w}, s.spaces r' = some sp' → UserPage w → w ∉ ({v} : Set ℕ) →
      leaf m'.tables r' w = leaf m.tables r' w := by
    intro r' sp' w hr' hw hne
    rw [hview r' sp' w hr' hw, if_neg fun heq => hne (mk.inj heq).2,
      if_neg fun heq => hne (mk.inj heq).2]
  have hp : m₁.pmm.totalPageCount = s.vm.mm.pmm.totalPageCount := by rw [hpmm]; exact h.total
  refine ⟨m', data'', pos'', T'', ?_, hsound', ?_, ?_, ?_, ?_, ?_, ?_, ?_, ?_, ?_⟩
  · exact hrun
  · exact fun f p hf => hgrown.persist f p (h.persist f p hf)
  · intro f path hf hlen
    rw [hgrown.frame f _ (h.persist f _ hf) setup.apart, ← h.tables f path hf hlen]
    show m₁.tables f = m.tables f
    rw [hm₁]
    funext j
    rw [setEntry_apply, if_neg]
    rintro ⟨rfl, -⟩
    rw [hpt] at hf
    cases hf
    simp at hlen
  · exact (hspared.total.trans hcharged.total).trans hp
  · intro w hw hDw
    rw [hother setup.parent hw fun hmem => hDw (.inr hmem)]
    exact h.parentTodo w hw fun hmem => hDw (.inl hmem)
  · intro w hw hDw
    by_cases heq : w ∈ ({v} : Set ℕ)
    · obtain rfl : w = v := heq
      rw [hview r spr w setup.parent hw, if_neg fun hc => setup.apart (mk.inj hc).1, if_pos rfl]
    · rw [hother setup.parent hw heq]
      exact h.parentDone w hw (hDw.resolve_right heq)
  · intro w hw hDw
    rw [hother setup.child hw fun hmem => hDw (.inr hmem)]
    exact h.childTodo w hw fun hmem => hDw (.inl hmem)
  · intro w hw hDw
    by_cases heq : w ∈ ({v} : Set ℕ)
    · obtain rfl : w = v := heq
      rw [hview c spc w setup.child hw, if_pos rfl]
      exact hx
    · rw [hother setup.child hw heq]
      exact h.childDone w hw (hDw.resolve_right heq)
  · intro r' sp' w hr' hne hne' hw
    rw [hview r' sp' w hr' hw, if_neg fun hc => hne' (mk.inj hc).1,
      if_neg fun hc => hne (mk.inj hc).1]
    exact h.others r' sp' w hr' hne hne' hw
  · -- a frame has gained at most the reference of this page
    intro w f hf
    have hw : refsOf unshared (s.withMm m₁) (r, w) = some f := by
      rw [hrefs₁, h.refs_parent setup]
      exact hf
    have hcounted := hcharged.counted (r, w) f hw
    have htaken : update (refsOf unshared (s.withMm m₁)) (c, v) (refOf unshared s.vm.zeroPage
        spc.vmas v (pageEntry (physOf (s.entry r v)) (cloneMapFlags s.vm.mm.pmm.totalPageCount
          (shared v) (s.entry r v)))) (r, w) = some f := by
      rw [update_of_ne fun heq => setup.apart (mk.inj heq).1]
      exact hw
    have hmild := kind_mild (hcharged.taken.kind (r, w) f htaken) hspared
    have hinsert := pending_insert (r := r) h₀ hD f
    have hbudget := h.budget w f hf
    have hpages : ((s.withMm m₁).vm.mm.pmm.pages f).refcount = (m.pmm.pages f).refcount := by
      show (m₁.pmm.pages f).refcount = _
      rw [hpmm]
    rw [setup.refOf_child hv hlive.1, hpages] at hcounted
    rw [hmild.refcount]
    omega

end

theorem userPage_of_page (h : Mmu.Page 256 v) : UserPage v := by
  refine ⟨h.aligned, ?_⟩
  have hgoverned := h.governed
  have hcanonical := h.canonical
  unfold pml4Idx at hgoverned
  unfold Canonical at hcanonical
  omega

theorem Cloning.run (setup : CloneSetup s r c spr spc shared)
    (h₀ : Sound unshared U data pos T s) (hempty : ∀ v, UserPage v → s.entry c v = 0)
    (hbudget : ∀ v f, refsOf unshared s (r, v) = some f → (s.vm.mm.pmm.pages f).refcount +
      (pending s r ∅ f).ncard < 2 ^ 32) (cpu : ℕ) :
    ∃ m' data' pos' T', mmuCloneUserCow cpu shared s.vm.mm r c = some m' ∧
      Cloning U s r c shared pos {v | Mmu.Page 256 v} m' data' pos' T' := by
  have rule : CloneRule cpu shared c pos s.vm.mm r fun D m => ∃ data' pos' T',
      Cloning U s r c shared pos D m data' pos' T' := by
    refine ⟨?_, ?_, ?_, ?_⟩
    · rintro D m ⟨data', pos', T', h⟩
      exact h.tables
    · rintro D m ⟨data', pos', T', h⟩ f path hf
      exact h.sound.world.valid (h.persist f _ hf)
    · rintro D m S ⟨data', pos', T', h⟩ hS
      refine ⟨data', pos', T', h.skip h₀ S ?_⟩
      exact fun v hv hlive => not_present_of_zero (hS v hv) hlive.1
    · rintro D m v pt ⟨data', pos', T', h⟩ hv hD hpt
      obtain ⟨m', data'', pos'', T'', hrun, h'⟩ :=
        h.page setup h₀ (userPage_of_page hv) hD hpt cpu
      exact ⟨m', hrun, data'', pos'', T'', h'⟩
  have hstart : Cloning U s r c shared pos ∅ s.vm.mm data pos T := by
    refine ⟨h₀, fun _ _ => id, fun _ _ _ _ => rfl, rfl, fun _ _ _ => rfl, ?_, ?_, ?_,
      fun _ _ _ _ _ _ _ => rfl, hbudget⟩
    · exact fun v _ hmem => absurd hmem (notMem_empty v)
    · exact fun v hv _ => hempty v hv
    · exact fun v _ hmem => absurd hmem (notMem_empty v)
  obtain ⟨m', hrun, data', pos', T', h⟩ := mmuCloneUserCow_rule rule h₀.world
    (h₀.root_pos setup.parent) ⟨data, pos, T, hstart⟩
  exact ⟨m', data', pos', T', hrun, h⟩

end

/-! ## Areas -/

theorem shared_cloneFlags (flags : BitVec 32) :
    Has (cloneFlags flags) vmaFlagShared ↔ Has flags vmaFlagShared := by
  unfold cloneFlags
  split
  · rw [has_or]
    exact or_iff_left (by decide)
  · exact .rfl

variable (vmas : List Area)

theorem find_parentAreas (v : ℕ) : vmaFind (parentAreas vmas) v =
      (vmaFind vmas v).map fun a => { a with flags := cloneFlags a.flags } := by
  unfold vmaFind parentAreas
  rw [find?_map]
  rfl

theorem areaKind_parentAreas (v : ℕ) : areaKind (parentAreas vmas) v = areaKind vmas v := by
  unfold areaKind
  rw [find_parentAreas, Option.map_map]
  congr 1
  funext a
  simp only [comp_apply, shared_cloneFlags]

theorem inShared_parentAreas (v : ℕ) : inShared (parentAreas vmas) v = inShared vmas v := by
  rw [inShared_eq, inShared_eq, areaKind_parentAreas]

theorem WellFormed.parentAreas (h : WellFormed vmas) : WellFormed (parentAreas vmas) :=
  h.map fun _ => ⟨rfl, rfl⟩

/-- The child gets the areas for which there is memory. -/
theorem childAreas_eq (mem : Area → Bool) : ∀ {vmas : List Area}, WellFormed vmas →
    childAreas mem vmas = parentAreas (vmas.filter mem) := by
  intro vmas
  induction vmas using List.reverseRecOn with
  | nil => exact fun _ => rfl
  | append_singleton vmas a ih =>
    intro h
    have hinit := h.sublist (sublist_append_left vmas [a])
    have ha := h.good a (by simp)
    obtain ⟨-, -, hcross⟩ := Separated.append_iff.1 h.separated
    have hcreate : vmaCreate (mem a) a.start a.end_ a.type (cloneFlags a.flags) =
        if mem a = true then some ⟨a.start, a.end_, a.type, cloneFlags a.flags, none, 0⟩
        else none := by
      have hdown : pageAlignDown a.start = a.start := pageAlignDown_of_aligned ha.start_aligned
      have hup : pageAlignUp a.end_ = a.end_ :=
        pageAlignUp_of_aligned ha.end_aligned ha.bounded
      have hlt := ha.nonempty
      unfold vmaCreate
      rw [hdown, hup]
      by_cases hmem : mem a = true
      · rw [if_neg (by simp [hmem]; omega), if_pos hmem]
      · rw [if_pos (by simp [hmem]), if_neg hmem]
    have ih := ih hinit
    unfold childAreas at ih ⊢
    rw [foldl_append, ih, foldl_cons, foldl_nil, hcreate, filter_append]
    by_cases hmem : mem a = true
    · have hwf : WellFormed (parentAreas (vmas.filter mem) ++ []) := by
        rw [append_nil]
        exact (hinit.sublist filter_sublist).parentAreas
      rw [if_pos hmem, filter_cons_of_pos hmem, filter_nil]
      dsimp only
      have hinsert := hwf.insert_eq (a := { a with flags := cloneFlags a.flags }) ha.nonempty
        (fun b hb => by
          obtain ⟨b', hb', rfl⟩ := mem_map.1 hb
          exact hcross b' (mem_filter.1 hb').1 a (by simp))
        fun b hb => absurd hb not_mem_nil
      rw [append_nil] at hinsert
      rw [hinsert]
      unfold parentAreas
      rw [map_append]
      rfl
    · rw [if_neg hmem, filter_cons_of_neg hmem, filter_nil, append_nil]

/-! ## The clone -/

/-- No count of a page of the space overflows when each of its entries takes a reference. -/
def CountsFit (counts : Option (VmaType × Bool) → Bool) (s : Machine) (r : ℕ) : Prop :=
  ∀ v f, refsOf counts s (r, v) = some f →
    (s.vm.mm.pmm.pages f).refcount + {w | refsOf counts s (r, w) = some f}.ncard < 2 ^ 32

def clonedSpace (areaMem : Area → Bool) (sp : Space) (c : ℕ) : Space :=
  { sp with pml4 := c, vmas := childAreas areaMem sp.vmas, refcount := 1 }

/-- The space that it was made from. -/
abbrev parentSpace (sp : Space) : Space := { sp with vmas := parentAreas sp.vmas }

/-- The machine after a clone of the space `r` into the new space `c`. -/
structure Cloned (U : Set ℕ) (s s' : Machine)
    (r c : ℕ) (sp : Space) : Prop where
  sound : ∃ data' pos' T', Sound unshared U data' pos' T' s'
  parent : ∀ v, UserPage v → s'.entry r v =
    clonedParent s.vm.mm.pmm.totalPageCount (inShared sp.vmas v) (s.entry r v)
  child : ∀ v, UserPage v → s'.entry c v =
      clonedChild s.vm.mm.pmm.totalPageCount (inShared sp.vmas v) (s.entry r v) ∨ s'.entry c v = 0
  others : ∀ r' sp' v, s.spaces r' = some sp' → r' ≠ r → UserPage v → s'.entry r' v = s.entry r' v

variable {sp : Space}

/-- The records of both spaces are filled in before the pages are cloned. -/
theorem Sound.prepare {c : ℕ} {m : Mm} (hr : s.spaces r = some sp) (hne : r ≠ c)
    (h : Sound unshared U data pos T ((s.withMm m).setSpace c (freshSpace c)))
    (hentries : ∀ v, UserPage v → leaf m.tables c v = 0) (areaMem : Area → Bool) :
    Sound unshared U data pos T
      (((s.withMm m).setSpace r (parentSpace sp)).setSpace c
        (clonedSpace areaMem sp c)) := by
  set s₁ := (s.withMm m).setSpace c (freshSpace c) with hs₁
  set s₂ := s₁.setSpace r (parentSpace sp) with hs₂
  have hr' : s₁.spaces r = some sp := by
    rw [hs₁, spaces_setSpace, if_neg hne]
    exact hr
  have hwf := h.wellFormed r sp hr'
  have hparent : Sound unshared U data pos T s₂ :=
    h.respace hr' rfl hwf.parentAreas fun v _ =>
      refOf_congr Iff.rfl rfl (by rw [areaKind_parentAreas])
  have hc : s₂.spaces c = some (freshSpace c) := by
    rw [hs₂, spaces_setSpace, if_neg hne.symm, hs₁, spaces_setSpace, if_pos rfl]
  have hchild : Sound unshared U data pos T (s₂.setSpace c (clonedSpace areaMem sp c)) :=
    hparent.respace hc rfl (by
      show WellFormed (childAreas areaMem sp.vmas)
      rw [childAreas_eq areaMem hwf]
      exact (hwf.sublist filter_sublist).parentAreas)
    fun v hv => by
      have habsent : ¬ Has (leaf m.tables c v) ptPresent := not_present_of_zero (hentries v hv)
      exact (refOf_absent habsent).trans (refOf_absent habsent).symm
  have hspaces : update (update (update s.spaces c (some (freshSpace c)))
      r (some (parentSpace sp))) c (some (clonedSpace areaMem sp c)) =
      update (update s.spaces r (some (parentSpace sp)))
        c (some (clonedSpace areaMem sp c)) := by
    rw [update_comm hne, update_idem, update_comm hne.symm]
  show Sound unshared U data pos T ⟨s.vm.withMm m, update (update s.spaces r _) c _⟩
  rw [← hspaces]
  exact hchild

/-- The two spaces are in place and the entries are the old ones, so the pages can be cloned. -/
theorem cloneSetup_prepared {m : Mm} {c : ℕ} {areaMem : Area → Bool} {s₁ : Machine}
    (hr : s.spaces sp.pml4 = some sp) (hne : sp.pml4 ≠ c)
    (hs₁ : s₁ = ((s.withMm m).setSpace sp.pml4 (parentSpace sp)).setSpace c
      (clonedSpace areaMem sp c))
    (hentry : ∀ v, UserPage v → s₁.entry sp.pml4 v = s.entry sp.pml4 v)
    (hkinds : ∀ v, UserPage v → Has (s.entry sp.pml4 v) ptPresent →
      unshared (areaKind (childAreas areaMem sp.vmas) v) = unshared (areaKind sp.vmas v)) :
    CloneSetup s₁ sp.pml4 c (parentSpace sp) (clonedSpace areaMem sp c)
        (inShared (parentAreas sp.vmas)) ∧
      ∀ v, refsOf unshared s₁ (sp.pml4, v) = refsOf unshared s (sp.pml4, v) := by
  have hparent : s₁.spaces sp.pml4 = some (parentSpace sp) := by
    rw [hs₁, spaces_setSpace, if_neg hne, spaces_setSpace, if_pos rfl]
  have hchild : s₁.spaces c = some (clonedSpace areaMem sp c) := by
    rw [hs₁, spaces_setSpace, if_pos rfl]
  have hzero : s₁.vm.zeroPage = s.vm.zeroPage := by rw [hs₁]; rfl
  refine ⟨⟨hparent, hchild, hne, rfl, fun v hv hpresent => ?_⟩, fun v => ?_⟩
  · rw [hentry v hv] at hpresent
    rw [areaKind_parentAreas]
    exact hkinds v hv hpresent
  · by_cases hv : UserPage v
    · rw [refsOf_space hparent hv, refsOf_space hr hv, hentry v hv, hzero]
      exact refOf_congr Iff.rfl rfl (by rw [areaKind_parentAreas])
    · unfold refsOf
      simp only [hparent, hr, hv, if_false, bind_some]

/-- A clone either fails in the creation of the space, and then only the allocator has moved, or it
gives a child whose pages are those of the parent as far as the tables for them were found. -/
theorem Sound.clone (h : Sound unshared U data pos T s) (hr : s.spaces r = some sp)
    (hfit : CountsFit unshared s r) (cpu : ℕ) (mem : Bool) (areaMem : Area → Bool) (kernel : ℕ)
    (hkinds : ∀ v, UserPage v → Has (s.entry r v) ptPresent →
      unshared (areaKind (childAreas areaMem sp.vmas) v) = unshared (areaKind sp.vmas v)) :
    ∃ m' sp' res, vmmCloneSpace cpu mem areaMem s.vm.mm kernel sp = some (m', sp', res) ∧
      (res = none → sp' = sp ∧ m'.tables = s.vm.mm.tables ∧
        Sound unshared U data pos T (s.withMm m')) ∧
      ∀ ch, res = some ch → sp' = parentSpace sp ∧
        ∃ c, ch = clonedSpace areaMem sp c ∧ s.spaces c = none ∧
          Cloned U s (((s.withMm m').setSpace r sp').setSpace c ch) r c sp := by
  obtain rfl : sp.pml4 = r := h.pml4 r sp hr
  obtain ⟨m₁, res, hrun, hspared, hnone, hsome⟩ := h.create cpu mem kernel
  unfold vmmCloneSpace
  rw [hrun, bind_eq_bind, bind_some]
  cases res with
  | none =>
    obtain ⟨hsound, htables⟩ := hnone rfl
    exact ⟨m₁, sp, none, rfl, fun _ => ⟨rfl, htables, hsound⟩, (nomatch ·, ·)⟩
  | some child =>
    obtain ⟨c, rfl, hfree, hsound, hsame, hempty⟩ := hsome child rfl
    -- the frame of the new PML4 was no space before
    have hne : sp.pml4 ≠ c := by
      intro heq
      rw [heq, hfree] at hr
      cases hr
    have hprepared := hsound.prepare hr hne hempty areaMem
    obtain ⟨s₁, hs₁⟩ : ∃ s₁, s₁ = ((s.withMm m₁).setSpace sp.pml4
        (parentSpace sp)).setSpace c (clonedSpace areaMem sp c) :=
      ⟨_, rfl⟩
    rw [← hs₁] at hprepared
    have hmm : s₁.vm.mm = m₁ := by rw [hs₁]; rfl
    have hpages : s₁.vm.mm.pmm.totalPageCount = s.vm.mm.pmm.totalPageCount := by
      rw [hmm]
      exact hspared.total
    have hentry : ∀ r' sp' v, s.spaces r' = some sp' → UserPage v →
        s₁.entry r' v = s.entry r' v := by
      intro r' sp' v hr' hv
      rw [hs₁]
      exact hsame r' sp' v hr' hv
    obtain ⟨setup, hrefs⟩ :=
      cloneSetup_prepared hr hne hs₁ (fun v hv => hentry _ sp v hr hv) hkinds
    obtain ⟨m', data', pos', T', hclone, hdone⟩ := Cloning.run setup hprepared
      (fun v hv => by
        rw [hs₁]
        exact hempty v hv)
      (fun v f hf => by
        rw [hrefs] at hf
        have hpending : pending s₁ sp.pml4 ∅ f =
            {w | refsOf unshared s (sp.pml4, w) = some f} := by
          ext w
          simp [pending, hrefs]
        rw [hpending, hmm, (kind_mild (h.accounts.kind _ f hf) hspared).refcount]
        exact hfit v f hf) cpu
    rw [hmm] at hclone
    dsimp only
    rw [show (freshSpace c).pml4 = c from rfl, hclone, bind_eq_bind, bind_some]
    refine ⟨m', _, _, rfl, (nomatch ·), ?_⟩
    rintro ch hch
    cases hch
    refine ⟨rfl, c, rfl, hfree, ?_⟩
    have hfinal : ((s.withMm m').setSpace sp.pml4 (parentSpace sp)).setSpace
        c (clonedSpace areaMem sp c) = s₁.withMm m' := by
      rw [hs₁]
      rfl
    change Cloned U s (((s.withMm m').setSpace sp.pml4
      (parentSpace sp)).setSpace c (clonedSpace areaMem sp c)) _ c sp
    rw [hfinal]
    refine ⟨⟨data', pos', T', hdone.sound⟩, ?_, ?_, ?_⟩
    · intro v hv
      have hparent' := hdone.parentDone v hv hv.page
      rw [hpages, inShared_parentAreas, hentry _ sp v hr hv] at hparent'
      exact hparent'
    · intro v hv
      have hchild' := hdone.childDone v hv hv.page
      rw [hpages, inShared_parentAreas, hentry _ sp v hr hv] at hchild'
      exact hchild'
    · intro r' sp' v hr' hne' hv
      have hrc : r' ≠ c := by
        rintro rfl
        rw [hfree] at hr'
        cases hr'
      have hr₁ : s₁.spaces r' = some sp' := by
        rw [hs₁, spaces_setSpace, if_neg hrc, spaces_setSpace, if_neg hne']
        exact hr'
      exact (hdone.others r' sp' v hr₁ hne' hrc hv).trans (hentry r' sp' v hr' hv)

end BoredOS.Mem.Vmm
