import BoredOS.Lib.Transition
import BoredOS.Mem.Pmm.Release

/-!
# Runs of the Page Allocator

The allocator runs together with its clients, who are known by the references they hold. In every
run in which no page with `PAGE_FLAG_FREE` enters a pool and no reference count overflows, the
blocks on the lists, in the pools and in the hands of the clients partition the usable pages. A
page allocated with the flag of a free page, as the USB drivers do by passing `PMM_ZONE_DMA32`, and
freed into a pool is later merged with its buddy while it is still in the pool.
-/

namespace BoredOS.Mem.Pmm

open Lib.Tiling Lib.DList Lib.Transition Function List Option HandedOut Nat

/-! ## The system -/

structure PmmMachine where
  pmm : PmmState
  held : ℕ → Option Grant

/-- The calls; `pmm_init_percpu` is called once during boot. -/
inductive PmmOp where
  | initPercpu
  | alloc (cpuId order : ℕ) (flags : BitVec 32)
  | pageRef (page : ℕ)
  | pageUnref (cpuId page : ℕ)
  | freeOrder (cpuId page order : ℕ)

/-- What the clients hold after an allocation. -/
def takeGrant (held : ℕ → Option Grant) (order : ℕ) : Option ℕ → ℕ → Option Grant
  | none => held
  | some page => update held page (some ⟨order, 1⟩)

/-- What the clients hold after one of them has taken another reference. -/
def addRef (held : ℕ → Option Grant) (p : ℕ) : ℕ → Option Grant :=
  update held p ((held p).map fun g => ⟨g.order, g.refs + 1⟩)

def applyPmmOp (m : PmmMachine) : PmmOp → Option PmmMachine
  | .initPercpu => some ⟨pmmInitPercpu m.pmm, m.held⟩
  | .alloc cpuId order flags =>
    (pmmAllocOrder m.pmm cpuId order flags).map fun (s, r) => ⟨s, takeGrant m.held order r⟩
  | .pageRef p => some ⟨pmmPageRef m.pmm p, addRef m.held p⟩
  | .pageUnref cpuId p => some ⟨pmmPageUnref m.pmm cpuId p, dropRef m.held p⟩
  | .freeOrder cpuId p order => some ⟨pmmFreeOrder m.pmm cpuId p order, dropRef m.held p⟩

/-- A client releases a block only while it holds a reference and with the order it was allocated
with. -/
def PmmLegal (m : PmmMachine) : PmmOp → Prop
  | .initPercpu => m.pmm.smpReady = false
  | .pageUnref _ p => (m.held p).isSome = true
  | .freeOrder _ p order => (m.held p).map Grant.order = some order
  | _ => True

/-- The call frees a page with `PAGE_FLAG_FREE` into a pool, or takes a reference that does not fit
into 32 bits. -/
def Corrupting (m : PmmMachine) : PmmOp → Prop
  | .pageRef p => ∃ g ∈ m.held p, 2 ^ 32 ≤ g.refs + 1
  | .pageUnref _ p => PoolsMarked m.pmm m.held p
  | .freeOrder _ p _ => PoolsMarked m.pmm m.held p
  | _ => False

instance (m : PmmMachine) : DecidablePred (PmmLegal m) := fun op =>
  match op with
  | .initPercpu => inferInstanceAs (Decidable (m.pmm.smpReady = false))
  | .alloc _ _ _ => inferInstanceAs (Decidable True)
  | .pageRef _ => inferInstanceAs (Decidable True)
  | .pageUnref _ p => inferInstanceAs (Decidable ((m.held p).isSome = true))
  | .freeOrder _ p order => inferInstanceAs (Decidable ((m.held p).map Grant.order = some order))

instance (m : PmmMachine) : DecidablePred (Corrupting m) := fun op =>
  match op with
  | .initPercpu => inferInstanceAs (Decidable False)
  | .alloc _ _ _ => inferInstanceAs (Decidable False)
  | .pageRef p => inferInstanceAs (Decidable (∃ g ∈ m.held p, 2 ^ 32 ≤ g.refs + 1))
  | .pageUnref _ p => inferInstanceAs (Decidable (PoolsMarked m.pmm m.held p))
  | .freeOrder _ p _ => inferInstanceAs (Decidable (PoolsMarked m.pmm m.held p))

/-- The allocator from the end of `pmm_init` on. -/
def pmmSystem (regions : List Region) : System PmmMachine PmmOp where
  init m := pmmInit regions = some m.pmm ∧ m.held = fun _ => none
  step m op m' := applyPmmOp m op = some m'

/-! ## The property -/

/-- The free lists `L`, the pools and the outstanding blocks partition the usable pages. -/
structure Partition (U : Set ℕ) (m : PmmMachine) (L : FreeLists) : Prop where
  linked : ∀ z o, Dll (fun p => (m.pmm.pages p).freeNext) (fun p => (m.pmm.pages p).freePrev)
    ((m.pmm.zones z).freeLists o) (L z o)
  heads : ∀ z o h, h ∈ L z o → o < maxOrder ∧ 2 ^ o ∣ h ∧ InZone z o h
  counted : ∀ z, (m.pmm.zones z).freePages = ∑ o ∈ Finset.range maxOrder, 2 ^ o * (L z o).length
  unique : ∀ u ∈ U, ∃! a : Place, (OnList L a ∨ a ∈ away m.pmm.pcpPools m.held) ∧ u ∈ a.extent
  inside : ∀ a : Place, OnList L a ∨ a ∈ away m.pmm.pcpPools m.held → ∀ u ∈ a.extent, u ∈ U
  pools : ∀ cpu, (m.pmm.pcpPools cpu).Nodup ∧ (m.pmm.pcpPools cpu).length ≤ pcpMaxPages
  aligned : ∀ p g, m.held p = some g → 2 ^ g.order ∣ p

/-- An allocation returns, and its block is aligned, usable and overlaps no outstanding block. -/
def AllocatesApart (U : Set ℕ) (m : PmmMachine) : Prop :=
  ∀ cpuId order flags, ∃ s r, pmmAllocOrder m.pmm cpuId order flags = some (s, r) ∧
    ∀ page, r = some page → 2 ^ order ∣ page ∧ (∀ u ∈ block order page, u ∈ U) ∧
      ∀ q g, m.held q = some g → ∀ u ∈ block order page, u ∉ block g.order q

/-- What the allocator is for. -/
def Partitioned (U : Set ℕ) (m : PmmMachine) : Prop :=
  (∃ L, Partition U m L) ∧ AllocatesApart U m

/-! ## The invariant along a run -/

variable {regions : List Region} {m : PmmMachine}

theorem pmm_init (hmap : BootMap regions)
    (hinit : (pmmSystem regions).init m) : ∃ L, Inv (usablePages regions) m.pmm m.held L := by
  obtain ⟨hrun, hheld⟩ := hinit
  obtain ⟨L, hcore, hfilled, hpools, -⟩ := pmmInit_spec hmap hrun
  rw [hheld]
  refine ⟨L, ?_, hfilled.counted, ⟨(nomatch ·, ·, ·), ?_⟩, ?_, fun _ => hpools⟩
  · apply hcore.congrSet
    rintro ⟨holder, o, p⟩
    cases holder with
    | pool cpu => simp [hpools cpu]
    | _ => simp
  · intro cpu p hp
    rw [hpools cpu] at hp
    exact absurd hp not_mem_nil
  · intro cpu
    rw [hpools cpu]
    exact ⟨nodup_nil, zero_le _, [], [], rfl, by decide, by simp⟩

theorem pmm_step {U : Set ℕ} {m' : PmmMachine} {op : PmmOp} {L : FreeLists}
    (h : Inv U m.pmm m.held L) (hlegal : PmmLegal m op) (hok : ¬ Corrupting m op)
    (hstep : applyPmmOp m op = some m') : ∃ L', Inv U m'.pmm m'.held L' := by
  cases op with
  | initPercpu =>
    cases hstep
    exact ⟨L, pmmInitPercpu_spec h hlegal⟩
  | alloc cpuId order flags =>
    obtain ⟨s, r, hrun, hdone, -, hlt⟩ := pmmAllocOrder_spec h cpuId order flags
    obtain ⟨⟨s', r'⟩, hrun', rfl⟩ := map_eq_some_iff.1 hstep
    cases hrun.symm.trans hrun'
    cases r with
    | none => exact hdone
    | some => exact grant hdone (hlt (by simp))
  | pageRef p =>
    cases hstep
    cases hp : m.held p with
    | none =>
      have hheld : addRef m.held p = m.held := by
        unfold addRef
        rw [hp, map_none, ← hp, update_eq_self]
      refine ⟨L, ?_⟩
      rw [hheld]
      exact h.setRefs_other hp _
    | some g =>
      have hlt : g.refs + 1 < 2 ^ 32 := not_le.1 fun hle => hok ⟨g, hp, hle⟩
      refine ⟨L, ?_⟩
      unfold addRef pmmPageRef
      rw [hp, (h.kept.granted p g hp).refcountField, mod_eq_of_lt hlt]
      exact h.setRefs hp (succ_pos _) hlt
  | pageUnref cpuId p =>
    cases hstep
    obtain ⟨g, hp⟩ := isSome_iff_exists.1 hlegal
    show ∃ L', Inv U (pmmFreeOrder m.pmm cpuId p (m.pmm.pages p).order) (dropRef m.held p) L'
    rw [(h.kept.granted p g hp).orderField]
    obtain ⟨L', hinv, -⟩ := pmmFreeOrder_spec h hp hok cpuId
    exact ⟨L', hinv⟩
  | freeOrder cpuId p order =>
    cases hstep
    obtain ⟨g, hp, rfl⟩ := map_eq_some_iff.1 hlegal
    obtain ⟨L', hinv, -⟩ := pmmFreeOrder_spec h hp hok cpuId
    exact ⟨L', hinv⟩

theorem partitioned_of_inv {U : Set ℕ} {L : FreeLists}
    (h : Inv U m.pmm m.held L) : Partitioned U m := by
  refine ⟨⟨L, ?_⟩, ?_⟩
  · refine ⟨h.core.dll, ?_, h.counted, fun u hu => h.core.tiles.existsUnique hu,
      fun a ha u hu => h.core.tiles.mem ha hu, fun cpu =>
          ⟨(h.pools cpu).nodup, (h.pools cpu).length_le⟩,
      fun p g hp => (h.kept.granted p g hp).aligned⟩
    intro z o p hp
    obtain ⟨hlt, hdvd, -, hzone⟩ := h.core.heads z o p hp
    exact ⟨hlt, hdvd, hzone⟩
  · intro cpuId order flags
    obtain ⟨s, r, hrun, hdone, -, -⟩ := pmmAllocOrder_spec h cpuId order flags
    refine ⟨s, r, hrun, ?_⟩
    rintro page rfl
    obtain ⟨z, halloc⟩ := allocated hdone
    exact ⟨halloc.aligned, fun u hu => usable hdone hu,
      fun q g hq u hu => apart hdone hq hu⟩

/-- In every run without a corrupting call the usable pages are partitioned. -/
theorem pmm_run_partitioned {regions : List Region} (hmap : BootMap regions) {m : PmmMachine}
    (h : (pmmSystem regions).Reachable (fun m op => PmmLegal m op ∧ ¬ Corrupting m op) m) :
    Partitioned (usablePages regions) m := by
  have hinv : ∃ L, Inv (usablePages regions) m.pmm m.held L := by
    apply h.invariant (I := fun m => ∃ L, Inv (usablePages regions) m.pmm m.held L)
    · exact fun m hinit => pmm_init hmap hinit
    · rintro m op m' ⟨L, hinv⟩ ⟨hlegal, hok⟩ hstep
      exact pmm_step hinv hlegal hok hstep
  obtain ⟨L, hinv⟩ := hinv
  exact partitioned_of_inv hinv

/-! ## Concrete runs -/

variable {ok : PmmMachine → PmmOp → Prop}

/-- The allocator after boot, with nothing outstanding. -/
def booted (regions : List Region) : Option PmmMachine :=
  (pmmInit regions).map fun s => ⟨s, fun _ => none⟩

theorem reachable_booted [∀ m op, Decidable (ok m op)] {ops : List PmmOp}
    (hrun : (booted regions).bind (System.runWithin applyPmmOp ok · ops) = some m) :
    (pmmSystem regions).Reachable ok m := by
  obtain ⟨m₀, hboot, hops⟩ := bind_eq_some_iff.1 hrun
  obtain ⟨s, hinit, rfl⟩ := map_eq_some_iff.1 hboot
  exact .of_runWithin (fun _ _ _ h => h) (.start ⟨hinit, rfl⟩) hops

/-- A page through a refilled pool, a second reference to it, and its release. -/
def refOps : List PmmOp :=
  [.initPercpu, .alloc 1 0 0#32, .pageRef 0x100000, .alloc 0 3 4#32, .pageUnref 1 0x100000,
    .freeOrder 1 0x100000 0, .freeOrder 0 0x100010 3]

theorem pmm_run_partitioned_refOps : ∃ m,
    (booted twoRegions).bind (System.runWithin applyPmmOp
      (fun m op => PmmLegal m op ∧ ¬ Corrupting m op) · refOps) =
      some m ∧ Partitioned (usablePages twoRegions) m := by
  refine (isSome_iff_exists.1 ?_).imp fun m hm =>
    ⟨hm, pmm_run_partitioned bootMap_twoRegions (reachable_booted hm)⟩
  decide +kernel

/-- A page allocated with `PMM_ZONE_DMA32` as its flags is freed and stays in the pool, its buddy is
drained with a batch. -/
def drainOps : List PmmOp :=
  [.initPercpu, .alloc 0 0 1#32] ++ List.replicate 17 (.alloc 0 0 4#32) ++ [.alloc 0 0 0#32] ++
    (List.range 18).map fun i => .freeOrder 0 (0x100000 + i) 0

/-- The drain merges the page into a free block of sixteen pages while it is still in the pool. -/
theorem pooled_page_merged : ∃ m, (pmmSystem twoRegions).Reachable PmmLegal m ∧
    (m.pmm.zones .normal).freeLists 4 = some 0x100000 ∧ 0x100000 ∈ m.pmm.pcpPools 0 ∧
    ¬ Partitioned (usablePages twoRegions) m := by
  have hrun : ((booted twoRegions).bind (System.runWithin applyPmmOp PmmLegal · drainOps)).map
      (fun m =>
      decide ((m.pmm.zones .normal).freeLists 4 = some 0x100000 ∧ 0x100000 ∈ m.pmm.pcpPools 0)) =
      some true := by
    decide +kernel
  obtain ⟨m, hm, hfacts⟩ := map_eq_some_iff.1 hrun
  obtain ⟨hlist, hpool⟩ := of_decide_eq_true hfacts
  refine ⟨m, reachable_booted hm, hlist, hpool, ?_⟩
  rintro ⟨⟨L, hpart⟩, -⟩
  -- the block is on the list, so the page has two places
  have hhead := (hpart.linked .normal 4).head_eq
  rw [hlist] at hhead
  have hfree : OnList L ⟨.zone .normal, 4, 0x100000⟩ :=
    onList_zone.2 (mem_of_head? hhead.symm)
  have haway : (⟨.pool 0, 0, 0x100000⟩ : Place) ∈ away m.pmm.pcpPools m.held := ⟨rfl, hpool⟩
  have husable := hpart.inside _ (.inr haway) 0x100000 (head_mem_block 0 _)
  have heq := (hpart.unique _ husable).unique ⟨.inl hfree, head_mem_block 4 _⟩
    ⟨.inr haway, head_mem_block 0 _⟩
  cases heq

/-! ## The account of the pages -/

theorem exists_inv (hmap : BootMap regions)
    (h : (pmmSystem regions).Reachable (fun m op => PmmLegal m op ∧ ¬ Corrupting m op) m) :
    ∃ L, Inv (usablePages regions) m.pmm m.held L :=
  h.invariant (I := fun m => ∃ L, Inv (usablePages regions) m.pmm m.held L)
    (fun _ hinit => pmm_init hmap hinit)
    fun _ _ _ ⟨_, hinv⟩ hop hstep => pmm_step hinv hop.1 hop.2 hstep

def pagesOf (P : Place → Prop) : Set ℕ := {u | ∃ a, P a ∧ u ∈ a.extent}

/-- The blocks on the lists do not overlap, so their sizes add up. -/
theorem ncard_listed {U : Set ℕ} {X : Set Place} {s : PmmState} {L : FreeLists}
    (h : Core U X s L) (hcount : Counted s L) : (pagesOf (OnList L)).ncard = statsFreePages s := by
  let S : Finset (Σ _ : ZoneId, Σ _ : ℕ, ℕ) := Finset.sigma {.dma, .dma32, .normal} fun z =>
    (Finset.range maxOrder).sigma fun o => (L z o).toFinset
  have hS : ∀ a ∈ S, OnList L ⟨.zone a.1, a.2.1, a.2.2⟩ :=
      fun a ha => onList_zone.2 (by simp_all [S])
  have hset : pagesOf (OnList L) = S.biUnion fun a => Finset.Ico a.2.2 (a.2.2 + 2 ^ a.2.1) := by
    ext u
    simp only [Finset.coe_biUnion, Set.mem_iUnion]
    constructor
    · rintro ⟨⟨_, o, p⟩, ⟨z, rfl, hp⟩, hu⟩
      have := (h.heads z o p hp).1
      refine ⟨⟨z, o, p⟩, ?_, Finset.mem_coe.2 (Finset.mem_Ico.2 hu)⟩
      cases z <;> simp_all [S]
    · rintro ⟨a, ha, hu⟩
      exact ⟨_, hS a ha, Finset.mem_Ico.1 hu⟩
  rw [hset, Set.ncard_coe_finset, Finset.card_biUnion]
  · simp [S, Finset.sum_sigma, statsFreePages, hcount _, listed, mul_comm, add_assoc,
      toFinset_card_of_nodup (h.dll _ _).nodup]
  · rintro ⟨z, o, p⟩ ha ⟨z', o', p'⟩ hb hne
    refine Finset.disjoint_left.2 fun u hu hu' => hne ?_
    cases h.tiles.disj _ (.inl (hS _ ha)) _ (.inl (hS _ hb)) u (Finset.mem_Ico.1 hu)
      (Finset.mem_Ico.1 hu')
    rfl

/-- In every such run no usable page is lost: it is free, in a pool or outstanding. -/
theorem pages_accounted (hmap : BootMap regions)
    (h : (pmmSystem regions).Reachable (fun m op => PmmLegal m op ∧ ¬ Corrupting m op) m) :
    statsFreePages m.pmm + (pagesOf (· ∈ away m.pmm.pcpPools m.held)).ncard =
      (usablePages regions).ncard := by
  obtain ⟨L, hinv⟩ := exists_inv hmap h
  have htiles := hinv.core.tiles
  have hU : pagesOf (OnList L) ∪ pagesOf (· ∈ away m.pmm.pcpPools m.held) =
      usablePages regions := by
    ext u
    simp [pagesOf, htiles.cover, or_and_right, exists_or]
  have hfinite : (usablePages regions).Finite := (Set.finite_Iio _).subset hinv.core.below
  rw [← ncard_listed hinv.core hinv.counted, ← hU, Set.ncard_union_eq _
    (hfinite.subset (hU ▸ Set.subset_union_left)) (hfinite.subset (hU ▸ Set.subset_union_right))]
  -- a place off the lists has another holder
  rw [Set.disjoint_left]
  rintro u ⟨a, ⟨z, hz, ha⟩, hu⟩ ⟨b, hb, hu'⟩
  obtain rfl := htiles.disj a (.inl ⟨z, hz, ha⟩) b (.inr hb) u hu hu'
  exact hinv.core.offList a hb z hz

theorem pages_accounted_refOps : ∃ m,
    (booted twoRegions).bind (System.runWithin applyPmmOp
      (fun m op => PmmLegal m op ∧ ¬ Corrupting m op) · refOps) =
      some m ∧ statsFreePages m.pmm + (pagesOf (· ∈ away m.pmm.pcpPools m.held)).ncard =
      (usablePages twoRegions).ncard := by
  refine (isSome_iff_exists.1 ?_).imp fun m hm =>
    ⟨hm, pages_accounted bootMap_twoRegions (reachable_booted hm)⟩
  decide +kernel

/-! ## Allocations that fail -/

theorem findBlock_eq_none {lists : ℕ → Option ℕ} {fuel curr o : ℕ}
    (h : findBlock lists fuel curr = none) (hle : curr ≤ o) (hfuel : o < curr + fuel)
    (ho : o < maxOrder) : lists o = none := by
  induction fuel generalizing curr with
  | zero => omega
  | succ fuel ih =>
    unfold findBlock at h
    rw [if_pos (hle.trans_lt ho)] at h
    cases hlist : lists curr with
    | none =>
      rw [hlist] at h
      rcases hle.eq_or_lt with rfl | hlt
      · exact hlist
      · exact ih h hlt (by omega)
    | some =>
      rw [hlist] at h
      cases h

variable {s s' : PmmState} {z : ZoneId} {order : ℕ} {flags : BitVec 32}

/-- No list of the zone has a block of that order or a larger one. -/
def Exhausted (s : PmmState) (order : ℕ) (z : ZoneId) : Prop :=
  ∀ o, order ≤ o → o < maxOrder → (s.zones z).freeLists o = none

theorem allocFromZoneLocked_none (h : allocFromZoneLocked s z order flags = some (s', none)) :
    s' = s ∧ Exhausted s order z := by
  unfold allocFromZoneLocked at h
  cases hfind : findBlock (s.zones z).freeLists (maxOrder + 1) order with
  | none =>
    rw [hfind] at h
    cases h
    exact ⟨rfl, fun o hle ho => findBlock_eq_none hfind hle (by omega) ho⟩
  | some => simp [hfind, bind_eq_some_iff] at h

theorem allocFromZones_none {zs : List ZoneId}
    (h : allocFromZones order flags zs s = some (s', none)) :
    s' = s ∧ ∀ z ∈ zs, Exhausted s order z := by
  induction zs with
  | nil =>
    cases h
    exact ⟨rfl, nofun⟩
  | cons z zs ih =>
    obtain ⟨⟨s₁, r⟩, hz, hrest⟩ := bind_eq_some_iff.1 h
    cases r with
    | some => cases hrest
    | none =>
      obtain ⟨rfl, hfind⟩ := allocFromZoneLocked_none hz
      obtain ⟨hs, hall⟩ := ih hrest
      exact ⟨hs, forall_mem_cons.2 ⟨hfind, hall⟩⟩

/-- An empty batch has changed nothing. -/
theorem fetchBatch_nil {n : ℕ} (h : fetchBatch z (n + 1) s = some (s', [])) : s' = s := by
  obtain ⟨⟨s₁, r⟩, hz, hrest⟩ := bind_eq_some_iff.1 h
  cases r with
  | none =>
    cases hrest
    exact (allocFromZoneLocked_none hz).1
  | some => simp [bind_eq_some_iff] at hrest

theorem pmmAllocOrder_none {cpuId : ℕ} (h : pmmAllocOrder s cpuId order flags = some (s', none)) :
    maxOrder ≤ order ∨ ∀ z ∈ zonesFor flags, Exhausted s order z := by
  unfold pmmAllocOrder at h
  split_ifs at h with hlarge hfast
  · exact .inl hlarge
  · obtain ⟨rfl, -⟩ := hfast
    unfold allocFromPool at h
    split at h
    · cases h
    · obtain ⟨⟨s₁, batch⟩, hfetch, hrest⟩ := bind_eq_some_iff.1 h
      cases batch with
      | cons => cases hrest
      | nil =>
        -- without a batch the zones are tried, from the same state
        obtain rfl := fetchBatch_nil hfetch
        exact .inr (allocFromZones_none hrest).2
  · exact .inr (allocFromZones_none h).2

/-- While a page is free, the allocation of a page that may come from any zone succeeds. -/
theorem alloc_page_of_free (hmap : BootMap regions)
    (h : (pmmSystem regions).Reachable (fun m op => PmmLegal m op ∧ ¬ Corrupting m op) m)
    (cpuId : ℕ) (hzones : ∀ z, z ∈ zonesFor flags) (hfree : statsFreePages m.pmm ≠ 0) :
    ∃ s page, pmmAllocOrder m.pmm cpuId 0 flags = some (s, some page) := by
  obtain ⟨L, hinv⟩ := exists_inv hmap h
  obtain ⟨s, r, hrun, -⟩ := pmmAllocOrder_spec hinv cpuId 0 flags
  cases r with
  | some page => exact ⟨s, page, hrun⟩
  | none =>
    -- every list was empty, and the counters are those of the lists
    have hlists := (pmmAllocOrder_none hrun).resolve_left (by decide)
    refine absurd ?_ hfree
    have hzero : ∀ z, (m.pmm.zones z).freePages = 0 := by
      intro z
      rw [hinv.counted, listed]
      refine Finset.sum_eq_zero fun o ho => ?_
      have hhead := (hinv.core.dll z o).head_eq
      rw [hlists z (hzones z) o o.zero_le (Finset.mem_range.1 ho)] at hhead
      rw [head?_eq_none_iff.1 hhead.symm]
      rfl
    simp [statsFreePages, hzero]

theorem alloc_page_of_free_refOps : ∃ m,
    (booted twoRegions).bind (System.runWithin applyPmmOp
      (fun m op => PmmLegal m op ∧ ¬ Corrupting m op) · refOps) =
      some m ∧ ∃ s page, pmmAllocOrder m.pmm 1 0 0#32 = some (s, some page) := by
  have hrun : ((booted twoRegions).bind (System.runWithin applyPmmOp
      (fun m op => PmmLegal m op ∧ ¬ Corrupting m op) ·
      refOps)).any (fun m => statsFreePages m.pmm ≠ 0) = true := by
    decide +kernel
  obtain ⟨m, hm, hfree⟩ := (Option.any_eq_true ..).1 hrun
  exact ⟨m, hm, alloc_page_of_free bootMap_twoRegions (reachable_booted hm) 1
    (by rintro ⟨⟩ <;> decide) (of_decide_eq_true hfree)⟩

end BoredOS.Mem.Pmm
