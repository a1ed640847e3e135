import BoredOS.Mem.Pmm.Init
import BoredOS.Lib.Update

/-!
# Pools and Outstanding Blocks

Off the free lists a block is in the pool of a CPU or held by a client. `Inv` says what the
descriptors of these blocks look like. In a pool no descriptor has `PAGE_FLAG_FREE`, so that a page
in a pool is never taken for a free buddy, and above the fifteen lowest pages of a pool there are
only pages of `ZONE_NORMAL`, so that a drain never puts a page of another zone on its lists.
-/

namespace BoredOS.Mem.Pmm

open Lib.Tiling Function List Lib.Update PmmState
open Option (bind_eq_bind bind_some)

variable {pools : ℕ → List ℕ} {held : ℕ → Option Grant} {s s' : PmmState}

/-- An outstanding block: its order and the references its clients hold. -/
structure Grant where
  order : ℕ
  refs : ℕ
  deriving DecidableEq

/-- The blocks in the pools and those held by clients. -/
def away (pools : ℕ → List ℕ) (held : ℕ → Option Grant) : Set Place :=
  {a | match a.holder with
    | .pool cpu => a.order = 0 ∧ a.head ∈ pools cpu
    | .client => ∃ g, held a.head = some g ∧ g.order = a.order
    | _ => False}

variable {g : Grant} {pool rest : List ℕ}

section

variable {cpu o p : ℕ} {z : ZoneId}

@[simp] theorem pool_mem_away :
    (⟨.pool cpu, o, p⟩ : Place) ∈ away pools held ↔ o = 0 ∧ p ∈ pools cpu := .rfl

@[simp] theorem client_mem_away :
    (⟨.client, o, p⟩ : Place) ∈ away pools held ↔ ∃ g, held p = some g ∧ g.order = o := .rfl

@[simp] theorem hand_not_mem_away : (⟨.hand, o, p⟩ : Place) ∉ away pools held := id

@[simp] theorem zone_not_mem_away : (⟨.zone z, o, p⟩ : Place) ∉ away pools held := id

theorem noHand_away : NoHand (away pools held) := by
  rintro ⟨-, o, p⟩ ha rfl
  exact hand_not_mem_away ha

theorem away_grant (hp : held p = none) (g : Grant) (a : Place) :
    a ∈ away pools (update held p (some g)) ↔ a ∈ away pools held ∨ a = ⟨.client, g.order, p⟩ := by
  obtain ⟨holder, o, q⟩ := a
  cases holder with
  | client =>
    by_cases hq : q = p
    · subst hq
      simp [hp, eq_comm]
    · simp [hq]
  | _ => simp

/-- The reference count of a grant does not matter. -/
theorem away_regrant (hp : held p = some g) (refs : ℕ) (a : Place) :
    a ∈ away pools (update held p (some ⟨g.order, refs⟩)) ↔ a ∈ away pools held := by
  obtain ⟨holder, o, q⟩ := a
  cases holder with
  | client =>
    by_cases hq : q = p
    · subst hq
      simp [hp]
    · simp [hq]
  | _ => simp

theorem away_release (hp : held p = some g) (a : Place) : a ∈ away pools (update held p none) ↔
      a ∈ away pools held ∧ a ≠ ⟨.client, g.order, p⟩ := by
  obtain ⟨holder, o, q⟩ := a
  cases holder with
  | client =>
    by_cases hq : q = p
    · subst hq
      simp [hp, eq_comm]
    · simp [hq]
  | _ => simp

/-- `X` and single pages in the pool of a CPU. -/
def withPool (X : Set Place) (cpu : ℕ) (ps : List ℕ) : Set Place :=
  {a | a ∈ X ∨ ∃ p ∈ ps, a = ⟨.pool cpu, 0, p⟩}

theorem withPool_noHand {X : Set Place} (hX : NoHand X) (cpu : ℕ) (ps : List ℕ) :
    NoHand (withPool X cpu ps) := by
  rintro a (ha | ⟨p, -, rfl⟩)
  · exact hX a ha
  · exact fun h => by cases h

/-- The pool of a CPU in parts. -/
theorem away_append (ps rest : List ℕ) (a : Place) : a ∈ away (update pools cpu (ps ++ rest)) held ↔
      a ∈ withPool (away (update pools cpu rest) held) cpu ps := by
  obtain ⟨holder, o, q⟩ := a
  cases holder with
  | pool c =>
    simp only [withPool, Set.mem_ofPred_eq, pool_mem_away, update_apply,
      Place.mk.injEq, Holder.pool.injEq]
    by_cases hc : c = cpu
    · subst hc
      simp [or_comm, or_and_right, and_comm]
    · simp [hc]
  | _ => simp [withPool]

/-- The order of the pages in a pool does not matter. -/
theorem away_perm {pool' : List ℕ} (h : ∀ q, q ∈ pool ↔ q ∈ pool') (a : Place) :
    a ∈ away (update pools cpu pool) held ↔ a ∈ away (update pools cpu pool') held := by
  obtain ⟨holder, o, q⟩ := a
  cases holder with
  | pool c =>
    by_cases hc : c = cpu
    · simp [hc, h q]
    · simp [hc]
  | _ => simp

/-- The top page leaves the pool of a CPU. -/
theorem away_pop (hp : p ∉ rest) (a : Place) : a ∈ away (update pools cpu rest) held ↔
      a ∈ away (update pools cpu (p :: rest)) held ∧ a ≠ ⟨.pool cpu, 0, p⟩ := by
  obtain ⟨holder, o, q⟩ := a
  cases holder with
  | pool c =>
    simp only [pool_mem_away, update_apply, ne_eq, Place.mk.injEq, Holder.pool.injEq]
    by_cases hc : c = cpu
    · subst hc
      grind
    · simp [hc]
  | _ => simp

end

/-! ## The invariant -/

/-- The descriptor of an outstanding block. -/
structure Granted (s : PmmState) (p : ℕ) (g : Grant) : Prop where
  order_lt : g.order < maxOrder
  aligned : 2 ^ g.order ∣ p
  zone : InZone (zoneOf p) g.order p
  orderField : (s.pages p).order = g.order
  refcountField : (s.pages p).refcount = g.refs
  refs_pos : 0 < g.refs
  refs_lt : g.refs < 2 ^ 32

/-- A pool of a CPU: the last page stored first, and other zones only at the bottom. -/
structure PoolOk (pool : List ℕ) : Prop where
  nodup : pool.Nodup
  length_le : pool.length ≤ pcpMaxPages
  layered : ∃ upper lower, pool = upper ++ lower ∧ lower.length < pcpBatchSize ∧
    ∀ p ∈ upper, zoneOf p = .normal

/-- What the descriptors of the blocks off the lists look like. -/
structure Kept (s : PmmState) (pools : ℕ → List ℕ) (held : ℕ → Option Grant) : Prop where
  granted : ∀ p g, held p = some g → Granted s p g
  unmarked : ∀ cpu, ∀ p ∈ pools cpu, (s.pages p).flags &&& pageFlagFree = 0

/-- The invariant of the allocator. -/
structure Inv (U : Set ℕ) (s : PmmState) (held : ℕ → Option Grant) (L : FreeLists) : Prop where
  core : Core U (away s.pcpPools held) s L
  counted : Counted s L
  kept : Kept s s.pcpPools held
  pools : ∀ cpu, PoolOk (s.pcpPools cpu)
  unready : s.smpReady = false → ∀ cpu, s.pcpPools cpu = []

section

theorem Granted.congr {p : ℕ} (h : Granted s p g) (horder : (s'.pages p).order = (s.pages p).order)
    (hrefs : (s'.pages p).refcount = (s.pages p).refcount) : Granted s' p g :=
  ⟨h.order_lt, h.aligned, h.zone, horder.trans h.orderField, hrefs.trans h.refcountField,
    h.refs_pos, h.refs_lt⟩

theorem Kept.frame (h : Kept s pools held) (hframe : Frame (away pools held) s s') :
    Kept s' pools held := by
  refine ⟨?_, ?_⟩
  · intro p g hp
    have hmem : (⟨.client, g.order, p⟩ : Place) ∈ away pools held := ⟨g, hp, rfl⟩
    exact (h.granted p g hp).congr (hframe.head hmem).order (hframe.head hmem).refcount
  · intro cpu p hp
    have hmem : (⟨.pool cpu, 0, p⟩ : Place) ∈ away pools held := ⟨rfl, hp⟩
    rw [(hframe.head hmem).flags]
    exact h.unmarked cpu p hp

theorem Kept.quiet (h : Kept s pools held) : ∀ a ∈ away pools held, Quiet s a := by
  rintro ⟨holder, o, p⟩ ha
  cases holder with
  | pool cpu =>
    obtain ⟨rfl, hp⟩ := pool_mem_away.1 ha
    exact ⟨one_dvd p, fun hfree => absurd (h.unmarked cpu p hp) hfree⟩
  | client =>
    obtain ⟨g, hp, rfl⟩ := client_mem_away.1 ha
    have hg := h.granted p g hp
    refine ⟨hg.aligned, fun _ => ?_⟩
    have := hg.refcountField
    have := hg.refs_pos
    show (s.pages p).refcount ≠ 0
    omega
  | zone => exact absurd ha zone_not_mem_away
  | hand => exact absurd ha hand_not_mem_away

theorem Kept.shrink {cpu : ℕ}
    (h : Kept s (update pools cpu pool) held) (hsub : ∀ p ∈ rest, p ∈ pool) :
    Kept s (update pools cpu rest) held := by
  refine ⟨h.granted, ?_⟩
  intro c p hp
  apply h.unmarked c p
  rw [update_apply] at hp ⊢
  by_cases hc : c = cpu
  · rw [if_pos hc] at hp ⊢
    exact hsub p hp
  · rw [if_neg hc] at hp ⊢
    exact hp

end

/-- The pages that clients hold keep their descriptors. -/
structure Untouched (held : ℕ → Option Grant) (s s' : PmmState) : Prop where
  desc : ∀ q g, held q = some g → ∀ u ∈ block g.order q, SameDesc s s' u
  total : s'.totalPageCount = s.totalPageCount

section

theorem Untouched.refl (held : ℕ → Option Grant) (s : PmmState) : Untouched held s s :=
  ⟨fun _ _ _ u _ => .refl s u, rfl⟩

theorem Untouched.trans {s₁ s₂ s₃ : PmmState} (h : Untouched held s₁ s₂)
    (h' : Untouched held s₂ s₃) : Untouched held s₁ s₃ :=
  ⟨fun q g hq u hu => (h.desc q g hq u hu).trans (h'.desc q g hq u hu), h'.total.trans h.total⟩

theorem untouched_setPool (held : ℕ → Option Grant) (s : PmmState) (cpu : ℕ) (pool : List ℕ) :
    Untouched held s (s.setPool cpu pool) :=
  ⟨fun _ _ _ _ _ => ⟨rfl, rfl, rfl⟩, rfl⟩

theorem Frame.untouched (h : Frame (away pools held) s s') : Untouched held s s' :=
  ⟨fun q g hq => h.desc ⟨.client, g.order, q⟩ ⟨g, hq, rfl⟩, h.total⟩

end

theorem poolOk_update {pools : ℕ → List ℕ} (hpools : ∀ cpu, PoolOk (pools cpu)) {cpu : ℕ}
    (hpool : PoolOk pool) (c : ℕ) : PoolOk (update pools cpu pool c) := by
  rw [update_apply]
  split
  next => exact hpool
  next => exact hpools c

variable {U : Set ℕ} {X : Set Place} {L : FreeLists}

/-- A block changes its holder and nothing else. -/
theorem Core.handOver (h : Core U X s L) {a b : Place} (ha : a ∈ X) (hext : b.extent = a.extent)
    (hb : ∀ z, b.holder ≠ .zone z) : Core U {x | (x ∈ X ∧ x ≠ a) ∨ x = b} s L := by
  apply h.retile
  · apply (h.tiles.rename (.inr ha) hext).congr
    intro x
    constructor
    · rintro (hx | ⟨hx, hne⟩ | hx)
      · refine .inl ⟨.inl hx, fun heq => ?_⟩
        obtain ⟨z, hz, -⟩ := hx
        exact h.offList a ha z (heq ▸ hz)
      · exact .inl ⟨.inr hx, hne⟩
      · exact .inr hx
    · rintro (⟨hx | hx, hne⟩ | hx)
      · exact .inl hx
      · exact .inr (.inl ⟨hx, hne⟩)
      · exact .inr (.inr hx)
  · rintro x (⟨hx, -⟩ | rfl)
    · exact h.offList x hx
    · exact hb

theorem Core.pick (h : Core U X s L) {a : Place} (ha : a ∈ X) :
    Core U (withHand {x | x ∈ X ∧ x ≠ a} a.order a.head) s L :=
  h.handOver (b := ⟨.hand, a.order, a.head⟩) ha rfl fun _ heq => by cases heq

/-- The block in the hand is given away. -/
theorem Core.give {o p : ℕ} (h : Core U (withHand X o p) s L) (hX : NoHand X) (holder : Holder)
    (hholder : ∀ z, holder ≠ .zone z) : Core U {x | x ∈ X ∨ x = ⟨holder, o, p⟩} s L := by
  have hover := h.handOver (a := ⟨.hand, o, p⟩) (b := ⟨holder, o, p⟩) (.inr rfl) rfl hholder
  apply hover.congrSet
  intro x
  constructor
  · rintro (hx | hx)
    · exact .inl ⟨.inl hx, fun heq => hX x hx (by rw [heq])⟩
    · exact .inr hx
  · rintro (⟨hx | hx, hne⟩ | hx)
    · exact .inl hx
    · exact absurd hx hne
    · exact .inr hx

/-!
## `pmm_alloc_order`

An allocation takes a page from the pool of the CPU, fetches a batch for the pool, or takes a block
from the zones. The block it returns is in the hand of the call (`HandedOut`) until the client has
it: it is aligned and overlaps no outstanding block.
-/

variable {U : Set ℕ} {X : Set Place} {s : PmmState} {L : FreeLists} {held : ℕ → Option Grant}

/-! ## Batches -/

/-- The pages of a batch are ordinary pages of the zone. -/
structure Fetched (X : Set Place) (s : PmmState) (batch : List ℕ) : Prop where
  nodup : batch.Nodup
  fresh : ∀ p ∈ batch, ∀ a ∈ X, a.head ≠ p
  flags : ∀ p ∈ batch, (s.pages p).flags = 0

/-- Every page of the batch belongs to the pool, also when the zone runs dry half way. -/
theorem fetchBatch_spec (z : ZoneId) (cpu : ℕ) : ∀ (n : ℕ) {X : Set Place} {s : PmmState}
    {L : FreeLists}, NoHand X → Core U X s L → Counted s L →
    ∃ s' batch L', fetchBatch z n s = some (s', batch) ∧ Core U (withPool X cpu batch) s' L' ∧
      Counted s' L' ∧ Frame X s s' ∧ batch.length ≤ n ∧ Fetched X s' batch := by
  intro n
  induction n with
  | zero =>
    intro X s L _ h hcount
    refine ⟨s, [], L, rfl, ?_, hcount, .refl X s, le_refl 0, ?_⟩
    · apply h.congrSet
      simp [withPool]
    · exact ⟨nodup_nil, by simp, by simp⟩
  | succ n ih =>
    intro X s L hX h hcount
    unfold fetchBatch
    obtain ⟨s₁, r, hrun, hnone, hsome⟩ := allocFromZoneLocked_spec 0 0#32 h hcount hX z
    rw [hrun, bind_eq_bind, bind_some]
    cases r with
    | none =>
      obtain rfl := hnone rfl
      refine ⟨s₁, [], L, rfl, ?_, hcount, .refl X s₁, Nat.zero_le _, ?_⟩
      · apply h.congrSet
        simp [withPool]
      · exact ⟨nodup_nil, by simp, by simp⟩
    | some page =>
      obtain ⟨L₁, hcore₁, hcount₁, hframe₁, halloc⟩ := hsome page rfl
      have hfresh := hcore₁.head_ne hX (head_mem_block 0 page)
      -- the page counts as one of the pool while the others are fetched
      have hgive := hcore₁.give hX (.pool cpu) fun _ heq => by cases heq
      have hnoHand : NoHand {x | x ∈ X ∨ x = ⟨.pool cpu, 0, page⟩} := by
        rintro x (hx | rfl)
        · exact hX x hx
        · exact fun heq => by cases heq
      obtain ⟨s₂, batch, L₂, hrun₂, hcore₂, hcount₂, hframe₂, hlen, hfetched⟩ :=
        ih hnoHand hgive hcount₁
      have hpage : (⟨.pool cpu, 0, page⟩ : Place) ∈ {x | x ∈ X ∨ x = ⟨.pool cpu, 0, page⟩} :=
        .inr rfl
      dsimp only
      rw [hrun₂, bind_eq_bind, bind_some]
      refine ⟨s₂, page :: batch, L₂, rfl, ?_, hcount₂,
        hframe₁.trans (hframe₂.mono fun a ha => .inl ha), Nat.succ_le_succ hlen, ?_⟩
      · apply hcore₂.congrSet
        intro a
        simp only [withPool, Set.mem_ofPred_eq, exists_mem_cons_iff, or_assoc]
      · refine ⟨nodup_cons.2 ⟨fun hmem => ?_, hfetched.nodup⟩, ?_, ?_⟩
        · exact hfetched.fresh page hmem _ hpage rfl
        · intro p hp
          rcases mem_cons.1 hp with rfl | hp
          · exact hfresh
          · exact fun a ha => hfetched.fresh p hp a (.inl ha)
        · intro p hp
          rcases mem_cons.1 hp with rfl | hp
          · rw [(hframe₂.head hpage).flags, halloc.flagsField]
            rfl
          · exact hfetched.flags p hp

/-! ## Allocation -/

/-- The zones are asked in turn. -/
theorem allocFromZones_spec (order : ℕ) (flags : BitVec 32) (h : Core U X s L)
    (hcount : Counted s L) (hX : NoHand X) : ∀ zs : List ZoneId,
    ∃ s' r, allocFromZones order flags zs s = some (s', r) ∧ (r = none → s' = s) ∧
      ∀ page, r = some page → ∃ z L', Core U (withHand X order page) s' L' ∧ Counted s' L' ∧
        Frame X s s' ∧ Allocated z order page flags s' := by
  intro zs
  induction zs with
  | nil => exact ⟨s, none, rfl, fun _ => rfl, (nomatch ·, ·)⟩
  | cons z zs ih =>
    unfold allocFromZones
    obtain ⟨s₁, r, hrun, hnone, hsome⟩ := allocFromZoneLocked_spec order flags h hcount hX z
    rw [hrun, bind_eq_bind, bind_some]
    cases r with
    | none =>
      obtain rfl := hnone rfl
      exact ih
    | some page =>
      refine ⟨s₁, some page, rfl, (nomatch ·), fun q hq => ?_⟩
      exact ⟨z, hsome q hq⟩

/-- A block has been allocated and is in the hand of the call. -/
structure HandedOut (U : Set ℕ) (s : PmmState) (held : ℕ → Option Grant) (flags : BitVec 32)
    (order page : ℕ) : Prop where
  core : ∃ L, Core U (withHand (away s.pcpPools held) order page) s L ∧ Counted s L
  kept : Kept s s.pcpPools held
  pools : ∀ cpu, PoolOk (s.pcpPools cpu)
  unready : s.smpReady = false → ∀ cpu, s.pcpPools cpu = []
  allocated : ∃ z, Allocated z order page flags s

variable {flags : BitVec 32} {order page : ℕ}

section

variable (h : HandedOut U s held flags order page)

include h

/-- The block in the hand overlaps no outstanding block. -/
theorem HandedOut.apart {q : ℕ} {g : Grant}
    (hq : held q = some g) {u : ℕ} (hu : u ∈ block order page) : u ∉ block g.order q := by
  intro hmem
  obtain ⟨L, hcore, -⟩ := h.core
  have heq := hcore.tiles.disj ⟨.client, g.order, q⟩ (.inr (.inl ⟨g, hq, rfl⟩))
    ⟨.hand, order, page⟩ (.inr (.inr rfl)) u hmem hu
  cases heq

theorem HandedOut.usable {u : ℕ} (hu : u ∈ block order page) : u ∈ U := by
  obtain ⟨L, hcore, -⟩ := h.core
  exact hcore.mem_usable (a := ⟨.hand, order, page⟩) (.inr rfl) hu

/-- A block in hand is granted to the caller. -/
theorem HandedOut.grant (hlt : order < maxOrder) :
    ∃ L, Inv U s (update held page (some ⟨order, 1⟩)) L := by
  obtain ⟨L, hcore, hcount⟩ := h.core
  obtain ⟨z, halloc⟩ := h.allocated
  have hnone : held page = none := by
    cases hp : held page with
    | none => rfl
    | some g => exact absurd (head_mem_block g.order page) (h.apart hp (head_mem_block order page))
  have hgive := hcore.give noHand_away .client fun _ heq => by cases heq
  refine ⟨L, ⟨hgive.congrSet (away_grant hnone _), hcount, ⟨?_, h.kept.unmarked⟩, h.pools,
    h.unready⟩⟩
  intro p g hp
  rw [update_apply] at hp
  split at hp
  next heq =>
    cases hp
    subst heq
    refine ⟨hlt, halloc.aligned, ?_, halloc.orderField, halloc.refcountField,
      Nat.one_pos, Nat.one_lt_two_pow (by decide)⟩
    intro u hu
    rw [halloc.zone u hu, halloc.zone p (head_mem_block order p)]
  next => exact h.kept.granted p g hp

end

/-- The outcome of an allocation. -/
def AllocDone (U : Set ℕ) (s : PmmState) (held : ℕ → Option Grant) (flags : BitVec 32)
    (order : ℕ) : Option ℕ → Prop
  | none => ∃ L, Inv U s held L
  | some page => HandedOut U s held flags order page

theorem allocFromZones_done (h : Inv U s held L) (order : ℕ) (flags : BitVec 32)
    (zs : List ZoneId) :
    ∃ s' r, allocFromZones order flags zs s = some (s', r) ∧ AllocDone U s' held flags order r ∧
      Untouched held s s' := by
  obtain ⟨s', r, hrun, hnone, hsome⟩ :=
    allocFromZones_spec order flags h.core h.counted noHand_away zs
  refine ⟨s', r, hrun, ?_⟩
  cases r with
  | none =>
    obtain rfl := hnone rfl
    exact ⟨⟨L, h⟩, .refl held s'⟩
  | some page =>
    obtain ⟨z, L', hcore, hcount, hframe, halloc⟩ := hsome page rfl
    refine ⟨⟨⟨L', ?_, hcount⟩, ?_, ?_, ?_, z, halloc⟩, hframe.untouched⟩
    · rw [hframe.pools]
      exact hcore
    · rw [hframe.pools]
      exact h.kept.frame hframe
    · rw [hframe.pools]
      exact h.pools
    · rw [hframe.pools, hframe.ready]
      exact h.unready

/-- The top page of a pool. -/
theorem PoolOk.tail {page : ℕ} {rest : List ℕ} (h : PoolOk (page :: rest)) : PoolOk rest := by
  have hlen := h.length_le
  rw [length_cons] at hlen
  refine ⟨(nodup_cons.1 h.nodup).2, by omega, ?_⟩
  obtain ⟨upper, lower, heq, hlower, hzone⟩ := h.layered
  cases upper with
  | nil =>
    refine ⟨[], rest, rfl, ?_, by simp⟩
    rw [nil_append] at heq
    rw [← heq, length_cons] at hlower
    omega
  | cons p upper =>
    obtain ⟨rfl, rfl⟩ := List.cons.inj heq
    exact ⟨upper, lower, rfl, hlower, fun q hq => hzone q (mem_cons_of_mem page hq)⟩

/-- The page on top of a pool is taken for the client. -/
theorem takeTop_spec {cpu : ℕ} {rest : List ℕ} (flags : BitVec 32)
    (hcore : Core U (away (update s.pcpPools cpu (page :: rest)) held) s L)
    (hcount : Counted s L) (hkept : Kept s (update s.pcpPools cpu (page :: rest)) held)
    (hpage : page ∉ rest) (hpool : PoolOk rest) (hpools : ∀ cpu, PoolOk (s.pcpPools cpu))
    (hready : s.smpReady = true) :
    HandedOut U (markAllocated (s.setPool cpu rest) page 0 flags) held flags 0 page ∧
      Untouched held s (markAllocated (s.setPool cpu rest) page 0 flags) := by
  have hhand : Core U (withHand (away (update s.pcpPools cpu rest) held) 0 page)
      (s.setPool cpu rest) L := by
    have hpick := hcore.pick (a := ⟨.pool cpu, 0, page⟩) ⟨rfl, by simp⟩
    exact (hpick.congrSet fun a => or_congr_left (away_pop hpage a)).congr rfl (fun _ => rfl) rfl
  have hin : InZone (zoneOf page) 0 page := by
    intro u hu
    rw [mem_block] at hu
    rw [show u = page by omega]
  obtain ⟨hcore', hframe, halloc⟩ :=
    markAllocated_spec flags hhand noHand_away (one_dvd page) hin
  have hrest : Kept (s.setPool cpu rest) (update s.pcpPools cpu rest) held := by
    have hshrink := hkept.shrink fun p hp => mem_cons_of_mem page hp
    exact ⟨fun p g hp => (hshrink.granted p g hp).congr rfl rfl, hshrink.unmarked⟩
  refine ⟨⟨⟨L, hcore', hcount⟩, hrest.frame hframe, poolOk_update hpools hpool, ?_,
    zoneOf page, halloc⟩, (untouched_setPool held s cpu rest).trans hframe.untouched⟩
  intro hunready
  rw [show s.smpReady = false from hunready] at hready
  cases hready

/-- A pool that is empty is filled first, and a pool that stays empty falls back to the zones. -/
theorem allocFromPool_spec (h : Inv U s held L) (hready : s.smpReady = true) (cpu : ℕ)
    (flags : BitVec 32) :
    ∃ s' r, allocFromPool s cpu flags = some (s', r) ∧ AllocDone U s' held flags 0 r ∧
      Untouched held s s' := by
  unfold allocFromPool
  cases hpool : s.pcpPools cpu with
  | cons page rest =>
    have hself : update s.pcpPools cpu (page :: rest) = s.pcpPools := by
      rw [← hpool, update_eq_self]
    have hok := h.pools cpu
    rw [hpool] at hok
    refine ⟨_, some page, rfl, takeTop_spec flags ?_ h.counted ?_ (nodup_cons.1 hok.nodup).1
      hok.tail h.pools hready⟩
    · rw [hself]
      exact h.core
    · rw [hself]
      exact h.kept
  | nil =>
    obtain ⟨s₁, batch, L₁, hrun, hcore, hcount, hframe, hlen, hfetched⟩ :=
      fetchBatch_spec (refillZone s) cpu pcpBatchSize noHand_away h.core h.counted
    rw [hrun, bind_eq_bind, bind_some]
    cases batch with
    | nil =>
      -- the zone is empty, and the other zones are tried
      have hinv : Inv U s₁ held L₁ := by
        refine ⟨?_, hcount, ?_, ?_, ?_⟩
        · apply hcore.congrSet
          rw [hframe.pools]
          simp [withPool]
        · rw [hframe.pools]
          exact h.kept.frame hframe
        · rw [hframe.pools]
          exact h.pools
        · rw [hframe.pools, hframe.ready]
          exact h.unready
      obtain ⟨s₂, r, hrun₂, hdone, hsame⟩ :=
        allocFromZones_done hinv 0 flags (zonesFor flags)
      exact ⟨s₂, r, hrun₂, hdone, hframe.untouched.trans hsame⟩
    | cons page rest =>
      have hpool₁ : s₁.pcpPools cpu = [] := by rw [hframe.pools, hpool]
      dsimp only
      rw [hpool₁, append_nil]
      obtain ⟨hpage, hnodup⟩ := nodup_cons.1 hfetched.nodup
      suffices htop : HandedOut U _ held flags 0 page ∧ Untouched held s₁ _ from
        ⟨_, some page, rfl, htop.1, hframe.untouched.trans htop.2⟩
      refine takeTop_spec flags ?_ hcount ⟨?_, ?_⟩ ?_ ⟨?_, ?_, ?_⟩ ?_ ?_
      · apply hcore.congrSet
        intro a
        have hself : update s₁.pcpPools cpu [] = s.pcpPools := by
          rw [← hpool₁, update_eq_self, hframe.pools]
        rw [← append_nil (page :: rest.reverse), away_append, hself]
        simp [withPool]
      · exact (h.kept.frame hframe).granted
      · intro c p hp
        rw [update_apply] at hp
        split at hp
        next =>
          rw [hfetched.flags p (by simpa using hp)]
          rfl
        next =>
          rw [hframe.pools] at hp
          exact (h.kept.frame hframe).unmarked c p hp
      · simpa using hpage
      · simpa using hnodup
      · rw [length_reverse]
        rw [length_cons] at hlen
        unfold pcpBatchSize at hlen
        unfold pcpMaxPages
        omega
      · -- a batch may come from `ZONE_DMA32`, but it is all there is
        refine ⟨[], rest.reverse, rfl, ?_, by simp⟩
        rw [length_reverse]
        exact hlen
      · rw [hframe.pools]
        exact h.pools
      · rw [hframe.ready, hready]

theorem pmmAllocOrder_spec (h : Inv U s held L) (cpuId order : ℕ) (flags : BitVec 32) :
    ∃ s' r, pmmAllocOrder s cpuId order flags = some (s', r) ∧ AllocDone U s' held flags order r ∧
      Untouched held s s' ∧ (r ≠ none → order < maxOrder) := by
  unfold pmmAllocOrder
  split
  next => exact ⟨s, none, rfl, ⟨L, h⟩, .refl held s, fun hne => absurd rfl hne⟩
  next hlarge =>
    split
    next hfast =>
      obtain ⟨rfl, -, hready⟩ := hfast
      obtain ⟨s', r, hrun, hdone, hsame⟩ := allocFromPool_spec h hready (cpuIndex cpuId) flags
      exact ⟨s', r, hrun, hdone, hsame, fun _ => not_le.1 hlarge⟩
    next =>
      obtain ⟨s', r, hrun, hdone, hsame⟩ := allocFromZones_done h order flags (zonesFor flags)
      exact ⟨s', r, hrun, hdone, hsame, fun _ => not_le.1 hlarge⟩

/-!
## References and Release

`pmm_page_ref` and `pmm_free_order` keep the invariant. The last release of a page has to meet a
condition: what goes into the pool of a CPU must not carry `PAGE_FLAG_FREE`.
-/

/-! ## References -/

variable {p : ℕ} {g : Grant}

section

variable (h : Inv U s held L)

include h

variable {u : ℕ}

theorem Inv.outside (hp : held p = some g)
    (hu : u ∈ block g.order p) {a : Place} (ha : a ∈ away s.pcpPools held)
    (hne : a ≠ ⟨.client, g.order, p⟩) : u ∉ a.extent :=
  fun hmem => hne (h.core.tiles.disj a (.inr ha) ⟨.client, g.order, p⟩ (.inr ⟨g, hp, rfl⟩) u
    hmem hu)

theorem Inv.block_unique {q : ℕ} {g' : Grant} (hp : held p = some g)
    (hq : held q = some g') (hu : u ∈ block g.order p) (hu' : u ∈ block g'.order q) : p = q := by
  have heq := h.core.tiles.disj ⟨.client, g.order, p⟩ (.inr ⟨g, hp, rfl⟩)
    ⟨.client, g'.order, q⟩ (.inr ⟨g', hq, rfl⟩) u hu hu'
  exact congrArg Place.head heq

theorem Inv.held_usable (hp : held p = some g) (hu : u ∈ block g.order p) : u ∈ U :=
  h.core.mem_usable (a := ⟨.client, g.order, p⟩) ⟨g, hp, rfl⟩ hu

/-- A store into a descriptor where the allocator does not look: the mark of a free page stays, and
only heads of blocks have a count that matters. -/
theorem Inv.setDesc {v : Page} (hzone : v.zone = (s.pages p).zone)
    (hnext : v.freeNext = (s.pages p).freeNext) (hprev : v.freePrev = (s.pages p).freePrev)
    (hfree : v.flags &&& pageFlagFree = (s.pages p).flags &&& pageFlagFree)
    (horder : v.order = (s.pages p).order)
    (hrefs : held p ≠ none → v.refcount = (s.pages p).refcount) : Inv U (s.setPage p v) held L := by
  have hfield : ∀ {α : Type} (f : Page → α), f v = f (s.pages p) →
      ∀ u, f ((s.setPage p v).pages u) = f (s.pages u) := by
    intro α f hf u
    rw [pages_setPage]
    split
    next heq => rw [heq, hf]
    next => rfl
  refine ⟨⟨?_, h.core.tiles, h.core.offList, ?_, ?_, ?_, h.core.below⟩, h.counted, ⟨?_, ?_⟩,
    h.pools, h.unready⟩
  · intro z o
    exact (h.core.dll z o).congr (fun y _ => ⟨hfield (·.freeNext) hnext y,
      hfield (·.freePrev) hprev y⟩) rfl
  · intro z o u hu
    rw [hfield Page.order horder]
    exact h.core.heads z o u hu
  · exact fun u hu => (hfield (·.flags &&& pageFlagFree) hfree u).trans (h.core.reserved u hu)
  · exact fun u => (hfield (·.zone) hzone u).trans (h.core.zones u)
  · intro u g hu
    apply (h.kept.granted u g hu).congr (hfield (·.order) horder u)
    rw [pages_setPage]
    split
    next heq =>
      subst heq
      exact hrefs (by simp [hu])
    next => rfl
  · exact fun cpu u hu =>
      (hfield (·.flags &&& pageFlagFree) hfree u).trans (h.kept.unmarked cpu u hu)

/-- A store into the descriptor of an outstanding block. -/
theorem Inv.store (hp : held p = some g) {v : Page} (hzone : v.zone = (s.pages p).zone) :
    Core U (away s.pcpPools held) (s.setPage p v) L ∧
      Kept (s.setPage p v) s.pcpPools (update held p none) := by
  have hmem : (⟨.client, g.order, p⟩ : Place) ∈ away s.pcpPools held := ⟨g, hp, rfl⟩
  have hhead : p ∈ (⟨.client, g.order, p⟩ : Place).extent := head_mem_block g.order p
  refine ⟨h.core.setDesc (h.core.not_mem_list hmem hhead) (h.core.mem_usable hmem hhead) v hzone,
    ?_⟩
  have hframe : Frame (away s.pcpPools (update held p none)) s (s.setPage p v) := by
    apply frame_setPage
    intro a ha
    obtain ⟨ha', hne⟩ := (away_release hp a).1 ha
    exact h.outside hp (head_mem_block g.order p) ha' hne
  refine .frame ⟨?_, h.kept.unmarked⟩ hframe
  intro q g' hq
  obtain ⟨-, hq⟩ := of_update_none hq
  exact h.kept.granted q g' hq

/-- The reference count of an outstanding block changes. -/
theorem Inv.setRefs (hp : held p = some g) {refs : ℕ} (hpos : 0 < refs) (hlt : refs < 2 ^ 32) :
    Inv U (s.setPage p { s.pages p with refcount := refs })
      (update held p (some ⟨g.order, refs⟩)) L := by
  obtain ⟨hcore, hkept⟩ := h.store hp (v := { s.pages p with refcount := refs }) rfl
  refine ⟨hcore.congrSet (away_regrant hp refs), h.counted, ⟨?_, hkept.unmarked⟩, h.pools,
    h.unready⟩
  intro q g' hq
  by_cases hqp : q = p
  · subst hqp
    rw [update_self] at hq
    cases hq
    have hg := h.kept.granted q g hp
    refine ⟨hg.order_lt, hg.aligned, hg.zone, ?_, ?_, hpos, hlt⟩
    all_goals rw [pages_setPage, if_pos rfl]
    exact hg.orderField
  · rw [update_of_ne hqp] at hq
    apply hkept.granted q g'
    rw [update_of_ne hqp]
    exact hq

/-- The count of a page that is not the head of a block of a client is not looked at, or forbids a
merge. -/
theorem Inv.setRefs_other (hp : held p = none) (refs : ℕ) :
    Inv U (s.setPage p { s.pages p with refcount := refs }) held L :=
  h.setDesc rfl rfl rfl rfl rfl fun hne => absurd hp hne

/-- A page that its client will never return is as good as one that the allocator never had. -/
theorem Inv.retire {n : ℕ} (hp : held p = some ⟨0, n⟩)
    (hmark : (s.pages p).flags &&& pageFlagFree = 0) : Inv (U \ {p}) s (update held p none) L := by
  have haway : ∀ a, a ∈ away s.pcpPools (update held p none) ↔
      a ∈ away s.pcpPools held ∧ a ≠ ⟨.client, 0, p⟩ := away_release hp
  have hplace : (⟨.client, 0, p⟩ : Place) ∈ away s.pcpPools held := ⟨_, hp, rfl⟩
  have hextent : Place.extent ⟨.client, 0, p⟩ = {p} := by
    ext u
    show p ≤ u ∧ u < p + 1 ↔ u = p
    omega
  have htiles := h.core.tiles.remove (a := ⟨.client, 0, p⟩) (.inr hplace)
  rw [hextent] at htiles
  refine ⟨⟨h.core.dll, ?_, ?_, h.core.heads, ?_, h.core.zones, ?_⟩, h.counted,
    ⟨?_, h.kept.unmarked⟩,
    h.pools, h.unready⟩
  · apply htiles.congr
    intro a
    show OnList L a ∨ a ∈ away s.pcpPools _ ↔ (OnList L a ∨ a ∈ away s.pcpPools held) ∧ _
    rw [haway a]
    constructor
    · rintro (⟨z, hz, hmem⟩ | ⟨ha, hne⟩)
      · refine ⟨.inl ⟨z, hz, hmem⟩, ?_⟩
        rintro rfl
        cases hz
      · exact ⟨.inr ha, hne⟩
    · rintro ⟨ha | ha, hne⟩
      · exact .inl ha
      · exact .inr ⟨ha, hne⟩
  · exact fun a ha => h.core.offList a ((haway a).1 ha).1
  · intro u hu
    by_cases hup : u = p
    · rw [hup]
      exact hmark
    · exact h.core.reserved u fun hmem => hu ⟨hmem, hup⟩
  · exact fun u hu => h.core.below u hu.1
  · intro q g hq
    obtain ⟨-, hq⟩ := of_update_none hq
    exact h.kept.granted q g hq

end

/-! ## The pools -/

/-- A batch is drained into `ZONE_NORMAL`. -/
theorem drain_spec (cpu : ℕ) (hX : NoHand X) : ∀ (batch : List ℕ) {s : PmmState} {L : FreeLists},
    batch.Nodup → (∀ p ∈ batch, (⟨.pool cpu, 0, p⟩ : Place) ∉ X) →
    (∀ p ∈ batch, zoneOf p = .normal) → (∀ a ∈ withPool X cpu batch, Quiet s a) →
    Core U (withPool X cpu batch) s L → Counted s L →
    ∃ L', Core U X (batch.foldl (fun s p => freeToZoneLocked s .normal p 0) s) L' ∧
      Counted (batch.foldl (fun s p => freeToZoneLocked s .normal p 0) s) L' ∧
      Frame X s (batch.foldl (fun s p => freeToZoneLocked s .normal p 0) s) := by
  intro batch
  induction batch with
  | nil =>
    intro s L _ _ _ _ h hcount
    refine ⟨L, ?_, hcount, .refl X s⟩
    apply h.congrSet
    simp [withPool]
  | cons p batch ih =>
    intro s L hnodup hout hzone hquiet h hcount
    obtain ⟨hp, hnodup'⟩ := nodup_cons.1 hnodup
    -- the page is taken out of the pool
    have hpick := h.pick (a := ⟨.pool cpu, 0, p⟩) (.inr ⟨p, mem_cons_self, rfl⟩)
    have hset : ∀ a, a ∈ withPool X cpu batch ↔
        a ∈ withPool X cpu (p :: batch) ∧ a ≠ ⟨.pool cpu, 0, p⟩ := by
      intro a
      constructor
      · rintro (ha | ⟨q, hq, rfl⟩)
        · exact ⟨.inl ha, fun heq => hout p mem_cons_self (heq ▸ ha)⟩
        · refine ⟨.inr ⟨q, mem_cons_of_mem p hq, rfl⟩, fun heq => ?_⟩
          cases heq
          exact hp hq
      · rintro ⟨ha | ⟨q, hq, rfl⟩, hne⟩
        · exact .inl ha
        · rcases mem_cons.1 hq with rfl | hq
          · exact absurd rfl hne
          · exact .inr ⟨q, hq, rfl⟩
    have hhand : Core U (withHand (withPool X cpu batch) 0 p) s L := by
      apply hpick.congrSet
      intro a
      exact or_congr_left (hset a)
    have hsub : ∀ a ∈ withPool X cpu batch, a ∈ withPool X cpu (p :: batch) :=
      fun a ha => ((hset a).1 ha).1
    have hin : InZone .normal 0 p := by
      intro u hu
      rw [mem_block] at hu
      rw [show u = p by omega]
      exact hzone p mem_cons_self
    obtain ⟨L₁, hcore₁, hcount₁, hframe₁⟩ := freeToZoneLocked_spec (withPool_noHand hX cpu batch)
      (by decide) (one_dvd p) hin hhand hcount fun a ha => hquiet a (hsub a ha)
    obtain ⟨L₂, hcore₂, hcount₂, hframe₂⟩ := ih hnodup' (fun q hq => hout q (mem_cons_of_mem p hq))
      (fun q hq => hzone q (mem_cons_of_mem p hq))
      (fun a ha => (hquiet a (hsub a ha)).frame hframe₁ ha) hcore₁ hcount₁
    exact ⟨L₂, hcore₂, hcount₂, (hframe₁.mono fun a ha => .inl ha).trans hframe₂⟩

/-- A page of `ZONE_NORMAL` on top of a pool. -/
theorem PoolOk.push {pool : List ℕ} (h : PoolOk pool) {page : ℕ} (hpage : page ∉ pool)
    (hroom : pool.length < pcpMaxPages) (hzone : zoneOf page = .normal) :
    PoolOk (page :: pool) := by
  refine ⟨nodup_cons.2 ⟨hpage, h.nodup⟩, hroom, ?_⟩
  obtain ⟨upper, lower, rfl, hlower, hupper⟩ := h.layered
  refine ⟨page :: upper, lower, rfl, hlower, ?_⟩
  intro p hp
  rcases mem_cons.1 hp with rfl | hp
  · exact hzone
  · exact hupper p hp

/-- A full pool gives a batch of pages of `ZONE_NORMAL` back. -/
theorem PoolOk.full {pool : List ℕ} (h : PoolOk pool) (hfull : ¬ pool.length < pcpMaxPages) :
    (∀ p ∈ pool.take pcpBatchSize, zoneOf p = .normal) ∧ PoolOk (pool.drop pcpBatchSize) ∧
      (pool.drop pcpBatchSize).length < pcpMaxPages := by
  have hle := h.length_le
  obtain ⟨upper, lower, rfl, hlower, hupper⟩ := h.layered
  have hnodup := h.nodup
  rw [length_append] at hle hfull
  unfold pcpMaxPages at hle hfull
  unfold pcpBatchSize at hlower
  have hlong : pcpBatchSize ≤ upper.length := by
    unfold pcpBatchSize
    omega
  rw [take_append_of_le_length hlong, drop_append_of_le_length hlong]
  rw [← take_append_drop pcpBatchSize upper, append_assoc] at hnodup
  have hlen : (upper.drop pcpBatchSize ++ lower).length < pcpMaxPages := by
    rw [length_append, length_drop]
    unfold pcpBatchSize pcpMaxPages
    omega
  refine ⟨fun p hp => hupper p (mem_of_mem_take hp), ⟨hnodup.of_append_right, le_of_lt hlen,
    upper.drop pcpBatchSize, lower, rfl, hlower, fun p hp => hupper p (mem_of_mem_drop hp)⟩,
    hlen⟩

/-- The page in the hand goes into the pool of a CPU. -/
theorem freeToPool_spec {cpu page : ℕ} (hcore : Core U (withHand (away s.pcpPools held) 0 page) s L)
    (hcount : Counted s L) (hkept : Kept s s.pcpPools held)
    (hpools : ∀ cpu, PoolOk (s.pcpPools cpu))
    (hready : s.smpReady = true) (hzone : zoneOf page = .normal)
    (hflags : (s.pages page).flags &&& pageFlagFree = 0) :
    ∃ L', Inv U (freeToPool s cpu page) held L' ∧ Untouched held s (freeToPool s cpu page) := by
  have hfresh := hcore.head_ne noHand_away (head_mem_block 0 page)
  have hpage : page ∉ s.pcpPools cpu := fun hmem => hfresh ⟨.pool cpu, 0, page⟩ ⟨rfl, hmem⟩ rfl
  have hgive : Core U (away (update s.pcpPools cpu (page :: s.pcpPools cpu)) held) s L := by
    apply (hcore.give noHand_away (.pool cpu) fun _ heq => by cases heq).congrSet
    intro a
    rw [show page :: s.pcpPools cpu = [page] ++ s.pcpPools cpu from rfl, away_append,
      update_eq_self]
    simp [withPool]
  have hkept' : Kept s (update s.pcpPools cpu (page :: s.pcpPools cpu)) held := by
    refine ⟨hkept.granted, ?_⟩
    intro c p hp
    rw [update_apply] at hp
    split at hp
    next =>
      rcases mem_cons.1 hp with rfl | hp
      · exact hflags
      · exact hkept.unmarked cpu p hp
    next => exact hkept.unmarked c p hp
  unfold freeToPool
  by_cases hroom : (s.pcpPools cpu).length < pcpMaxPages
  · rw [if_pos hroom]
    refine ⟨L, ⟨hgive.congr rfl (fun _ => rfl) rfl, hcount,
      ⟨fun p g hp => (hkept'.granted p g hp).congr rfl rfl, hkept'.unmarked⟩,
      poolOk_update hpools ((hpools cpu).push hpage hroom hzone), fun hunready => ?_⟩,
      untouched_setPool held s cpu _⟩
    rw [show s.smpReady = false from hunready] at hready
    cases hready
  · rw [if_neg hroom]
    obtain ⟨hbatch, hrest, hshort⟩ := (hpools cpu).full hroom
    have hsplit := take_append_drop pcpBatchSize (s.pcpPools cpu)
    have hnodup := (hpools cpu).nodup
    generalize (s.pcpPools cpu).take pcpBatchSize = batch at *
    generalize (s.pcpPools cpu).drop pcpBatchSize = rest at *
    rw [← hsplit] at hpage hnodup
    rw [mem_append, not_or] at hpage
    have hmem : ∀ q, q ∈ batch ++ (page :: rest) ↔ q ∈ page :: s.pcpPools cpu := by
      intro q
      rw [← hsplit]
      simp only [mem_append, mem_cons]
      exact or_left_comm
    -- the batch and what stays, with the new page on top
    have hparts : Core U (withPool (away (update s.pcpPools cpu (page :: rest)) held) cpu batch)
        (s.setPool cpu (page :: rest)) L := by
      refine .congrSet ?_ fun a => (away_append batch (page :: rest) a).symm.trans
        (away_perm hmem a)
      exact hgive.congr rfl (fun _ => rfl) rfl
    have hquiet : ∀ a ∈ withPool (away (update s.pcpPools cpu (page :: rest)) held) cpu batch,
        Quiet (s.setPool cpu (page :: rest)) a := by
      intro a ha
      rw [← away_append, away_perm hmem] at ha
      obtain ⟨haligned, hunmarked⟩ := hkept'.quiet a ha
      exact ⟨haligned, hunmarked⟩
    obtain ⟨L', hcore', hcount', hframe⟩ := drain_spec cpu noHand_away batch hnodup.of_append_left
      (by
        intro p hp hin
        rw [pool_mem_away, update_self] at hin
        rcases mem_cons.1 hin.2 with rfl | hin
        · exact hpage.1 hp
        · exact (nodup_append.1 hnodup).2.2 p hp p hin rfl)
      hbatch hquiet hparts hcount
    have hkept₁ : Kept (s.setPool cpu (page :: rest))
        (update s.pcpPools cpu (page :: rest)) held := by
      have hsub : ∀ p ∈ page :: rest, p ∈ page :: s.pcpPools cpu :=
        fun p hp => (hmem p).1 (mem_append_right _ hp)
      have hshrink := hkept'.shrink hsub
      exact ⟨fun p g hp => (hshrink.granted p g hp).congr rfl rfl, hshrink.unmarked⟩
    refine ⟨L', ⟨?_, hcount', ?_, ?_, ?_⟩,
      (untouched_setPool held s cpu (page :: rest)).trans hframe.untouched⟩
    · rw [hframe.pools]
      exact hcore'
    · rw [hframe.pools]
      exact hkept₁.frame hframe
    · rw [hframe.pools]
      exact poolOk_update hpools (hrest.push hpage.2 hshort hzone)
    · intro hunready
      rw [hframe.ready] at hunready
      rw [show s.smpReady = false from hunready] at hready
      cases hready

/-! ## Release -/

/-- The last reference to a page in the pool path is dropped while the page carries
`PAGE_FLAG_FREE`. -/
def PoolsMarked (s : PmmState) (held : ℕ → Option Grant) (p : ℕ) : Prop :=
  held p = some ⟨0, 1⟩ ∧ s.smpReady = true ∧ (s.pages p).zone = .normal ∧
    (s.pages p).flags &&& pageFlagFree ≠ 0
  deriving Decidable

/-- What the clients hold after one of them has dropped a reference. -/
def dropRef (held : ℕ → Option Grant) (p : ℕ) : ℕ → Option Grant :=
  update held p ((held p).bind fun g => if g.refs ≤ 1 then none else some ⟨g.order, g.refs - 1⟩)

/-- A new reference that is dropped. -/
theorem back_of_none {held : ℕ → Option Grant} (h : held p = none) :
    update (update held p (some ⟨0, 1⟩)) p none = held ∧
      dropRef (update held p (some ⟨0, 1⟩)) p = held := by
  have hback : update (update held p (some ⟨0, 1⟩)) p none = held := by
    rw [update_idem, ← h, update_eq_self]
  refine ⟨hback, ?_⟩
  unfold dropRef
  rw [update_self]
  exact hback

/-- A free drops one reference, and with the last one the block goes to a pool or to its zone. -/
theorem pmmFreeOrder_spec (h : Inv U s held L) (hp : held p = some g)
    (hok : ¬ PoolsMarked s held p) (cpuId : ℕ) :
    ∃ L', Inv U (pmmFreeOrder s cpuId p g.order) (dropRef held p) L' ∧
      Untouched (update held p none) s (pmmFreeOrder s cpuId p g.order) := by
  have hg := h.kept.granted p g hp
  have hpos := hg.refs_pos
  have hlt := hg.refs_lt
  -- a store into the descriptor of the block concerns no other client
  have hother : ∀ v : Page, Untouched (update held p none) s (s.setPage p v) := by
    intro v
    refine ⟨fun q g' hq u hu => sameDesc_setPage s ?_ v, rfl⟩
    rintro rfl
    obtain ⟨hne, hq⟩ := of_update_none hq
    exact hne (h.block_unique hq hp hu (head_mem_block g.order u))
  unfold pmmFreeOrder dropRef
  rw [if_neg (not_le.2 hg.order_lt), hp, hg.refcountField, Option.bind_some]
  by_cases hmore : g.refs > 1
  · rw [if_pos hmore, if_neg (by omega),
      show (g.refs + (2 ^ 32 - 1)) % 2 ^ 32 = g.refs - 1 by omega]
    exact ⟨L, h.setRefs hp (by omega) (by omega), hother _⟩
  · have hone : g.refs = 1 := by omega
    rw [if_neg hmore, if_neg (show ¬ g.refs = 0 by omega), if_pos (show g.refs ≤ 1 by omega), hone]
    -- the block is in the hand of the call
    obtain ⟨hcore, hkept⟩ := h.store hp (v := { s.pages p with refcount := 0 }) rfl
    set s₁ := s.setPage p { s.pages p with refcount := 0 } with hs₁
    have hhand : Core U (withHand (away s.pcpPools (update held p none)) g.order p) s₁ L := by
      have hpick := hcore.pick (a := ⟨.client, g.order, p⟩) ⟨g, hp, rfl⟩
      exact hpick.congrSet fun a => or_congr_left (away_release hp a)
    suffices hrel : ∃ L',
        Inv U (releaseBlock s₁ (cpuIndex cpuId) p g.order) (update held p none) L' ∧
        Untouched (update held p none) s₁ (releaseBlock s₁ (cpuIndex cpuId) p g.order) by
      obtain ⟨L', hinv, hsame⟩ := hrel
      exact ⟨L', hinv, (hother _).trans hsame⟩
    have hzone : (s₁.pages p).zone = zoneOf p := hcore.zones p
    unfold releaseBlock
    rw [hzone]
    split
    next hpool =>
      obtain ⟨hzero, hnormal, hready⟩ := hpool
      rw [hzero] at hhand
      apply freeToPool_spec (s := s₁) hhand h.counted hkept h.pools hready hnormal
      rw [hs₁, pages_setPage, if_pos rfl]
      by_contra hfree
      refine hok ⟨?_, hready, ?_, hfree⟩
      · rw [hp, ← hzero, ← hone]
      · rw [h.core.zones, hnormal]
    next =>
      obtain ⟨L', hcore', hcount', hframe⟩ := freeToZoneLocked_spec noHand_away hg.order_lt
        hg.aligned hg.zone hhand h.counted hkept.quiet
      refine ⟨L', ⟨?_, hcount', ?_, ?_, ?_⟩, hframe.untouched⟩
      · rw [hframe.pools]
        exact hcore'
      · rw [hframe.pools]
        exact hkept.frame hframe
      · rw [hframe.pools]
        exact h.pools
      · rw [hframe.pools, hframe.ready]
        exact h.unready

theorem pmmInitPercpu_spec (h : Inv U s held L) (hunready : s.smpReady = false) :
    Inv U (pmmInitPercpu s) held L := by
  have hempty := h.unready hunready
  have hpools : (pmmInitPercpu s).pcpPools = s.pcpPools := by
    funext cpu
    unfold pmmInitPercpu
    dsimp only
    rw [hempty cpu, ite_self]
  refine ⟨?_, h.counted, ⟨fun p g hp => (h.kept.granted p g hp).congr rfl rfl, ?_⟩, ?_, ?_⟩
  · rw [hpools]
    exact h.core.congr rfl (fun _ => rfl) rfl
  · rw [hpools]
    exact h.kept.unmarked
  · rw [hpools]
    exact h.pools
  · rw [hpools]
    exact fun _ => hempty

end BoredOS.Mem.Pmm
